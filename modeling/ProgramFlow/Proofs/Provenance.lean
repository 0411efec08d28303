import ProgramFlow.Proofs.ClassUnion
import ProgramFlow.Proofs.Reachability

/-! Where the nodes of a graph come from. Every graph of a method or field, and the own graph of
every class, was assembled once: its nodes have the identities that the assembler took, and copying,
adoption and the computation of blocks leave them as they are. The assemblies of a session are kept
as a list of origins, which have no identity in common since each began where the supply stood
after the one before. -/
namespace ProgramFlow

structure Origin where
  name : String
  isClass : Bool
  supply : Supply
  size : Nat

namespace Origin

def identities (o : Origin) : List (NodeId × LinkId) := o.supply.numbers o.size

/-- The assemblies that led to a supply, the last one first. Identities may have been taken in
between. -/
inductive Separate : List Origin → Supply → Prop where
  | nil {s : Supply} (h : 1 ≤ s.ids.next) : Separate [] s
  | cons {o os} {s : Supply} (ho : Separate os o.supply)
      (hid : o.supply.ids.next + o.size ≤ s.ids.next)
      (hlink : o.supply.nextLink + o.size ≤ s.nextLink) : Separate (o :: os) s

namespace Separate

variable {os : List Origin} {s t : Supply} {o o' : Origin} {id id' : NodeId} {link link' : LinkId}

theorem one_le (h : Separate os s) : 1 ≤ s.ids.next := by
  induction h with
  | nil h => exact h
  | cons _ hid _ ih => omega

theorem mono (h : Separate os s) (hid : s.ids.next ≤ t.ids.next)
    (hlink : s.nextLink ≤ t.nextLink) : Separate os t := by
  cases h with
  | nil h => exact .nil (Nat.le_trans h hid)
  | cons ho hid' hlink' =>
    exact .cons ho (Nat.le_trans hid' hid) (Nat.le_trans hlink' hlink)

theorem bounds (h : Separate os s) (ho : o ∈ os) (hm : (id, link) ∈ o.identities) :
    1 ≤ id.val ∧ id.val < s.ids.next ∧ link.val < s.nextLink := by
  induction h with
  | nil => cases ho
  | @cons first os s hs hid hlink ih =>
    rcases List.mem_cons.1 ho with rfl | ho
    · obtain ⟨i, hi, rfl, rfl⟩ := Supply.mem_numbers.1 hm
      have hone := hs.one_le
      simp only
      omega
    · have hin := ih ho
      omega

/-- No two origins have an identity of a node or of a link in common. -/
theorem origin_eq (h : Separate os s) (ho : o ∈ os) (ho' : o' ∈ os)
    (hm : (id, link) ∈ o.identities) (hm' : (id', link') ∈ o'.identities)
    (hshared : id = id' ∨ link = link') : o = o' := by
  induction h with
  | nil => cases ho
  | @cons first os s hs _ _ ih =>
    -- the newest origin has nothing that lies below the supply it began on
    have hnew : ∀ {id link}, (id, link) ∈ first.identities →
        first.supply.ids.next ≤ id.val ∧ first.supply.nextLink ≤ link.val := by
      intro id link hm
      obtain ⟨i, -, rfl, rfl⟩ := Supply.mem_numbers.1 hm
      exact ⟨Nat.le_add_right _ _, Nat.le_add_right _ _⟩
    rcases List.mem_cons.1 ho with rfl | hin <;> rcases List.mem_cons.1 ho' with rfl | hin'
    · rfl
    · have hbelow := hs.bounds hin' hm'
      have habove := hnew hm
      rcases hshared with rfl | rfl <;> omega
    · have hbelow := hs.bounds hin hm
      have habove := hnew hm'
      rcases hshared with rfl | rfl <;> omega
    · exact ih hin hin'

/-- A node identity stands for one link, and a link for one node identity. -/
theorem id_eq_iff_link_eq (h : Separate os s) (ho : o ∈ os) (ho' : o' ∈ os)
    (hm : (id, link) ∈ o.identities) (hm' : (id', link') ∈ o'.identities) :
    id = id' ↔ link = link' := by
  constructor
  · rintro rfl
    obtain rfl := h.origin_eq ho ho' hm hm' (.inl rfl)
    obtain ⟨i, -, rfl, rfl⟩ := Supply.mem_numbers.1 hm
    obtain ⟨j, -, hid, rfl⟩ := Supply.mem_numbers.1 hm'
    simp only [NodeId.mk.injEq, Nat.add_left_cancel_iff] at hid
    rw [hid]
  · rintro rfl
    obtain rfl := h.origin_eq ho ho' hm hm' (.inr rfl)
    obtain ⟨i, -, rfl, rfl⟩ := Supply.mem_numbers.1 hm
    obtain ⟨j, -, rfl, hlink⟩ := Supply.mem_numbers.1 hm'
    simp only [LinkId.mk.injEq, Nat.add_left_cancel_iff] at hlink
    rw [hlink]

end Separate

end Origin

namespace FlowGraph

structure StemsFrom (g : FlowGraph) (o : Origin) : Prop where
  name : g.qualifiedName = o.name
  identities : g.identities = o.identities

theorem StemsFrom.mem_identities {g : FlowGraph} {o : Origin} (h : g.StemsFrom o) {id : NodeId}
    {n : Node} (hn : g.node? id = some n) : (id, n.link) ∈ o.identities := by
  rw [← h.identities, ← id_of_node? hn]
  exact List.mem_map.2 ⟨n, List.mem_of_find?_eq_some hn, rfl⟩

theorem identities_markBlocks (g : FlowGraph) (blocks : List BasicBlock) :
    (g.markBlocks blocks).identities = g.identities := by
  simp only [markBlocks, identities, nodes, List.map_map]
  rfl

end FlowGraph

theorem Assembler.Reachable.stemsFrom {supply : Supply} {a : Assembler}
    (h : Assembler.Reachable supply a) (isClass : Bool) :
    a.flow.StemsFrom ⟨a.flow.qualifiedName, isClass, supply, a.flow.identities.length⟩ :=
  ⟨rfl, h.numbered.identities⟩

namespace ClassCfg

/-- The graph is a union of the own graph and graphs of members, at least some; with the entry of a
class it is that of all of them. -/
structure Woven (c : ClassCfg) : Prop where
  start_mem : c.own.start ∈ c.own.nodeIds
  united : ∃ graphs : List FlowGraph, (∀ g ∈ graphs, g ∈ c.members.map SharedCfg.flow) ∧
    c.flow = graphs.foldl link c.own
  coherent : c.own.classEntry?.isSome = true → c.Coherent

namespace Woven

variable {c c' : ClassCfg}

theorem toClass {supply : Supply} {a : Assembler} (h : Assembler.Reachable supply a) :
    a.toClass.Woven := by
  have hentered := h.entered
  refine ⟨?_, ⟨[], by simp, rfl⟩, fun hentry => ?_⟩
  · have hstart : a.flow.startNode?.isSome = true :=
      hentered.elim (fun h => h.start) fun h => h.start
    exact FlowGraph.isSome_node?.1 hstart
  · rcases hentered with h | h
    · change a.flow.classEntry?.isSome = true at hentry
      rw [h.entry] at hentry
      cases hentry
    · exact .toClass h

theorem add (h : c.Woven) (m : SharedCfg) : (c.add m).2.Woven := by
  obtain ⟨graphs, hgraphs, hflow⟩ := h.united
  have hcoherent : (c.add m).2.own.classEntry?.isSome = true → (c.add m).2.Coherent := by
    intro hentry
    refine (h.coherent ?_).add m
    unfold ClassCfg.add at hentry
    split at hentry
    · split at hentry <;> exact hentry
    · rw [classEntry?_register, Option.isSome_map] at hentry
      exact hentry
  refine ⟨?_, ?_, hcoherent⟩
  all_goals
    unfold ClassCfg.add
    split
  · split <;> exact h.start_mem
  · change c.own.start ∈ (c.own.modifyNode c.own.start _).nodeIds
    rw [FlowGraph.nodeIds_modifyNode _ _ (addName_id _)]
    exact h.start_mem
  · split <;> exact h.united
  · refine ⟨graphs ++ [m.flow], ?_, flow_register h.start_mem hflow m⟩
    have hperm := (place_perm m c.members).map SharedCfg.flow
    intro g hg
    refine hperm.mem_iff.2 ?_
    rcases List.mem_append.1 hg with hg | hg
    · exact List.mem_cons_of_mem _ (hgraphs g hg)
    · exact List.mem_singleton.1 hg ▸ List.mem_cons_self

theorem revised (h : c.Woven) (hr : c.Revised c') : c'.Woven := by
  refine ⟨hr.own ▸ h.start_mem, ?_, fun hentry => (h.coherent (hr.own ▸ hentry)).revised hr⟩
  rcases hr.flow with ⟨hflow, hflows⟩ | hflow
  · rw [hflow, hflows, hr.own]
    exact h.united
  · rw [hflow, hr.own]
    exact ⟨_, fun g hg => mem_linked hg, union_eq_foldl ..⟩

theorem own_nodeIds (h : c.Woven) {id : NodeId} (hid : id ∈ c.own.nodeIds) :
    id ∈ c.flow.nodeIds := by
  obtain ⟨graphs, -, hflow⟩ := h.united
  rw [hflow, mem_nodeIds_foldl_link]
  exact .inl hid

theorem node?_eq_some (h : c.Woven) {id : NodeId} {n : Node} (hn : c.flow.node? id = some n) :
    c.own.node? id = some n ∨ ∃ m ∈ c.members, m.flow.node? id = some n ∧
      ∀ x ∈ m.flow.nodeIds, x ∈ c.flow.nodeIds := by
  obtain ⟨graphs, hgraphs, hflow⟩ := h.united
  rw [hflow, node?_foldl_link] at hn
  rcases Option.or_eq_some_iff.1 hn with hn | ⟨-, hn⟩
  · exact .inl hn
  · obtain ⟨g, hg, hn⟩ := List.exists_of_findSome?_eq_some hn
    obtain ⟨m, hm, rfl⟩ := List.mem_map.1 (hgraphs g hg)
    refine .inr ⟨m, hm, hn, fun x hx => ?_⟩
    rw [hflow, mem_nodeIds_foldl_link]
    exact .inr ⟨m.flow, hg, hx⟩

end Woven

end ClassCfg

namespace SharedCfg

def core : SharedCfg → FlowGraph
  | .method _ cfg => cfg.flow
  | .classType _ cfg => cfg.own

theorem core_qualifiedName (m : SharedCfg) : m.core.qualifiedName = m.qualifiedName := by
  cases m with
  | method => rfl
  | classType ref cfg => exact cfg.named

/-- A node of an object is one that was assembled, of the object or of something inside it. -/
theorem node?_core {forest : List SharedCfg}
    (h : ∀ x ∈ descendantsOf forest, x.Holds ClassCfg.Woven) {m : SharedCfg} (hm : m ∈ forest)
    {id : NodeId} {n : Node} (hn : m.flow.node? id = some n) :
    ∃ d ∈ descendantsOf [m], d.core.node? id = some n ∧
      ∀ x ∈ d.core.nodeIds, x ∈ m.flow.nodeIds := by
  induction forest using forest_induction generalizing m with
  | nil => cases hm
  | cons head rest ihi ihr =>
    simp only [descendantsOf_cons, List.forall_mem_cons, List.forall_mem_append] at h
    obtain ⟨hhead, hin, hrest⟩ := h
    rcases List.mem_cons.1 hm with rfl | hm
    · cases m with
      | method ref cfg => exact ⟨.method ref cfg, by simp, hn, fun _ hx => hx⟩
      | classType ref cfg =>
        have hw := hhead ref cfg rfl
        rcases hw.node?_eq_some hn with hn | ⟨x, hx, hn, hall⟩
        · exact ⟨.classType ref cfg, by simp, hn, fun _ hx => hw.own_nodeIds hx⟩
        · obtain ⟨d, hd, hdn, hsub⟩ := ihi hin hx hn
          refine ⟨d, ?_, hdn, fun y hy => hall y (hsub y hy)⟩
          rw [mem_descendantsOf_cons, inside_classType, mem_descendantsOf]
          exact .inr (.inl ⟨x, hx, hd⟩)
    · exact ihr hrest hm hn

end SharedCfg

structure Cfg.Genuine (os : List Origin) (c : Cfg) : Prop where
  stems : ∃ o ∈ os, o.isClass = false ∧ c.flow.StemsFrom o
  assembled : c.Assembled

structure ClassCfg.Genuine (os : List Origin) (c : ClassCfg) : Prop where
  stems : ∃ o ∈ os, o.isClass = true ∧ c.own.StemsFrom o
  woven : c.Woven

theorem Cfg.Genuine.mono {os os' : List Origin} {c : Cfg} (h : c.Genuine os)
    (hos : ∀ o ∈ os, o ∈ os') : c.Genuine os' := by
  obtain ⟨⟨o, ho, hstems⟩, hassembled⟩ := h
  exact ⟨⟨o, hos o ho, hstems⟩, hassembled⟩

theorem ClassCfg.Genuine.mono {os os' : List Origin} {c : ClassCfg} (h : c.Genuine os)
    (hos : ∀ o ∈ os, o ∈ os') : c.Genuine os' := by
  obtain ⟨⟨o, ho, hstems⟩, hwoven⟩ := h
  exact ⟨⟨o, hos o ho, hstems⟩, hwoven⟩

theorem Cfg.Genuine.computeBlocks {os : List Origin} {c : Cfg} (h : c.Genuine os) :
    c.computeBlocks.Genuine os := by
  obtain ⟨o, ho, hclass, hname, hids⟩ := h.stems
  refine ⟨⟨o, ho, hclass, hname, ?_⟩, h.assembled.computed⟩
  exact (c.flow.identities_markBlocks _).trans hids

theorem ClassCfg.Genuine.revised {os : List Origin} {c c' : ClassCfg} (h : c.Genuine os)
    (hr : c.Revised c') : c'.Genuine os :=
  ⟨hr.own ▸ h.stems, h.woven.revised hr⟩

theorem ClassCfg.Genuine.add {os : List Origin} {c : ClassCfg} (h : c.Genuine os)
    (m : SharedCfg) : (c.add m).2.Genuine os := by
  refine ⟨?_, h.woven.add m⟩
  unfold ClassCfg.add
  split
  · split <;> exact h.stems
  · obtain ⟨o, ho, hclass, hname, hids⟩ := h.stems
    refine ⟨o, ho, hclass, hname, ?_⟩
    exact (c.own.identities_modifyNode _ (addName_id _) (addName_link _)).trans hids

namespace SharedCfg

def Genuine (os : List Origin) : SharedCfg → Prop
  | .method _ cfg => cfg.Genuine os
  | .classType _ cfg => cfg.Genuine os

variable {os os' : List Origin} {m : SharedCfg}

theorem Genuine.stems (h : m.Genuine os) :
    ∃ o ∈ os, o.isClass = m.isClass ∧ m.core.StemsFrom o := by
  cases m with
  | method => exact Cfg.Genuine.stems h
  | classType => exact ClassCfg.Genuine.stems h

theorem Genuine.woven (h : m.Genuine os) : m.Holds ClassCfg.Woven := by
  rintro ref cfg rfl
  exact ClassCfg.Genuine.woven h

theorem Genuine.mono (h : m.Genuine os) (hos : ∀ o ∈ os, o ∈ os') : m.Genuine os' := by
  cases m with
  | method => exact Cfg.Genuine.mono h hos
  | classType => exact ClassCfg.Genuine.mono h hos

/-- Objects that come from an assembly and whose identity has been handed out are replaced by such
objects. -/
theorem lasting_genuine (os : List Origin) :
    Lasting fun n m => m.Genuine os ∧ m.ref.val < n := by
  refine ⟨fun hn h => ⟨h.1, Nat.lt_of_lt_of_le h.2 hn⟩, ?_, ?_⟩
  · rintro n ref cfg ⟨h, -⟩
    exact ⟨Cfg.Genuine.computeBlocks h, Nat.lt_succ_self n⟩
  · rintro n ref cfg cfg' hr ⟨h, -⟩
    exact ⟨ClassCfg.Genuine.revised h hr, Nat.lt_succ_self n⟩

end SharedCfg

end ProgramFlow
