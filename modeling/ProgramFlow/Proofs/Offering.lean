import Mathlib.Data.List.Perm.Subperm
import ProgramFlow.Proofs.IdSeparation
import ProgramFlow.Proofs.MemberQueries

/-! What any front end can hand over, wherever it takes node identities from: graphs that
operations on graphs make, classes opened on such graphs, members added to them, and the objects it
is shown. All of it is regular, and so is all that a store holds: no identity stands twice in a
graph, and a rebuild of a class finds no node that the class does not have. -/
namespace ProgramFlow

theorem FlowGraph.length_nodeIds (g : FlowGraph) : g.nodeIds.length = g.nodeCount :=
  List.length_map _

theorem FlowGraph.nodeCount_le {g h : FlowGraph} (hg : g.graph.Made)
    (hsub : ∀ id ∈ g.nodeIds, id ∈ h.nodeIds) : g.nodeCount ≤ h.nodeCount := by
  rw [← length_nodeIds, ← length_nodeIds]
  exact (List.subperm_of_subset hg.nodup_nodeIds hsub).length_le

theorem Cfg.made_computeBlocks {c : Cfg} (h : c.flow.graph.Made) :
    c.computeBlocks.flow.graph.Made :=
  h.mapNodes _ fun _ => rfl

theorem Assembler.Reachable.made {supply : Supply} {a : Assembler} (h : Reachable supply a) :
    a.flow.graph.Made := by
  induction h with
  | opened h => exact h.bare.made
  | step op _ ih => exact op.made_apply ih

theorem Cfg.Assembled.made {c : Cfg} (h : c.Assembled) : c.flow.graph.Made := by
  induction h with
  | finished h => exact h.made
  | computed _ ih => exact made_computeBlocks ih

theorem Assembler.Reachable.run {supply : Supply} {a : Assembler} (h : Reachable supply a)
    (ops : List (AssemblerOp NodeId)) : Reachable supply (AssemblerOp.run ops a) := by
  induction ops generalizing a with
  | nil => exact h
  | cons op rest ih => exact ih (h.step op)

namespace ClassCfg

variable {c c' : ClassCfg}

theorem made_foldl_link (graphs : List FlowGraph) {own : FlowGraph} (h : own.graph.Made) :
    (graphs.foldl link own).graph.Made := by
  induction graphs generalizing own with
  | nil => exact h
  | cons g rest ih => exact ih (((h.append g.graph).addEdge _).addEdge _)

theorem mem_nodeIds_union {own : FlowGraph} {names : List String} {members : List SharedCfg}
    {id : NodeId} : id ∈ (union own names members).nodeIds ↔ id ∈ own.nodeIds ∨
      ∃ g ∈ linked names (members.map SharedCfg.flow), id ∈ g.nodeIds := by
  rw [union_eq_foldl, mem_nodeIds_foldl_link]

theorem mem_nodeIds_relink {id : NodeId} : id ∈ c.relink.flow.nodeIds ↔
    id ∈ c.own.nodeIds ∨
      ∃ g ∈ linked c.memberNames (c.members.map SharedCfg.flow), id ∈ g.nodeIds :=
  mem_nodeIds_union

theorem mem_memberNames_register {m : SharedCfg} {name : String}
    (h : name ∈ (c.register m).memberNames) : name ∈ c.memberNames ∨ name = m.qualifiedName := by
  cases hentry : c.own.classEntry? with
  | none =>
    rw [memberNames, classEntry?_register, hentry] at h
    cases h
  | some entry =>
    rw [memberNames_register (by rw [hentry]; rfl), List.mem_append, List.mem_singleton] at h
    exact h

structure Regular (c : ClassCfg) : Prop where
  own : c.own.graph.Made
  flow : c.flow.graph.Made
  covers : ∀ id ∈ c.relink.flow.nodeIds, id ∈ c.flow.nodeIds

theorem Regular.ofFlow {flow : FlowGraph} (h : flow.graph.Made) : (ofFlow flow).Regular := by
  refine ⟨h, h, fun id hid => ?_⟩
  rcases mem_nodeIds_relink.1 hid with hid | ⟨g, hg, -⟩
  · exact hid
  · exact absurd (mem_linked hg) List.not_mem_nil

theorem mem_nodeIds_register {m : SharedCfg} {id : NodeId} :
    id ∈ (c.register m).flow.nodeIds ↔ id ∈ c.flow.nodeIds ∨ id ∈ m.flow.nodeIds := by
  have hlink : id ∈ ([m.flow].foldl link
      (c.flow.modifyNode c.flow.start (addName m.qualifiedName))).nodeIds ↔ _ :=
    mem_nodeIds_foldl_link
  rw [FlowGraph.nodeIds_modifyNode _ _ (addName_id _)] at hlink
  simp only [List.mem_singleton, exists_eq_left] at hlink
  exact hlink

theorem mem_linked_register {m : SharedCfg} (hfresh : c.find? m.qualifiedName = none)
    {g : FlowGraph} (h : g ∈ linked (c.register m).memberNames
      ((c.register m).members.map SharedCfg.flow)) :
    g = m.flow ∨ g ∈ linked c.memberNames (c.members.map SharedCfg.flow) := by
  obtain ⟨name, hname, hg⟩ := List.mem_filterMap.1 h
  by_cases hn : name = m.qualifiedName
  · left
    have hself := linked_place_self (find?_eq_none_iff.1 hfresh)
    rw [linked, List.filterMap_cons, ← hn] at hself
    change List.find? _ ((place m c.members).map SharedCfg.flow) = some g at hg
    rw [hg] at hself
    exact (List.cons.inj hself).1
  · right
    have hlisted := (mem_memberNames_register hname).resolve_right hn
    have hplace : linked [name] ((place m c.members).map SharedCfg.flow) =
        linked [name] (c.members.map SharedCfg.flow) :=
      linked_place fun hm => hn (List.mem_singleton.1 hm).symm
    have hmem : g ∈ linked [name] ((c.register m).members.map SharedCfg.flow) :=
      List.mem_filterMap.2 ⟨name, List.mem_singleton_self name, hg⟩
    rw [show (c.register m).members = place m c.members from rfl, hplace] at hmem
    obtain ⟨name', hname', hg'⟩ := List.mem_filterMap.1 hmem
    obtain rfl := List.mem_singleton.1 hname'
    exact List.mem_filterMap.2 ⟨name', hlisted, hg'⟩

namespace Regular

theorem own_subset (h : c.Regular) : ∀ id ∈ c.own.nodeIds, id ∈ c.flow.nodeIds :=
  fun id hid => h.covers id (mem_nodeIds_relink.2 (.inl hid))

theorem register (h : c.Regular) {m : SharedCfg} (hfresh : c.find? m.qualifiedName = none) :
    (c.register m).Regular := by
  refine ⟨h.own.modifyNode (addName_id _) _, ?_, fun id hid => ?_⟩
  · exact made_foldl_link [m.flow] (h.flow.modifyNode (addName_id _) _)
  · rw [mem_nodeIds_register]
    rcases mem_nodeIds_relink.1 hid with hid | ⟨g, hg, hid⟩
    · change id ∈ (c.own.modifyNode _ _).nodeIds at hid
      rw [FlowGraph.nodeIds_modifyNode _ _ (addName_id _)] at hid
      exact .inl (h.own_subset id hid)
    · rcases mem_linked_register hfresh hg with rfl | hg
      · exact .inr hid
      · exact .inl (h.covers id (mem_nodeIds_relink.2 (.inr ⟨g, hg, hid⟩)))

theorem add (h : c.Regular) (m : SharedCfg) : (c.add m).2.Regular := by
  unfold ClassCfg.add
  split
  · split <;> exact h
  · next hfresh => exact h.register hfresh

theorem revised (h : c.Regular) (hr : c.Revised c') : c'.Regular := by
  have hown : c'.own.graph.Made := hr.own ▸ h.own
  rcases hr.flow with ⟨hflow, hflows⟩ | hflow
  · refine ⟨hown, hflow ▸ h.flow, fun id hid => ?_⟩
    rw [hflow]
    apply h.covers
    rw [mem_nodeIds_relink, hr.own, hr.memberNames_eq, hflows] at hid
    exact mem_nodeIds_relink.2 hid
  · have hrelink : c'.relink.flow = c'.flow := by
      rw [hflow, ← hr.own, ← hr.memberNames_eq]
      rfl
    refine ⟨hown, ?_, fun id hid => hrelink ▸ hid⟩
    rw [hflow, union_eq_foldl]
    exact made_foldl_link _ h.own

end Regular

end ClassCfg

namespace SharedCfg

def Regular : SharedCfg → Prop
  | .method _ cfg => cfg.flow.graph.Made
  | .classType _ cfg => cfg.Regular

theorem Regular.made {m : SharedCfg} (h : m.Regular) : m.flow.graph.Made := by
  cases m with
  | method => exact h
  | classType => exact ClassCfg.Regular.flow h

theorem lasting_regular : Lasting fun _ m => m.Regular := by
  refine ⟨fun _ h => h, ?_, ?_⟩
  · intro n ref cfg h
    exact Cfg.made_computeBlocks h
  · intro n ref cfg cfg' hr h
    exact ClassCfg.Regular.revised h hr

inductive Offered (known : Lookup) : SharedCfg → Prop where
  | shown {m} (h : m.ComesFrom known) : Offered known m
  | method (ref) {cfg : Cfg} (h : cfg.flow.graph.Made) : Offered known (.method ref cfg)
  | opened (ref) {flow : FlowGraph} (h : flow.graph.Made) :
      Offered known (.classType ref (.ofFlow flow))
  | add (ref') {ref cfg m} (hc : Offered known (.classType ref cfg)) (hm : Offered known m) :
      Offered known (.classType ref' (cfg.add m).2)

namespace Offered

variable {known : Lookup} {m : SharedCfg}

theorem regular (hknown : ∀ m : SharedCfg, m.ComesFrom known → m.Regular) (h : m.Offered known) :
    ∀ x ∈ descendantsOf [m], x.Regular := by
  induction h with
  | shown h =>
    intro x hx
    exact hknown x (h.inside hx)
  | method ref h =>
    intro x hx
    rw [mem_descendantsOf_method.1 hx]
    exact h
  | opened ref h =>
    intro x hx
    rcases mem_descendantsOf_classType.1 hx with rfl | hx
    · exact ClassCfg.Regular.ofFlow h
    · rw [ClassCfg.descendants_eq] at hx
      simp [ClassCfg.ofFlow] at hx
  | add ref' _ _ ihc ihm =>
    have hclass := ihc _ (mem_descendantsOf_classType.2 (.inl rfl))
    intro x hx
    rcases mem_descendantsOf_classType.1 hx with rfl | hx
    · exact ClassCfg.Regular.add hclass _
    · rcases ClassCfg.mem_descendants_add hx with hx | hx
      · exact ihm x hx
      · exact ihc x (mem_descendantsOf_classType.2 (.inr hx))

/-- What lies inside an object that was not shown as it is has no node that the object lacks. -/
theorem encloses (h : m.Offered known) :
    ∀ x ∈ m.descendants, x.ComesFrom known ∨ ∀ id ∈ x.flow.nodeIds, id ∈ m.flow.nodeIds := by
  induction h with
  | @shown m h =>
    intro x hx
    refine .inl (h.inside (mem_descendantsOf_cons.2 (.inr (.inl ?_))))
    rwa [← descendants_eq]
  | method ref h =>
    intro x hx
    rw [SharedCfg.descendants] at hx
    cases hx
  | opened ref h =>
    intro x hx
    rw [descendants_eq, inside_classType] at hx
    simp [ClassCfg.ofFlow] at hx
  | @add ref' ref cfg m hc hm ihc ihm =>
    rw [SharedCfg.descendants] at ihc ⊢
    cases hfind : cfg.find? m.qualifiedName with
    | some held =>
      have hadd : (cfg.add m).2 = cfg := by
        rw [ClassCfg.add, hfind]
        dsimp only
        split <;> rfl
      rw [hadd]
      exact ihc
    | none =>
      have hadd : (cfg.add m).2 = cfg.register m := by rw [ClassCfg.add, hfind]
      intro x hx
      -- linked on registration: all nodes of the class and all of the new member
      have hin : x.ComesFrom known ∨ ∀ id ∈ x.flow.nodeIds,
          id ∈ cfg.flow.nodeIds ∨ id ∈ m.flow.nodeIds := by
        rcases ClassCfg.mem_descendants_add hx with hx | hx
        · rcases mem_descendantsOf_cons.1 hx with rfl | hx | hx
          · exact .inr fun id hid => .inr hid
          · rw [← descendants_eq] at hx
            exact (ihm x hx).imp_right fun h id hid => .inr (h id hid)
          · cases hx
        · exact (ihc x hx).imp_right fun h id hid => .inl (h id hid)
      refine hin.imp_right fun h id hid => ?_
      change id ∈ (cfg.add m).2.flow.nodeIds
      rw [hadd, ClassCfg.mem_nodeIds_register]
      exact h id hid

end Offered

end SharedCfg

/-- The builder hands over at this request, if anything, what can be put together from graphs and
from the objects it is shown. -/
structure Builder.Offers (b : Builder) (s : Store) (d : Declaration) : Prop where
  method : d.kind ≠ .classType → ∀ cfg supply,
    (b.construct d).run.run s.supply = (.ok cfg, supply) → cfg.flow.graph.Made
  classType : d.kind = .classType → ∀ cfg supply,
    (b.buildClass d s.find?).run.run s.supply = (.ok cfg, supply) →
      ∃ ref, (SharedCfg.classType ref cfg).Offered s.find?

namespace Store

def Admits (s : Store) : Action → Prop
  | .request b d => b.Offers s d
  | .allocate | .resetIds | .destroy => True

def Regular (s : Store) : Prop := ∀ m : SharedCfg, m.ComesFrom s.find? → m.Regular

theorem Regular.settle {s : Store} (h : s.Regular) (hk : Lookup.Keyed s.find?)
    {built : ClassCfg} {ref : Ref} (hb : (SharedCfg.classType ref built).Offered s.find?)
    (supply : Supply) (ref' : Ref) :
    ∀ m ∈ SharedCfg.descendantsOf [.classType ref' (s.settle built supply)], m.Regular := by
  have hbuilt := hb.regular h
  intro m hm
  rcases SharedCfg.mem_descendantsOf_classType.1 hm with rfl | hm
  · have hclass := hbuilt _ (SharedCfg.mem_descendantsOf_classType.2 (.inl rfl))
    have hadopt := ClassCfg.Regular.revised hclass (built.adopt_revised hk supply)
    change (s.settle built supply).Regular
    unfold Store.settle
    split
    · exact hadopt.revised (ClassCfg.computeMemberBlocks_revised _ _)
    · exact hadopt
  · refine lasting_settle hk SharedCfg.lasting_regular ?_ ?_ m hm
    · exact fun name held hh x hx => h x ⟨name, held, hh, hx⟩
    · exact fun x hx => hbuilt x (SharedCfg.mem_descendantsOf_classType.2 (.inr hx))

theorem Served.regular {s : Store} {b : Builder} {d : Declaration} {reply : Reply}
    (hs : Served s b d reply) (hk : Lookup.Keyed s.find?) (h : s.Regular) (hb : b.Offers s d) :
    reply.store.Regular := by
  cases hs with
  | held | remembered | failed => exact h
  | builtMethod ref supply' hf hr hkind hbuilt hp =>
    have hmade := hb.method hkind _ _ hbuilt
    obtain ⟨-, hcfg, -⟩ := prepareMethod_eq_ok hp
    rintro m ⟨name, held, hh, hm⟩
    rcases held_of_keep hh with ⟨-, rfl⟩ | hh
    · rw [SharedCfg.mem_descendantsOf_method.1 hm, hcfg]
      change FlowGraph.graph (Cfg.flow _) |>.Made
      split
      · exact Cfg.made_computeBlocks hmade
      · exact hmade
    · exact h m ⟨name, held, hh, hm⟩
  | @builtClass built supply cfg events supply' ref supply'' hf hr hkind hbuilt hp =>
    obtain ⟨ref₀, hoffered⟩ := hb.classType hkind _ _ hbuilt
    obtain ⟨-, rfl, -⟩ := prepareClass_eq_ok hp
    have hnew := Regular.settle (s := { s with supply }) h hk hoffered supply ref
    rintro m ⟨name, held, hh, hm⟩
    rcases held_of_builtClass hh with ⟨-, rfl⟩ | hh | ⟨hin, -⟩
    · exact hnew m hm
    · exact h m ⟨name, held, hh, hm⟩
    · refine hnew m (SharedCfg.mem_descendantsOf_classType.2 (.inr ?_))
      rcases SharedCfg.mem_descendantsOf_cons.1 hm with rfl | hm | hm
      · exact hin
      · rw [← SharedCfg.descendants_eq] at hm
        exact ClassCfg.descendants_trans hin hm
      · cases hm

theorem Execution.regular {config : StoreConfig} {s : Store} {events : List Event}
    (h : Execution Admits { config } events s) : s.Regular := by
  have hempty : ∀ {t : Store}, (∀ name, t.find? name = none) → t.Regular := by
    rintro t hnone m ⟨name, held, hh, -⟩
    rw [hnone] at hh
    cases hh
  induction h with
  | nil => exact hempty fun _ => rfl
  | @snoc t events action hrun ha ih =>
    cases action with
    | request b d =>
      have hk := (hrun.consistent (initial_consistent config)).keyed
      exact (request_served t b d).regular hk ih ha
    | allocate => exact ih
    | resetIds | destroy => exact hempty fun _ => rfl

def plannedFrontEnd (plan : String → List (AssemblerOp NodeId)) : Builder where
  buildMethod d := fun supply =>
    let a := AssemblerOp.run (plan d.qualifiedName)
      (.method supply .method "f" "f()" d.qualifiedName "void")
    (.ok a.toCfg, a.supply)
  buildField d := fun supply =>
    let a := AssemblerOp.run (plan d.qualifiedName)
      (.field supply .field "x" d.qualifiedName)
    (.ok a.toCfg, a.supply)
  buildClass d _ := fun supply =>
    let name := d.qualifiedName ++ ".f"
    let c := Assembler.classType supply .classType "A" d.qualifiedName
    let a := AssemblerOp.run (plan name) (.method c.supply .method "f" "f()" name "void")
    let (ref, supply) := a.supply.newRef
    (.ok (c.toClass.add (.method ref a.toCfg)).2, supply)

theorem plannedFrontEnd_works (plan : String → List (AssemblerOp NodeId)) (s : Store)
    (d : Declaration) : (plannedFrontEnd plan).Works s d := by
  constructor
  · intro hk
    rcases d with ⟨kind, name⟩
    cases kind with
    | classType => exact absurd rfl hk
    | method => exact Workshop.yields_method ((Assembler.Reachable.opened (.method ..)).run _)
    | field => exact Workshop.yields_method ((Assembler.Reachable.opened (.field ..)).run _)
  · intro _
    exact Workshop.yields_class (.opened (.classType ..))
      ((Assembler.Reachable.opened (.method ..)).run _)

theorem plannedFrontEnd_offers (plan : String → List (AssemblerOp NodeId)) (s : Store)
    (d : Declaration) : (plannedFrontEnd plan).Offers s d := by
  constructor
  · intro hk cfg supply hbuilt
    rcases d with ⟨kind, name⟩
    cases kind with
    | classType => exact absurd rfl hk
    | method =>
      cases hbuilt
      exact ((Assembler.Reachable.opened (.method ..)).run _).made
    | field =>
      cases hbuilt
      exact ((Assembler.Reachable.opened (.field ..)).run _).made
  · intro _ cfg supply hbuilt
    cases hbuilt
    have hclass : Assembler.Reachable s.supply
        (.classType s.supply .classType "A" d.qualifiedName) := .opened (.classType ..)
    refine ⟨⟨0⟩, .add _ (.opened ⟨0⟩ hclass.made) (.method _ ?_)⟩
    exact ((Assembler.Reachable.opened (.method ..)).run _).made

end Store

end ProgramFlow
