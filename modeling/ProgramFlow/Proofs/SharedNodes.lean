import ProgramFlow.Proofs.IdSeparation
import ProgramFlow.Session

/-! A node is the same wherever it is seen. A class holds copies of the nodes of its members, and
members are replaced and get blocks after they have been copied; still every graph of a store that
has a node has the same node, and a link that is set through one of them is read through all. -/
namespace ProgramFlow

theorem Links.get?_set (l : Links) (key other : LinkId) (pdg : PdgNode) :
    (l.set key pdg).2.get? other =
      (l.get? other).or (if key = other then some pdg else none) := by
  unfold Links.set
  split
  · next hk =>
    split
    · next h =>
      rw [← h, hk]
      rfl
    · exact Option.or_none.symm
  · next hk =>
    by_cases h : key = other
    · subst h
      rw [hk]
      simp [Links.get?]
    · have hne : (other == key) = false := beq_false_of_ne (Ne.symm h)
      simp [Links.get?, List.lookup_cons, hne, h]

structure LinkCall where
  graph : FlowGraph
  id : NodeId
  pdg : PdgNode

namespace Session

def link? (t : Session) (g : FlowGraph) (id : NodeId) : Option PdgNode :=
  (g.node? id).bind fun n => t.links.get? n.link

def setLinks (t : Session) (calls : List LinkCall) : Session :=
  calls.foldl (fun t c => (t.setLink c.graph c.id c.pdg).2) t

end Session

def LinkCall.value? (id : NodeId) (c : LinkCall) : Option PdgNode :=
  if c.id = id ∧ c.graph.contains id = true then some c.pdg else none

namespace FlowGraph

def LinksAgree (g h : FlowGraph) : Prop :=
  ∀ {id id' n n'}, g.node? id = some n → h.node? id' = some n' → (id = id' ↔ n.link = n'.link)

end FlowGraph

namespace Session

variable {g : FlowGraph} {id : NodeId}

theorem link?_setLink (t : Session) {c : LinkCall} (hc : c.graph.LinksAgree g)
    (hid : id ∈ g.nodeIds) :
    (t.setLink c.graph c.id c.pdg).2.link? g id = (t.link? g id).or (c.value? id) := by
  obtain ⟨n, hn⟩ := FlowGraph.exists_node?.2 hid
  unfold setLink
  split
  · next hnone =>
    have hvalue : c.value? id = none := by
      refine if_neg ?_
      rintro ⟨rfl, hin⟩
      rw [FlowGraph.contains_iff, ← FlowGraph.exists_node?, hnone] at hin
      obtain ⟨_, hin⟩ := hin
      cases hin
    rw [hvalue, Option.or_none]
  · next m hm =>
    have hvalue : c.value? id = if m.link = n.link then some c.pdg else none := by
      unfold LinkCall.value?
      by_cases heq : c.id = id
      · have hin : c.graph.contains id = true := by
          rw [FlowGraph.contains_iff, ← FlowGraph.exists_node?, ← heq]
          exact ⟨m, hm⟩
        rw [if_pos ⟨heq, hin⟩, if_pos ((hc hm hn).1 heq)]
      · rw [if_neg fun h => heq h.1, if_neg fun h => heq ((hc hm hn).2 h)]
    simp only [link?, hn, Option.bind_some, hvalue]
    exact Links.get?_set ..

/-- A node reads back the first value that was set for it, through whatever graph. -/
theorem link?_setLinks (t : Session) {calls : List LinkCall}
    (hc : ∀ c ∈ calls, c.graph.LinksAgree g) (hid : id ∈ g.nodeIds) :
    (t.setLinks calls).link? g id =
      (t.link? g id).or (calls.findSome? (LinkCall.value? id)) := by
  induction calls generalizing t with
  | nil => exact Option.or_none.symm
  | cons c rest ih =>
    obtain ⟨hfirst, hrest⟩ := List.forall_mem_cons.1 hc
    change ((t.setLink c.graph c.id c.pdg).2.setLinks rest).link? g id = _
    rw [ih _ hrest, link?_setLink t hfirst hid, Option.or_assoc, List.findSome?_cons]
    cases c.value? id <;> rfl

end Session

theorem ClassCfg.Coherent.mem_nodeIds {c : ClassCfg} (h : c.Coherent) {m : SharedCfg}
    (hm : m ∈ c.members) {id : NodeId} (hid : id ∈ m.flow.nodeIds) : id ∈ c.flow.nodeIds := by
  rw [h.flow_eq, mem_nodeIds_foldl_link]
  exact .inr ⟨m.flow, h.mem_linked hm, hid⟩

namespace SharedCfg

theorem mem_nodeIds_of_inside {forest : List SharedCfg}
    (h : ∀ x ∈ descendantsOf forest, x.Holds ClassCfg.Coherent) {x : SharedCfg} (hx : x ∈ forest)
    {m : SharedCfg} (hm : m ∈ descendantsOf [x]) {id : NodeId} (hid : id ∈ m.flow.nodeIds) :
    id ∈ x.flow.nodeIds := by
  induction forest using forest_induction generalizing x with
  | nil => cases hx
  | cons head rest ihi ihr =>
    simp only [descendantsOf_cons, List.forall_mem_cons, List.forall_mem_append] at h
    obtain ⟨hhead, hin, hrest⟩ := h
    rcases List.mem_cons.1 hx with rfl | hx
    · cases x with
      | method ref cfg =>
        obtain rfl := mem_descendantsOf_method.1 hm
        exact hid
      | classType ref cfg =>
        rcases mem_descendantsOf_classType.1 hm with rfl | hm
        · exact hid
        · rw [ClassCfg.descendants_eq, mem_descendantsOf] at hm
          obtain ⟨y, hy, hm⟩ := hm
          exact (hhead ref cfg rfl).mem_nodeIds hy (ihi hin hy hm)
    · exact ihr hrest hx hm

end SharedCfg

def Builder.NamesApart (b : Builder) (s : Store) (d : Declaration) : Prop :=
  d.kind = .classType → ∀ cfg supply,
    (b.buildClass d s.find?).run.run s.supply = (.ok cfg, supply) →
      (cfg.qualifiedName :: cfg.descendants.map SharedCfg.qualifiedName).Nodup

namespace Store

variable {s : Store} {os : List Origin}

theorem find?_of_comesFrom (hs : s.SharesMembers) {m : SharedCfg} (h : m.ComesFrom s.find?) :
    s.find? m.qualifiedName = some m := by
  obtain ⟨name, held, hh, hm⟩ := h
  refine Lookup.known_self hs.keyed hs.closed hh ?_
  rw [SharedCfg.mem_descendantsOf_cons, ← SharedCfg.descendants_eq] at hm
  simpa using hm

/-- An object with the identity of a held one was not made for the occasion, so it is held. -/
theorem serves_of_works (hs : s.SharesMembers) (ht : s.Traced os) {b : Builder} {d : Declaration}
    (hb : b.Works s d) (hn : b.NamesApart s d) : b.Serves s d := by
  constructor
  · intro hk cfg supply hr
    obtain ⟨os', -, hmade⟩ := ht.constructed hb hk hr
    exact (hmade cfg rfl).assembled
  · intro hk cfg supply hr
    obtain ⟨os', -, hmade⟩ := ht.builtClass hb hk hr
    obtain ⟨-, husable⟩ := hmade cfg rfl
    refine ⟨hn hk cfg supply hr, ?_, ?_⟩
    · intro ref c hc
      exact .inr (Cfg.Genuine.assembled (husable _ hc).genuine)
    · intro m hm held hh hsame
      have hlt := (ht.genuine held (comesFrom_of_held hh)).2
      have href : held.ref = m.ref := by
        simp only [SharedCfg.same, Bool.and_eq_true, decide_eq_true_eq] at hsame
        exact hsame.1
      rcases (husable m hm).shown with hshown | hnew
      · rw [find?_of_comesFrom hs hshown] at hh
        exact (Option.some.inj hh).symm
      · rw [href] at hlt
        exact absurd hnew (Nat.not_le_of_lt hlt)

/-- Builders work with what they make and are shown, and do not use a name twice in a class. -/
def EmploysApart (s : Store) : Action → Prop
  | .request b d => b.Works s d ∧ b.NamesApart s d
  | .allocate | .resetIds | .destroy => True

theorem act_apart (hs : s.SharesMembers) (ht : s.Traced os) {a : Action}
    (ha : s.EmploysApart a) : (s.act a).1.SharesMembers ∧ ∃ os', (s.act a).1.Traced os' := by
  cases a with
  | request b d =>
    have htrusts : s.Trusts (.request b d) := serves_of_works hs ht ha.1 ha.2
    exact ⟨act_sharesMembers hs htrusts, act_traced ht ha.1⟩
  | allocate => exact ⟨act_sharesMembers hs trivial, act_traced ht trivial⟩
  | resetIds => exact ⟨act_sharesMembers hs trivial, act_traced ht trivial⟩
  | destroy => exact ⟨act_sharesMembers hs trivial, act_traced ht trivial⟩

theorem Execution.apart {config : StoreConfig} {events : List Event}
    (h : Execution EmploysApart { config } events s) :
    s.SharesMembers ∧ ∃ os, s.Traced os := by
  induction h with
  | nil =>
    exact ⟨sharesMembers_of_empty fun _ => rfl, [], .of_empty (fun _ => rfl) (Nat.le_refl _)⟩
  | snoc _ ha ih =>
    obtain ⟨hs, os, ht⟩ := ih
    exact act_apart hs ht ha

/-- A node that two graphs of the store show was assembled in one object, so it is one node. -/
theorem node?_eq_of_shown (hs : s.SharesMembers) (ht : s.Traced os) {x y : SharedCfg}
    (hx : x.ComesFrom s.find?) (hy : y.ComesFrom s.find?) {id : NodeId} {n n' : Node}
    (hn : x.flow.node? id = some n) (hn' : y.flow.node? id = some n') : n = n' := by
  obtain ⟨d, o, hd⟩ := ht.exists_source hx hn
  obtain ⟨d', o', hd'⟩ := ht.exists_source hy hn'
  obtain rfl := ht.separate.origin_eq hd.origin hd'.origin hd.mem_identities hd'.mem_identities
    (.inl rfl)
  have hname : d.qualifiedName = d'.qualifiedName := by
    rw [← d.core_qualifiedName, ← d'.core_qualifiedName, hd.stems.name, hd'.stems.name]
  have hheld := find?_of_comesFrom hs (hx.inside hd.inside)
  have hheld' := find?_of_comesFrom hs (hy.inside hd'.inside)
  rw [hname, hheld'] at hheld
  obtain rfl := Option.some.inj hheld
  exact Option.some.inj (hd.node.symm.trans hd'.node)

theorem linksAgree_of_shown (ht : s.Traced os) {x y : SharedCfg} (hx : x.ComesFrom s.find?)
    (hy : y.ComesFrom s.find?) : x.flow.LinksAgree y.flow := by
  intro id id' n n' hn hn'
  obtain ⟨d, o, hd⟩ := ht.exists_source hx hn
  obtain ⟨d', o', hd'⟩ := ht.exists_source hy hn'
  exact ht.separate.id_eq_iff_link_eq hd.origin hd'.origin hd.mem_identities hd'.mem_identities

/-- What a held class shows of a member, at any depth, is what the member shows; and a node that is
linked through one graph is linked in all, with the first value. The class and those inside it must
have been opened as classes, for the entry of a class is where the members are listed. -/
theorem nodes_agree_in_classes {config : StoreConfig} {events : List Event}
    (h : Execution EmploysApart { config } events s) :
    (∀ name ref cfg, s.find? name = some (.classType ref cfg) →
      (∀ x ∈ SharedCfg.descendantsOf [.classType ref cfg],
        x.Holds fun c => c.own.classEntry?.isSome = true) →
      ∀ m ∈ cfg.descendants, ∀ id ∈ m.flow.nodeIds,
        ∃ n, cfg.flow.node? id = some n ∧ m.flow.node? id = some n) ∧
    ∀ (t : Session) (calls : List LinkCall),
      (∀ c ∈ calls, ∃ x : SharedCfg, x.ComesFrom s.find? ∧ c.graph = x.flow) →
      ∀ x : SharedCfg, x.ComesFrom s.find? → ∀ id ∈ x.flow.nodeIds,
        (t.setLinks calls).link? x.flow id =
          (t.link? x.flow id).or (calls.findSome? (LinkCall.value? id)) := by
  obtain ⟨hs, os, ht⟩ := h.apart
  constructor
  · intro name ref cfg hh hopened m hm id hid
    have hclass := comesFrom_of_held hh
    have hin : m ∈ SharedCfg.descendantsOf [.classType ref cfg] :=
      SharedCfg.mem_descendantsOf_classType.2 (.inr hm)
    have hcoherent : ∀ x ∈ SharedCfg.descendantsOf [.classType ref cfg],
        x.Holds ClassCfg.Coherent := by
      intro x hx ref' cfg' heq
      have hwoven := (ht.genuine x (hclass.inside hx)).1.woven ref' cfg' heq
      exact hwoven.coherent (hopened x hx ref' cfg' heq)
    have hid' : id ∈ (SharedCfg.classType ref cfg).flow.nodeIds :=
      SharedCfg.mem_nodeIds_of_inside hcoherent (List.mem_singleton.2 rfl) hin hid
    obtain ⟨n, hn⟩ := FlowGraph.exists_node?.2 hid'
    obtain ⟨n', hn'⟩ := FlowGraph.exists_node?.2 hid
    obtain rfl := node?_eq_of_shown hs ht hclass (hclass.inside hin) hn hn'
    exact ⟨n, hn, hn'⟩
  · intro t calls hcalls x hx id hid
    refine Session.link?_setLinks t (fun c hc => ?_) hid
    obtain ⟨y, hy, hgraph⟩ := hcalls c hc
    rw [hgraph]
    exact linksAgree_of_shown ht hy hx

def methodEntryFrontEnd : Builder where
  buildMethod := smallFrontEnd.buildMethod
  buildField := smallFrontEnd.buildField
  buildClass d _ := fun supply =>
    let c := Assembler.method supply .method "A" "A()" d.qualifiedName "void"
    let a := Assembler.method c.supply .method "f" "f()" (d.qualifiedName ++ ".f") "void"
    let (ref, supply) := a.supply.newRef
    (.ok (c.toClass.add (.method ref a.toCfg)).2, supply)

/-- Without the entry of a class no members are listed, and the rebuild after the blocks of `f` have
been computed leaves `f` out. -/
theorem class_with_method_entry_loses_nodes :
    ∃ events s cfg m, Execution EmploysApart { config := {} } events s ∧
      s.classType? "A" = some cfg ∧ m ∈ cfg.descendants ∧ 3 ∈ m.flow.nodeIds ∧
      cfg.flow.node? 3 = none := by
  let s : Store := { config := {} }
  let t := (s.request methodEntryFrontEnd ⟨.classType, "A"⟩).store
  have hworks : methodEntryFrontEnd.Works s ⟨.classType, "A"⟩ :=
    ⟨fun hk => absurd rfl hk, fun _ =>
      Workshop.yields_class (.opened (.method ..)) (.opened (.method ..))⟩
  have hnames : methodEntryFrontEnd.NamesApart s ⟨.classType, "A"⟩ := by
    intro _ cfg supply hb
    cases hb
    decide
  have h₀ : Execution EmploysApart s [] s := .nil s
  have h : Execution EmploysApart s _ t := h₀.request ⟨hworks, hnames⟩
  have hclass : (t.classType? "A").map (fun cfg =>
      (cfg.descendants.map fun m => m.flow.nodeIds, cfg.flow.node? 3)) = some ([[3, 4]], none) := by
    decide +kernel
  obtain ⟨cfg, hcfg, hshown⟩ := Option.map_eq_some_iff.1 hclass
  obtain ⟨hids, hnode⟩ := Prod.mk.inj hshown
  obtain ⟨m, hm, hmids⟩ : ∃ m ∈ cfg.descendants, m.flow.nodeIds = [3, 4] := by
    rw [← List.mem_map, hids]
    exact List.mem_cons_self
  exact ⟨_, t, cfg, m, h, hcfg, hm, by rw [hmids]; decide, hnode⟩

/-- The entry of `f` is shown by the class of `f` as well. It is linked through the method and then,
to another node, through the class; both read the first link. -/
theorem nodes_agree_in_classes_after_links :
    ∃ events s cfg f, Execution EmploysApart { config := {} } events s ∧
      s.classType? "A" = some cfg ∧ s.method? "A.f" = some f ∧
      (∃ n, cfg.flow.node? 3 = some n ∧ f.flow.node? 3 = some n ∧ n.block = some ⟨0⟩) ∧
      let t := ({} : Session).setLinks [⟨f.flow, 3, ⟨7⟩⟩, ⟨cfg.flow, 3, ⟨8⟩⟩, ⟨cfg.flow, 1, ⟨9⟩⟩]
      t.link? cfg.flow 3 = some ⟨7⟩ ∧ t.link? f.flow 3 = some ⟨7⟩ := by
  let s : Store := { config := {} }
  let t := (s.request smallFrontEnd ⟨.classType, "A"⟩).store
  have hnames : smallFrontEnd.NamesApart s ⟨.classType, "A"⟩ := by
    intro _ cfg supply hb
    cases hb
    decide
  have h₀ : Execution EmploysApart s [] s := .nil s
  have h : Execution EmploysApart s _ t := h₀.request ⟨smallFrontEnd_works s _, hnames⟩
  obtain ⟨hnodes, hlinks⟩ := nodes_agree_in_classes h
  have hclass : (t.classType? "A").map (fun cfg => (cfg.own.classEntry?.isSome,
      cfg.descendants.map fun m => (m.qualifiedName, m.isClass))) =
        some (true, [("A.f", false)]) := by
    decide +kernel
  have hmethod : (t.method? "A.f").map (fun f => (f.flow.nodeIds,
      (f.flow.node? 3).map Node.block)) = some ([3, 4], some (some ⟨0⟩)) := by
    decide +kernel
  obtain ⟨cfg, hcfg, hshown⟩ := Option.map_eq_some_iff.1 hclass
  obtain ⟨f, hf, hfshown⟩ := Option.map_eq_some_iff.1 hmethod
  obtain ⟨hentry, hmembers⟩ := Prod.mk.inj hshown
  obtain ⟨hids, hblock⟩ := Prod.mk.inj hfshown
  obtain ⟨ref, hh⟩ := classType?_eq_some hcfg
  obtain ⟨ref', hh'⟩ := method?_eq_some hf
  have hopened : ∀ x ∈ SharedCfg.descendantsOf [.classType ref cfg],
      x.Holds fun c => c.own.classEntry?.isSome = true := by
    rintro x hx ref₁ cfg₁ rfl
    rcases SharedCfg.mem_descendantsOf_classType.1 hx with heq | hx
    · cases heq
      exact hentry
    · have hin := List.mem_map_of_mem (f := fun m => (m.qualifiedName, m.isClass)) hx
      rw [hmembers] at hin
      simp [SharedCfg.isClass, SharedCfg.classType?] at hin
  have hf3 : 3 ∈ f.flow.nodeIds := by
    rw [hids]
    decide
  obtain ⟨m, hm, hname⟩ : ∃ m ∈ cfg.descendants, m.qualifiedName = "A.f" := by
    have hin : ("A.f", false) ∈ cfg.descendants.map fun m => (m.qualifiedName, m.isClass) := by
      rw [hmembers]
      exact List.mem_cons_self
    obtain ⟨m, hm, heq⟩ := List.mem_map.1 hin
    exact ⟨m, hm, congrArg Prod.fst heq⟩
  have hfrom := comesFrom_of_held hh
  have hheld := find?_of_comesFrom h.apart.1
    (hfrom.inside (SharedCfg.mem_descendantsOf_classType.2 (.inr hm)))
  rw [hname, hh'] at hheld
  obtain rfl := Option.some.inj hheld
  obtain ⟨n, hn, hn'⟩ := hnodes "A" ref cfg hh hopened _ hm 3 hf3
  have hcalls : ∀ c ∈ ([⟨f.flow, 3, ⟨7⟩⟩, ⟨cfg.flow, 3, ⟨8⟩⟩, ⟨cfg.flow, 1, ⟨9⟩⟩] : List LinkCall),
      ∃ x : SharedCfg, x.ComesFrom t.find? ∧ c.graph = x.flow := by
    simp only [List.forall_mem_cons]
    exact ⟨⟨_, comesFrom_of_held hh', rfl⟩, ⟨_, hfrom, rfl⟩, ⟨_, hfrom, rfl⟩, by simp⟩
  have hfirst : LinkCall.value? 3 ⟨f.flow, 3, ⟨7⟩⟩ = some ⟨7⟩ :=
    if_pos ⟨rfl, FlowGraph.contains_iff.2 hf3⟩
  have hempty : ∀ g : FlowGraph, ({} : Session).link? g 3 = none := by
    intro g
    unfold Session.link?
    cases g.node? 3 <;> rfl
  have hread := hlinks {} _ hcalls
  refine ⟨_, t, cfg, f, h, hcfg, hf, ⟨n, hn, hn', ?_⟩, ?_, ?_⟩
  · have hn'' : f.flow.node? 3 = some n := hn'
    rw [hn''] at hblock
    exact Option.some.inj hblock
  · refine (hread _ hfrom 3 (FlowGraph.exists_node?.1 ⟨n, hn⟩)).trans ?_
    rw [hempty, Option.none_or, List.findSome?_cons, hfirst]
  · refine (hread _ (comesFrom_of_held hh') 3 hf3).trans ?_
    rw [hempty, Option.none_or, List.findSome?_cons, hfirst]

end Store

end ProgramFlow
