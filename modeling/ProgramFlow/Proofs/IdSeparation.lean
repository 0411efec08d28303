import ProgramFlow.Proofs.SharedMembers
import ProgramFlow.Proofs.Workshop

/-! Node identities are unique within a session. Whatever a store holds comes from assemblies that
had no identity in common, so two graphs share one only where the one has the other inside it. -/
namespace ProgramFlow

namespace Store

def settleSupply (s : Store) (cfg : ClassCfg) (supply : Supply) : Supply :=
  let adopted := cfg.adopt s.find? supply
  if s.config.computeBasicBlocks then (adopted.2.1.computeMemberBlocks adopted.2.2).2.2
  else adopted.2.2

theorem prepareClass_supply {s : Store} {d : Declaration} {built cfg : ClassCfg}
    {events : List Event} {supply supply' : Supply}
    (h : s.prepareClass d built supply = .ok (cfg, events, supply')) :
    supply' = s.settleSupply built supply := by
  simp only [prepareClass, bind, Except.bind] at h
  split at h
  · cases h
  · split at h
    · cases h
    · split at h
      · next hb =>
        cases h
        simp only [settleSupply, hb, if_true]
      · next hb =>
        cases h
        simp only [settleSupply, hb]
        rfl

section Settling

variable {s : Store} (hk : Lookup.Keyed s.find?) {built : ClassCfg} {supply : Supply}

theorem settleSupply_onlyRefs : supply.OnlyRefs (s.settleSupply built supply) := by
  have hadopt : supply.OnlyRefs (built.adopt s.find? supply).2.2 := by
    rw [ClassCfg.adopt_eq]
    exact (SharedCfg.adoptAll_replaces ..).onlyRefs
  simp only [settleSupply]
  split
  · refine hadopt.trans ?_
    rw [ClassCfg.computeMemberBlocks_eq]
    exact (SharedCfg.computeAllBlocks_replaces s.find? _ _).onlyRefs
  · exact hadopt

include hk

theorem genuine_settle {os : List Origin} (h : built.Genuine os) :
    (s.settle built supply).Genuine os := by
  have hadopt := h.revised (built.adopt_revised hk supply)
  unfold settle
  split
  · exact hadopt.revised (ClassCfg.computeMemberBlocks_revised _ _)
  · exact hadopt

theorem lasting_settle {Q : Nat → SharedCfg → Prop} (hQ : SharedCfg.Lasting Q)
    (hknown : ∀ name held, s.find? name = some held →
      ∀ m ∈ SharedCfg.descendantsOf [held], Q supply.nextRef m)
    (hb : ∀ m ∈ built.descendants, Q supply.nextRef m) :
    ∀ m ∈ (s.settle built supply).descendants, Q (s.settleSupply built supply).nextRef m := by
  have hadopt := hQ.adopt hk hknown hb
  unfold settle settleSupply
  split
  · exact hQ.computeMemberBlocks hadopt
  · exact hadopt

end Settling

/-- Whatever is held comes from one of the assemblies, and has an identity that was handed out. -/
structure Traced (os : List Origin) (s : Store) : Prop where
  keyed : Lookup.Keyed s.find?
  separate : Origin.Separate os s.supply
  genuine : ∀ m : SharedCfg, m.ComesFrom s.find? → m.Genuine os ∧ m.ref.val < s.supply.nextRef

namespace Traced

variable {os os' : List Origin} {s : Store}

theorem of_empty (h : ∀ name, s.find? name = none) (hs : 1 ≤ s.supply.ids.next) :
    s.Traced [] := by
  refine ⟨?_, .nil hs, ?_⟩
  · intro name held hh
    rw [h] at hh
    cases hh
  · rintro m ⟨name, held, hh, -⟩
    rw [h] at hh
    cases hh

/-- More is assembled and taken from the supply, but nothing else is held. -/
theorem spend (h : s.Traced os) {supply : Supply} (hos : ∀ o ∈ os, o ∈ os')
    (hs : Origin.Separate os' supply) (hr : s.supply.nextRef ≤ supply.nextRef) :
    { s with supply }.Traced os' := by
  refine ⟨h.keyed, hs, fun m hm => ?_⟩
  obtain ⟨hg, hlt⟩ := h.genuine m hm
  exact ⟨hg.mono hos, Nat.lt_of_lt_of_le hlt hr⟩

theorem spendRefs (h : s.Traced os) {supply : Supply} (hs : s.supply.OnlyRefs supply) :
    { s with supply }.Traced os := by
  refine h.spend (fun _ ho => ho) (h.separate.mono ?_ ?_) hs.refs
  · rw [hs.ids]
  · exact hs.links.ge

theorem keep (h : s.Traced os) {name : String} {new : SharedCfg} (hname : new.qualifiedName = name)
    (hnew : ∀ m ∈ SharedCfg.descendantsOf [new], m.Genuine os ∧ m.ref.val < s.supply.nextRef)
    (events : List Event) : (s.keep name new events).store.Traced os := by
  refine ⟨?_, h.separate, ?_⟩
  · intro other held hh
    rcases held_of_keep hh with ⟨rfl, rfl⟩ | hh
    · exact hname
    · exact h.keyed other held hh
  · rintro m ⟨other, held, hh, hm⟩
    rcases held_of_keep hh with ⟨-, rfl⟩ | hh
    · exact hnew m hm
    · exact h.genuine m ⟨other, held, hh, hm⟩

theorem registerMember (h : s.Traced os) {x : SharedCfg}
    (hx : ∀ m ∈ SharedCfg.descendantsOf [x], m.Genuine os ∧ m.ref.val < s.supply.nextRef) :
    (s.registerMember x).Traced os ∧ (s.registerMember x).supply = s.supply := by
  unfold Store.registerMember
  split
  · exact ⟨h, rfl⟩
  · have hk := h.keep rfl hx []
    exact ⟨⟨hk.keyed, hk.separate, hk.genuine⟩, rfl⟩

theorem registerMembers (h : s.Traced os) {cfg : ClassCfg}
    (hc : ∀ m ∈ cfg.descendants, m.Genuine os ∧ m.ref.val < s.supply.nextRef) :
    (s.registerMembers cfg).Traced os ∧ (s.registerMembers cfg).supply = s.supply := by
  have hdeep : ∀ x ∈ cfg.descendants, ∀ m ∈ SharedCfg.descendantsOf [x],
      m.Genuine os ∧ m.ref.val < s.supply.nextRef := by
    intro x hx m hm
    rw [SharedCfg.mem_descendantsOf_cons, SharedCfg.descendantsOf_nil, ← SharedCfg.descendants_eq]
      at hm
    rcases hm with rfl | hm | hm
    · exact hc m hx
    · exact hc m (ClassCfg.descendants_trans hx hm)
    · cases hm
  unfold Store.registerMembers
  revert hdeep
  generalize cfg.descendants = forest
  intro hdeep
  induction forest generalizing s with
  | nil => exact ⟨h, rfl⟩
  | cons x rest ih =>
    obtain ⟨hx, hrest⟩ := List.forall_mem_cons.1 hdeep
    obtain ⟨hreg, hsupply⟩ := h.registerMember hx
    rw [List.foldl_cons]
    have := ih hreg (by rw [hsupply]; exact hc) (by rw [hsupply]; exact hrest)
    exact ⟨this.1, this.2.trans hsupply⟩

theorem workshop (h : s.Traced os) :
    ({ supply := s.supply } : Workshop).Sound s.find? s.supply.nextRef os := by
  refine ⟨h.separate, Nat.le_refl _, h.genuine, ?_, ?_, ?_⟩ <;> simp

theorem closedWorkshop (h : s.Traced os) :
    ({ supply := s.supply } : Workshop).Sound (fun _ => none) s.supply.nextRef os := by
  refine ⟨h.separate, Nat.le_refl _, ?_, ?_, ?_, ?_⟩
  · rintro m ⟨name, held, hnone, -⟩
    cases hnone
  all_goals simp

theorem constructed (h : s.Traced os) {b : Builder} {d : Declaration} (hb : b.Works s d)
    (hk : d.kind ≠ .classType) {result : Except CfgError Cfg} {supply : Supply}
    (hr : (b.construct d).run.run s.supply = (result, supply)) :
    ∃ os', { s with supply }.Traced os' ∧ ∀ cfg, result = .ok cfg → cfg.Genuine os' := by
  obtain ⟨w, os', hos, hw, hsupply, hmade⟩ := (hb.method hk).sound h.closedWorkshop
  rw [hr] at hsupply hmade
  obtain rfl := hsupply
  exact ⟨os', h.spend hos hw.separate hw.refs, fun cfg hcfg => hw.methods cfg (hmade cfg hcfg)⟩

theorem builtClass (h : s.Traced os) {b : Builder} {d : Declaration} (hb : b.Works s d)
    (hk : d.kind = .classType) {result : Except CfgError ClassCfg} {supply : Supply}
    (hr : (b.buildClass d s.find?).run.run s.supply = (result, supply)) :
    ∃ os', { s with supply }.Traced os' ∧ ∀ cfg, result = .ok cfg → cfg.Genuine os' ∧
      ∀ m ∈ cfg.descendants, m.Usable s.find? s.supply.nextRef os' supply.nextRef := by
  obtain ⟨w, os', hos, hw, hsupply, hmade⟩ := (hb.classType hk).sound h.workshop
  rw [hr] at hsupply hmade
  obtain rfl := hsupply
  exact ⟨os', h.spend hos hw.separate hw.refs, fun cfg hcfg => hw.classes cfg (hmade cfg hcfg)⟩

end Traced

theorem Served.traced {s : Store} {b : Builder} {d : Declaration} {reply : Reply}
    {os : List Origin} (hs : Served s b d reply) (h : s.Traced os) (hb : b.Works s d) :
    ∃ os', reply.store.Traced os' := by
  cases hs with
  | held | remembered => exact ⟨os, h⟩
  | failed supply e hf hr hspent =>
    obtain ⟨os', ht⟩ : ∃ os', { s with supply }.Traced os' := by
      rcases hspent with ⟨hk, rfl⟩ | ⟨hk, rfl⟩
      · obtain ⟨os', ht, -⟩ := h.constructed hb hk rfl
        exact ⟨os', ht⟩
      · obtain ⟨os', ht, -⟩ := h.builtClass hb hk rfl
        exact ⟨os', ht⟩
    exact ⟨os', ht.keyed, ht.separate, ht.genuine⟩
  | @builtMethod built supply cfg events ref supply' hf hr hk hbuilt hp hn =>
    obtain ⟨os', ht, hmade⟩ := h.constructed hb hk hbuilt
    obtain ⟨hname, hcfg, -⟩ := prepareMethod_eq_ok hp
    have hcfg : cfg.Genuine os' ∧ (SharedCfg.method ref cfg).qualifiedName = d.qualifiedName := by
      rw [hcfg, ← hname]
      split
      · exact ⟨(hmade built rfl).computeBlocks, rfl⟩
      · exact ⟨hmade built rfl, rfl⟩
    cases hn
    refine ⟨os', (ht.spendRefs (.newRef supply)).keep hcfg.2 (fun m hm => ?_) _⟩
    obtain rfl := SharedCfg.mem_descendantsOf_method.1 hm
    exact ⟨hcfg.1, Nat.lt_succ_self _⟩
  | @builtClass built supply cfg events supply' ref supply'' hf hr hk hbuilt hp hn =>
    obtain ⟨os', ht, hmade⟩ := h.builtClass hb hk hbuilt
    obtain ⟨hgenuine, husable⟩ := hmade built rfl
    obtain ⟨hname, rfl, -⟩ := prepareClass_eq_ok hp
    obtain rfl := prepareClass_supply hp
    cases hn
    let t : Store := { s with supply }
    have hrefs : supply.OnlyRefs (t.settleSupply built supply) := settleSupply_onlyRefs
    have hnew : supply.OnlyRefs (t.settleSupply built supply).newRef.2 :=
      hrefs.trans (.newRef _)
    have hdeep := lasting_settle ht.keyed (SharedCfg.lasting_genuine os')
      (fun name held hh m hm => ht.genuine m ⟨name, held, hh, hm⟩)
      fun m hm => ⟨(husable m hm).genuine, (husable m hm).ref⟩
    obtain ⟨hreg, hsupply⟩ := (ht.spendRefs hnew).registerMembers fun m hm =>
      ⟨(hdeep m hm).1, Nat.lt_succ_of_lt (hdeep m hm).2⟩
    refine ⟨os', hreg.keep ?_ (fun m hm => ?_) _⟩
    · rw [← hname]
      exact qualifiedName_settle ..
    · rw [hsupply]
      rcases SharedCfg.mem_descendantsOf_classType.1 hm with rfl | hm
      · exact ⟨genuine_settle ht.keyed hgenuine, Nat.lt_succ_self _⟩
      · exact ⟨(hdeep m hm).1, Nat.lt_succ_of_lt (hdeep m hm).2⟩

def Employs (s : Store) : Action → Prop
  | .request b d => b.Works s d
  | .allocate | .resetIds | .destroy => True

theorem act_traced {s : Store} {os : List Origin} (h : s.Traced os) {a : Action}
    (ha : s.Employs a) : ∃ os', (s.act a).1.Traced os' := by
  cases a with
  | request b d => exact (request_served s b d).traced h ha
  | allocate =>
    have hs : Origin.Separate os s.supply.newId.2 :=
      h.separate.mono (Nat.le_succ _) (Nat.le_refl _)
    exact ⟨os, h.spend (fun _ ho => ho) hs (Nat.le_refl _)⟩
  | resetIds | destroy => exact ⟨[], .of_empty (fun _ => rfl) (Nat.le_refl _)⟩

theorem Execution.traced {s t : Store} {events : List Event} (h : Execution Employs s events t)
    {os : List Origin} (hs : s.Traced os) : ∃ os', t.Traced os' := by
  induction h with
  | nil => exact ⟨os, hs⟩
  | snoc _ ha ih =>
    obtain ⟨os', ht⟩ := ih
    exact act_traced ht ha

theorem Execution.traced_of_start {config : StoreConfig} {s : Store} {events : List Event}
    (h : Execution Employs { config } events s) : ∃ os, s.Traced os :=
  h.traced (.of_empty (fun _ => rfl) (Nat.le_refl _))

structure Source (os : List Origin) (m : SharedCfg) (id : NodeId) (n : Node) (d : SharedCfg)
    (o : Origin) : Prop where
  inside : d ∈ SharedCfg.descendantsOf [m]
  origin : o ∈ os
  form : o.isClass = d.isClass
  stems : d.core.StemsFrom o
  node : d.core.node? id = some n
  contained : ∀ x ∈ d.core.nodeIds, x ∈ m.flow.nodeIds

theorem Source.mem_identities {os : List Origin} {m d : SharedCfg} {id : NodeId} {n : Node}
    {o : Origin} (h : Source os m id n d o) : (id, n.link) ∈ o.identities :=
  h.stems.mem_identities h.node

theorem Source.eq_of_method {os : List Origin} {ref : Ref} {cfg : Cfg} {d : SharedCfg}
    {id : NodeId} {n : Node} {o : Origin} (h : Source os (.method ref cfg) id n d o) :
    d = .method ref cfg :=
  SharedCfg.mem_descendantsOf_method.1 h.inside

theorem Traced.exists_source {os : List Origin} {s : Store} (h : s.Traced os) {m : SharedCfg}
    (hm : m.ComesFrom s.find?) {id : NodeId} {n : Node} (hn : m.flow.node? id = some n) :
    ∃ d o, Source os m id n d o := by
  have hgenuine : ∀ x ∈ SharedCfg.descendantsOf [m], x.Genuine os :=
    fun x hx => (h.genuine x (hm.inside hx)).1
  obtain ⟨d, hd, hdn, hsub⟩ :=
    SharedCfg.node?_core (fun x hx => (hgenuine x hx).woven) (List.mem_singleton.2 rfl) hn
  obtain ⟨o, ho, hclass, hstems⟩ := (hgenuine d hd).stems
  exact ⟨d, o, hd, ho, hclass, hstems, hdn, hsub⟩

theorem comesFrom_of_held {s : Store} {name : String} {held : SharedCfg}
    (h : s.find? name = some held) : held.ComesFrom s.find? :=
  ⟨name, held, h, by simp⟩

theorem method?_eq_some {s : Store} {name : String} {cfg : Cfg} (h : s.method? name = some cfg) :
    ∃ ref, s.find? name = some (.method ref cfg) := by
  obtain ⟨held, hh, hc⟩ := Option.bind_eq_some_iff.1 h
  cases held with
  | method ref _ =>
    cases hc
    exact ⟨ref, hh⟩
  | classType => cases hc

/-- A node identity belongs to one declaration. What is held has identities that were handed out
since the last reset; methods and fields of different names have none in common; and a class has
one in common with a method or field only if it has that one inside it, with all its nodes. -/
theorem node_ids_are_separate {config : StoreConfig} {s : Store} {events : List Event}
    (h : Execution Employs { config } events s) :
    (∀ name held, s.find? name = some held → ∀ id ∈ held.flow.nodeIds,
      1 ≤ id.val ∧ id.val < s.supply.ids.next) ∧
    (∀ name name' f g, s.method? name = some f → s.method? name' = some g → name ≠ name' →
      ∀ id ∈ f.flow.nodeIds, id ∉ g.flow.nodeIds) ∧
    ∀ name name' cfg f, s.classType? name = some cfg → s.method? name' = some f →
      ∀ id ∈ cfg.flow.nodeIds, id ∈ f.flow.nodeIds →
        (∃ ref m, .method ref m ∈ cfg.descendants ∧ m.flow.sameName f.flow = true ∧
          m.flow.nodeIds = f.flow.nodeIds) ∧ ∀ x ∈ f.flow.nodeIds, x ∈ cfg.flow.nodeIds := by
  obtain ⟨os, ht⟩ := h.traced_of_start
  -- the source of a node of a method or field is the graph itself
  have hmethod : ∀ {name f}, s.method? name = some f → ∀ {id}, id ∈ f.flow.nodeIds →
      ∃ o ∈ os, o.isClass = false ∧ f.flow.StemsFrom o ∧ o.name = name ∧
        ∃ link, (id, link) ∈ o.identities := by
    intro name f hf id hid
    obtain ⟨ref, hh⟩ := method?_eq_some hf
    obtain ⟨n, hn⟩ := FlowGraph.exists_node?.2 hid
    obtain ⟨d, o, hsource⟩ := ht.exists_source (comesFrom_of_held hh) hn
    obtain rfl := hsource.eq_of_method
    refine ⟨o, hsource.origin, hsource.form, hsource.stems, ?_, n.link, hsource.mem_identities⟩
    rw [← hsource.stems.name]
    exact ht.keyed name _ hh
  refine ⟨?_, ?_, ?_⟩
  · intro name held hh id hid
    obtain ⟨n, hn⟩ := FlowGraph.exists_node?.2 hid
    obtain ⟨d, o, hsource⟩ := ht.exists_source (comesFrom_of_held hh) hn
    have hbounds := ht.separate.bounds hsource.origin hsource.mem_identities
    exact ⟨hbounds.1, hbounds.2.1⟩
  · intro name name' f g hf hg hne id hid hid'
    obtain ⟨o, ho, -, -, rfl, link, hm⟩ := hmethod hf hid
    obtain ⟨o', ho', -, -, rfl, link', hm'⟩ := hmethod hg hid'
    exact hne (congrArg Origin.name (ht.separate.origin_eq ho ho' hm hm' (.inl rfl)))
  · intro name name' cfg f hc hf id hid hid'
    obtain ⟨ref, hh⟩ := classType?_eq_some hc
    obtain ⟨n, hn⟩ := FlowGraph.exists_node?.2 hid
    obtain ⟨d, o, hsource⟩ := ht.exists_source (comesFrom_of_held hh) hn
    obtain ⟨o', ho', hform, hstems, -, link', hm'⟩ := hmethod hf hid'
    obtain rfl := ht.separate.origin_eq hsource.origin ho' hsource.mem_identities hm' (.inl rfl)
    have hids : d.core.nodeIds = f.flow.nodeIds := by
      rw [FlowGraph.nodeIds_eq_identities, FlowGraph.nodeIds_eq_identities,
        hsource.stems.identities, hstems.identities]
    cases d with
    | classType => exact absurd (hform.symm.trans hsource.form) Bool.false_ne_true
    | method ref' m =>
      refine ⟨⟨ref', m, ?_, ?_, hids⟩, fun x hx => hsource.contained x (hids ▸ hx)⟩
      · rcases SharedCfg.mem_descendantsOf_classType.1 hsource.inside with heq | hin
        · cases heq
        · exact hin
      · rw [FlowGraph.sameName, beq_iff_eq, hstems.name]
        exact hsource.stems.name

theorem smallFrontEnd_works (s : Store) (d : Declaration) : smallFrontEnd.Works s d := by
  constructor
  · intro hk
    rcases d with ⟨kind, name⟩
    cases kind with
    | classType => exact absurd rfl hk
    | method => exact Workshop.yields_method (.opened (.method ..))
    | field => exact Workshop.yields_method (.opened (.field ..))
  · intro _
    exact Workshop.yields_class (.opened (.classType ..)) (.opened (.method ..))

/-- A class is built with a method `f`, an identity is taken, and a method of another class is
built. -/
theorem node_ids_are_separate_across_classes :
    ∃ events s cfg f g, Execution Employs { config := {} } events s ∧
      s.classType? "A" = some cfg ∧ s.method? "A.f" = some f ∧ s.method? "B.g" = some g ∧
      f.flow.nodeIds = [3, 4] ∧ g.flow.nodeIds = [6, 7] ∧ s.supply.ids.next = 8 ∧
      (∀ id ∈ f.flow.nodeIds, id ∉ g.flow.nodeIds) ∧
      ∀ x ∈ f.flow.nodeIds, x ∈ cfg.flow.nodeIds := by
  let s : Store := { config := {} }
  let s₁ := (s.request smallFrontEnd ⟨.classType, "A"⟩).store
  let s₂ := s₁.allocate.2
  let s₃ := (s₂.request smallFrontEnd ⟨.method, "B.g"⟩).store
  have h₀ : Execution Employs s [] s := .nil s
  have h₁ : Execution Employs s _ s₁ := h₀.request (smallFrontEnd_works s ⟨.classType, "A"⟩)
  have h₂ : Execution Employs s _ s₂ := h₁.allocate trivial
  have h : Execution Employs s _ s₃ := h₂.request (smallFrontEnd_works s₂ ⟨.method, "B.g"⟩)
  obtain ⟨-, hmethods, hclass⟩ := node_ids_are_separate h
  have hcfg : (s₃.classType? "A").map (fun cfg => cfg.flow.nodeIds) = some [1, 2, 3, 4] := by
    decide +kernel
  have hf : (s₃.method? "A.f").map (fun f => f.flow.nodeIds) = some [3, 4] := by decide +kernel
  have hg : (s₃.method? "B.g").map (fun g => g.flow.nodeIds) = some [6, 7] := by decide +kernel
  obtain ⟨cfg, hcfg, hids⟩ := Option.map_eq_some_iff.1 hcfg
  obtain ⟨f, hf, hfids⟩ := Option.map_eq_some_iff.1 hf
  obtain ⟨g, hg, hgids⟩ := Option.map_eq_some_iff.1 hg
  refine ⟨_, s₃, cfg, f, g, h, hcfg, hf, hg, hfids, hgids, by decide +kernel, ?_, ?_⟩
  · exact hmethods "A.f" "B.g" f g hf hg (by decide)
  · exact (hclass "A" "A.f" cfg f hcfg hf 3 (by rw [hids]; decide) (by rw [hfids]; decide)).2

end Store

end ProgramFlow
