import ProgramFlow.Proofs.Offering

/-! The node limit of a strict store. It is checked on what a builder hands over, and before a class
takes in the objects held for its members. What happens to a graph after the check adds no node to
it but for this one step, so nothing that is held exceeds the limit except classes that took in
something larger than what was checked, or have such a class inside. -/
namespace ProgramFlow

namespace SharedCfg

structure Within (x y : SharedCfg) : Prop where
  name : x.qualifiedName = y.qualifiedName
  nodes : ∀ id ∈ x.flow.nodeIds, id ∈ y.flow.nodeIds

theorem Within.refl (x : SharedCfg) : x.Within x := ⟨rfl, fun _ h => h⟩

theorem Within.trans {x y z : SharedCfg} (h : x.Within y) (h' : y.Within z) : x.Within z :=
  ⟨h.name.trans h'.name, fun id hid => h'.nodes id (h.nodes id hid)⟩

theorem Within.find? {xs ys : List SharedCfg} (h : List.Forall₂ Within xs ys) {name : String}
    {x : SharedCfg} (hx : xs.find? (fun m => m.qualifiedName == name) = some x) :
    ∃ y, ys.find? (fun m => m.qualifiedName == name) = some y ∧ x.Within y := by
  induction h with
  | nil => cases hx
  | @cons a b as bs hab _ ih =>
    rw [List.find?_cons] at hx ⊢
    rw [← hab.name]
    by_cases hn : (a.qualifiedName == name) = true
    · rw [hn] at hx ⊢
      cases hx
      exact ⟨b, rfl, hab⟩
    · rw [Bool.not_eq_true] at hn
      rw [hn] at hx ⊢
      exact ih hx

end SharedCfg

namespace ClassCfg

theorem mem_linked_iff {names : List String} {members : List SharedCfg} {g : FlowGraph} :
    g ∈ linked names (members.map SharedCfg.flow) ↔ ∃ name ∈ names, ∃ m,
      members.find? (fun m => m.qualifiedName == name) = some m ∧ m.flow = g := by
  simp only [linked, List.mem_filterMap, List.find?_map, Option.map_eq_some_iff]
  exact Iff.rfl

/-- A rebuild over smaller members gives a smaller graph. -/
theorem Regular.revise {c : ClassCfg} (h : c.Regular) {members : List SharedCfg}
    (hw : List.Forall₂ SharedCfg.Within members c.members) (count : Nat) :
    ∀ id ∈ (c.revise count members).flow.nodeIds, id ∈ c.flow.nodeIds := by
  intro id hid
  by_cases hcount : count > 0
  · rw [flow_revise_pos _ hcount, mem_nodeIds_union] at hid
    apply h.covers
    rw [mem_nodeIds_relink]
    rcases hid with hid | ⟨g, hg, hid⟩
    · exact .inl hid
    · obtain ⟨name, hname, x, hx, rfl⟩ := mem_linked_iff.1 hg
      obtain ⟨y, hy, hxy⟩ := SharedCfg.Within.find? hw hx
      exact .inr ⟨y.flow, mem_linked_iff.2 ⟨name, hname, y, hy, rfl⟩, hxy.nodes id hid⟩
  · rw [ClassCfg.revise, if_neg hcount] at hid
    exact hid

end ClassCfg

namespace SharedCfg

def AllWithin (forest forest' : List SharedCfg) : Prop :=
  ∀ x ∈ descendantsOf forest, ∃ y ∈ descendantsOf forest', x.Within y

theorem AllWithin.refl (forest : List SharedCfg) : AllWithin forest forest :=
  fun x hx => ⟨x, hx, .refl x⟩

theorem AllWithin.trans {f f' f'' : List SharedCfg} (h : AllWithin f f') (h' : AllWithin f' f'') :
    AllWithin f f'' := by
  intro x hx
  obtain ⟨y, hy, hxy⟩ := h x hx
  obtain ⟨z, hz, hyz⟩ := h' y hy
  exact ⟨z, hz, hxy.trans hyz⟩

theorem AllWithin.cons {x y : SharedCfg} {xs ys : List SharedCfg} (hxy : x.Within y)
    (hin : AllWithin x.inside y.inside) (hrest : AllWithin xs ys) :
    AllWithin (x :: xs) (y :: ys) := by
  intro z hz
  rcases mem_descendantsOf_cons.1 hz with rfl | hz | hz
  · exact ⟨y, mem_descendantsOf_cons.2 (.inl rfl), hxy⟩
  · obtain ⟨w, hw, hzw⟩ := hin z hz
    exact ⟨w, mem_descendantsOf_cons.2 (.inr (.inl hw)), hzw⟩
  · obtain ⟨w, hw, hzw⟩ := hrest z hz
    exact ⟨w, mem_descendantsOf_cons.2 (.inr (.inr hw)), hzw⟩

/-- Where no known object is taken in, nothing in a forest gains a node. -/
theorem Replaces.within {known : Lookup} {s : Supply} {forest : List SharedCfg}
    {out : Nat × List SharedCfg × Supply} (h : Replaces known s forest out)
    (hnone : out.1 = 0 ∨ ∀ name, known name = none)
    (hreg : ∀ x ∈ descendantsOf forest, x.Regular) :
    List.Forall₂ Within out.2.1 forest ∧ AllWithin out.2.1 forest := by
  induction h with
  | nil => exact ⟨.nil, .refl _⟩
  | @kept s m rest out hr ih =>
    rw [Nat.zero_add] at hnone
    simp only [descendantsOf_cons, List.forall_mem_cons, List.forall_mem_append] at hreg
    obtain ⟨hw, hall⟩ := ih hnone hreg.2.2
    exact ⟨.cons (.refl m) hw, .cons (.refl m) (.refl _) hall⟩
  | @taken s m held rest out hh hr ih =>
    rcases hnone with h0 | hnone
    · omega
    · rw [hnone] at hh
      cases hh
  | @method s ref cfg rest out hr ih =>
    rcases hnone with h0 | hnone
    · omega
    · simp only [descendantsOf_cons, List.forall_mem_cons, List.forall_mem_append] at hreg
      obtain ⟨hw, hall⟩ := ih (.inr hnone) hreg.2.2
      have hids : cfg.computeBlocks.flow.nodeIds = cfg.flow.nodeIds :=
        cfg.flow.nodeIds_markBlocks _
      have hblocks : Within (.method s.newRef.1 cfg.computeBlocks) (.method ref cfg) :=
        ⟨rfl, fun id hid => hids ▸ hid⟩
      exact ⟨.cons hblocks hw, .cons hblocks (.refl _) hall⟩
  | @classType s ref cfg inner rest out hi hr ihi ihr =>
    have hinner : inner.1 = 0 ∨ ∀ name, known name = none := hnone.imp_left (by omega)
    have hrest : out.1 = 0 ∨ ∀ name, known name = none := hnone.imp_left (by omega)
    simp only [descendantsOf_cons, inside_classType, List.forall_mem_cons,
      List.forall_mem_append] at hreg
    obtain ⟨hclass, hin, hregrest⟩ := hreg
    obtain ⟨hw, hall⟩ := ihi hinner hin
    obtain ⟨hwrest, hallrest⟩ := ihr hrest hregrest
    have hrevised : Within (.classType inner.2.2.newRef.1 (cfg.revise inner.1 inner.2.1))
        (.classType ref cfg) :=
      ⟨cfg.qualifiedName_revise .., ClassCfg.Regular.revise hclass hw inner.1⟩
    refine ⟨.cons hrevised hwrest, .cons hrevised ?_ hallrest⟩
    rw [inside_classType, cfg.members_revise]
    exact hall

end SharedCfg

theorem ClassCfg.Regular.replaced {c : ClassCfg} (h : c.Regular)
    (hin : ∀ x ∈ SharedCfg.descendantsOf c.members, x.Regular) {known : Lookup} {s : Supply}
    {out : Nat × List SharedCfg × Supply} (hr : SharedCfg.Replaces known s c.members out)
    (hnone : out.1 = 0 ∨ ∀ name, known name = none) :
    (∀ id ∈ (c.revise out.1 out.2.1).flow.nodeIds, id ∈ c.flow.nodeIds) ∧
      SharedCfg.AllWithin (c.revise out.1 out.2.1).members c.members := by
  obtain ⟨hw, hall⟩ := hr.within hnone hin
  refine ⟨h.revise hw out.1, ?_⟩
  rw [c.members_revise]
  exact hall

def SharedCfg.Counted (known : Lookup) (nodes : List NodeId) (m : SharedCfg) : Prop :=
  m.isClass = false →
    (known m.qualifiedName).isSome = true ∨ ∀ id ∈ m.flow.nodeIds, id ∈ nodes

theorem SharedCfg.lasting_counted (known : Lookup) (nodes : List NodeId) :
    Lasting fun _ m => m.Counted known nodes := by
  refine ⟨fun _ h => h, ?_, ?_⟩
  · intro n ref cfg h _
    refine (h rfl).imp_right fun h id hid => h id ?_
    exact (cfg.flow.nodeIds_markBlocks _).subst (motive := fun ids => id ∈ ids) hid
  · intro n ref cfg cfg' _ _ hclass
    cases hclass

namespace Store

variable {s : Store}

theorem Consistent.contains_of_comesFrom (h : s.Consistent) {m : SharedCfg}
    (hm : m.ComesFrom s.find?) : s.contains m.qualifiedName = true := by
  obtain ⟨name, held, hh, hm⟩ := hm
  cases held with
  | method ref cfg =>
    rw [SharedCfg.mem_descendantsOf_method.1 hm, h.keyed name _ hh]
    exact contains_iff.2 ⟨_, hh⟩
  | classType ref cfg =>
    rcases SharedCfg.mem_descendantsOf_classType.1 hm with rfl | hm
    · rw [h.keyed name _ hh]
      exact contains_iff.2 ⟨_, hh⟩
    · exact h.registered name ref cfg hh m hm

theorem checkLimit_strict {d : Declaration} {nodes : Nat} {events : List Event}
    (hstrict : s.config.strict = true) (h : s.checkLimit d nodes = .ok events) :
    nodes ≤ s.config.maxNodesPerCfg ∧ events = [] := by
  simp only [checkLimit] at h
  split at h
  · next hle =>
    cases h
    exact ⟨hle, rfl⟩
  · cases h

theorem prepareMethod_limit {d : Declaration} {built cfg : Cfg} {events : List Event}
    (hstrict : s.config.strict = true) (h : s.prepareMethod d built = .ok (cfg, events)) :
    built.flow.nodeCount ≤ s.config.maxNodesPerCfg ∧ events = [] := by
  simp only [prepareMethod, bind, Except.bind] at h
  split at h
  · cases h
  · split at h
    · cases h
    · next hlimit =>
      cases h
      exact checkLimit_strict hstrict hlimit

/-- A class that passes is as large as the limit allows before it takes in held objects, and it is
reported when it does. -/
theorem prepareClass_limit {d : Declaration} {built cfg : ClassCfg} {events : List Event}
    {supply supply' : Supply} (hstrict : s.config.strict = true)
    (h : s.prepareClass d built supply = .ok (cfg, events, supply')) :
    built.flow.nodeCount ≤ s.config.maxNodesPerCfg ∧
      events = if (built.adopt s.find? supply).1 > 0 then
        [.reuses d.qualifiedName (built.adopt s.find? supply).1] else [] := by
  simp only [prepareClass, bind, Except.bind] at h
  split at h
  · cases h
  · split at h
    · cases h
    · next limits hlimit =>
      obtain ⟨hle, rfl⟩ := checkLimit_strict hstrict hlimit
      refine ⟨hle, ?_⟩
      split at h
      all_goals
        cases h
        rfl

section Settling

variable (hs : s.Regular) (hc : s.Consistent) {built : ClassCfg} {ref : Ref}
  (hb : (SharedCfg.classType ref built).Offered s.find?) (supply : Supply)

include hc hb

theorem settle_counted :
    ∀ x ∈ (s.settle built supply).descendants, x.Counted s.find? built.flow.nodeIds := by
  refine lasting_settle hc.keyed (SharedCfg.lasting_counted ..) ?_ ?_
  · intro name held hh x hx _
    exact .inl (hc.contains_of_comesFrom ⟨name, held, hh, hx⟩)
  · intro x hx _
    exact (hb.encloses x hx).imp_left hc.contains_of_comesFrom

include hs

theorem settle_within (h0 : (built.adopt s.find? supply).1 = 0) :
    (∀ id ∈ (s.settle built supply).flow.nodeIds, id ∈ built.flow.nodeIds) ∧
      SharedCfg.AllWithin (s.settle built supply).members built.members := by
  have hbuilt := hb.regular hs
  have hclass : built.Regular := hbuilt _ (SharedCfg.mem_descendantsOf_classType.2 (.inl rfl))
  have hin : ∀ x ∈ SharedCfg.descendantsOf built.members, x.Regular := by
    intro x hx
    rw [← ClassCfg.descendants_eq] at hx
    exact hbuilt x (SharedCfg.mem_descendantsOf_classType.2 (.inr hx))
  have hreplaces := SharedCfg.adoptAll_replaces s.find? supply built.members
  rw [ClassCfg.adopt_eq] at h0
  obtain ⟨hflow, hall⟩ := hclass.replaced hin hreplaces (.inl h0)
  simp only [Store.settle, ClassCfg.adopt_eq, ClassCfg.computeMemberBlocks_eq]
  split
  · have hclass' := hclass.revised (hreplaces.revised hc.keyed)
    have hin' := SharedCfg.lasting_regular.replaces hc.keyed hreplaces
      (fun name held hh x hx => hs x ⟨name, held, hh, hx⟩) hin
    obtain ⟨hflow', hall'⟩ := hclass'.replaced (by rw [built.members_revise]; exact hin')
      (SharedCfg.computeAllBlocks_replaces (fun _ => none) _ _) (.inr fun _ => rfl)
    exact ⟨fun id hid => hflow id (hflow' id hid), hall'.trans hall⟩
  · exact ⟨hflow, hall⟩

/-- What is new in a settled class has no node that was not counted, unless it is a class and the
settled class took in held objects. -/
theorem settle_nodeCount (ref' : Ref) {x : SharedCfg}
    (hx : x ∈ SharedCfg.descendantsOf [.classType ref' (s.settle built supply)])
    (hnew : s.find? x.qualifiedName = none) :
    x.flow.nodeCount ≤ built.flow.nodeCount ∨
      x.isClass = true ∧ (built.adopt s.find? supply).1 ≠ 0 := by
  have hmade := (hs.settle hc.keyed hb supply ref' x hx).made
  have hcontains : s.contains x.qualifiedName = false := contains_eq_false_iff.2 hnew
  by_cases h0 : (built.adopt s.find? supply).1 = 0
  · left
    apply FlowGraph.nodeCount_le hmade
    obtain ⟨hflow, hall⟩ := settle_within hs hc hb supply h0
    rcases SharedCfg.mem_descendantsOf_classType.1 hx with rfl | hx
    · exact hflow
    · rw [ClassCfg.descendants_eq] at hx
      obtain ⟨y, hy, hxy⟩ := hall x hx
      rw [← ClassCfg.descendants_eq] at hy
      rcases hb.encloses y hy with hy | hy
      · have := hc.contains_of_comesFrom hy
        rw [← hxy.name, hcontains] at this
        cases this
      · exact fun id hid => hy id (hxy.nodes id hid)
  · cases x with
    | classType => exact .inr ⟨rfl, h0⟩
    | method ref cfg =>
      left
      apply FlowGraph.nodeCount_le hmade
      rcases SharedCfg.mem_descendantsOf_classType.1 hx with heq | hx
      · cases heq
      · rcases settle_counted hc hb supply _ hx rfl with h | h
        · have := h.symm.trans hcontains
          cases this
        · exact h

end Settling

def Recent (events : List Event) (e : Event) : Prop :=
  ∃ before after, events = before ++ e :: after ∧ ∀ held, .resetting held ∉ after

theorem Recent.append {events more : List Event} {e : Event} (h : Recent events e)
    (hmore : ∀ held, .resetting held ∉ more) : Recent (events ++ more) e := by
  obtain ⟨before, after, rfl, hafter⟩ := h
  refine ⟨before, after ++ more, by simp, ?_⟩
  intro held hmem
  rcases List.mem_append.1 hmem with h | h
  · exact hafter held h
  · exact hmore held h

theorem Recent.of_mem {more : List Event} {e : Event} (he : e ∈ more)
    (hmore : ∀ held, .resetting held ∉ more) (events : List Event) : Recent (events ++ more) e := by
  obtain ⟨before, after, rfl⟩ := List.append_of_mem he
  refine ⟨events ++ before, after, by simp, ?_⟩
  intro held hmem
  exact hmore held (List.mem_append_right _ (List.mem_cons_of_mem _ hmem))

theorem Served.not_resetting {b : Builder} {d : Declaration} {reply : Reply}
    (h : Served s b d reply) (hstrict : s.config.strict = true) (held : Nat) :
    .resetting held ∉ reply.events := by
  cases h with
  | held | remembered | failed => simp [recordFailure]
  | @builtMethod _ supply _ _ _ _ _ _ _ _ hp =>
    obtain ⟨-, rfl⟩ := prepareMethod_limit (s := { s with supply }) hstrict hp
    simp [keep]
  | @builtClass _ supply _ _ _ _ _ _ _ _ _ hp =>
    obtain ⟨-, rfl⟩ := prepareClass_limit (s := { s with supply }) hstrict hp
    split
    all_goals simp [keep]

/-- A class that took in held objects, or a class inside such a class. -/
structure Enlarged (events : List Event) (s : Store) (m : SharedCfg) : Prop where
  isClass : m.isClass = true
  inside : ∃ outer count ref cfg, Recent events (.reuses outer count) ∧
    s.find? outer = some (.classType ref cfg) ∧ m ∈ SharedCfg.descendantsOf [.classType ref cfg]

theorem Enlarged.mono {events more : List Event} {t : Store} {m : SharedCfg}
    (h : Enlarged events s m) (hmore : ∀ held, .resetting held ∉ more)
    (hheld : ∀ name held, s.find? name = some held → t.find? name = some held) :
    Enlarged (events ++ more) t m := by
  obtain ⟨outer, count, ref, cfg, hevent, houter, hin⟩ := h.inside
  exact ⟨h.isClass, outer, count, ref, cfg, hevent.append hmore, hheld _ _ houter, hin⟩

/-- What is held obeys the limit or is a class that was enlarged after the check. -/
def Limited (events : List Event) (s : Store) : Prop :=
  ∀ name held, s.find? name = some held →
    held.flow.nodeCount ≤ s.config.maxNodesPerCfg ∨ Enlarged events s held

theorem Served.limited {b : Builder} {d : Declaration} {reply : Reply} {events : List Event}
    (hs : Served s b d reply) (hstrict : s.config.strict = true) (hc : s.Consistent)
    (hr : s.Regular) (hb : b.Offers s d) (h : Limited events s) :
    Limited (events ++ reply.events) reply.store := by
  intro name held hh
  have hname : held.qualifiedName = name := hs.keyed hc.keyed name held hh
  have hreset := hs.not_resetting hstrict
  rw [hs.config_eq]
  cases hold : s.find? name with
  | some old =>
    rw [hs.keeps_held hold] at hh
    cases hh
    exact (h name _ hold).imp_right fun henlarged => henlarged.mono hreset fun _ _ => hs.keeps_held
  | none =>
    have hnew : ¬s.find? name = some held := by
      rw [hold]
      exact fun h => by cases h
    cases hs with
    | held | remembered | failed => exact absurd hh hnew
    | @builtMethod built supply cfg made ref supply' hf hr' hk hbuilt hp =>
      obtain ⟨-, rfl⟩ := (held_of_keep hh).resolve_right hnew
      left
      obtain ⟨-, hcfg, -⟩ := prepareMethod_eq_ok hp
      have hids : cfg.flow.nodeIds = built.flow.nodeIds := by
        rw [hcfg]
        split
        · exact built.flow.nodeIds_markBlocks _
        · rfl
      change cfg.flow.nodeCount ≤ _
      rw [← FlowGraph.length_nodeIds, hids, FlowGraph.length_nodeIds]
      exact (prepareMethod_limit (s := { s with supply }) hstrict hp).1
    | @builtClass built supply cfg made supply' ref supply'' hf hr' hk hbuilt hp =>
      obtain ⟨ref₀, hoffered⟩ := hb.classType hk _ _ hbuilt
      obtain ⟨hlimit, hmade⟩ := prepareClass_limit (s := { s with supply }) hstrict hp
      obtain ⟨-, rfl, -⟩ := prepareClass_eq_ok hp
      have hin : held ∈ SharedCfg.descendantsOf
          [.classType ref (Store.settle { s with supply } built supply)] := by
        rcases held_of_builtClass hh with ⟨-, rfl⟩ | hh | ⟨hin, -⟩
        · exact SharedCfg.mem_descendantsOf_classType.2 (.inl rfl)
        · exact absurd hh hnew
        · exact SharedCfg.mem_descendantsOf_classType.2 (.inr hin)
      have hc' : Consistent { s with supply } := ⟨hc.keyed, hc.exclusive, hc.registered⟩
      rcases settle_nodeCount (s := { s with supply }) hr hc' hoffered supply ref hin
        (by rw [hname]; exact hold) with hle | ⟨hclass, hcount⟩
      · exact .inl (hle.trans hlimit)
      · rw [if_pos (Nat.pos_of_ne_zero hcount)] at hmade
        have hreuse := Recent.of_mem (e := .reuses d.qualifiedName _)
          (List.mem_append_left _ (List.mem_cons_of_mem _ (hmade ▸ List.mem_singleton_self _)))
          hreset events
        refine .inr ⟨hclass, d.qualifiedName, _, ref, _, hreuse, ?_, hin⟩
        rw [find?_builtClass, if_pos rfl]

theorem Execution.config_eq {allowed : Store → Action → Prop} {s t : Store} {events : List Event}
    (h : Execution allowed s events t) : t.config = s.config := by
  induction h with
  | nil => rfl
  | @snoc t _ action _ _ ih =>
    cases action with
    | request b d => exact (request_served t b d).config_eq.trans ih
    | allocate | resetIds | destroy => exact ih

theorem Execution.limited {config : StoreConfig} (hstrict : config.strict = true) {s : Store}
    {events : List Event} (h : Execution Admits { config } events s) : Limited events s := by
  induction h with
  | nil =>
    intro name held hh
    cases hh
  | @snoc t events action hrun ha ih =>
    cases action with
    | request b d =>
      have hc := hrun.consistent (initial_consistent config)
      refine (request_served t b d).limited ?_ hc hrun.regular ha ih
      rw [hrun.config_eq]
      exact hstrict
    | allocate =>
      intro name held hh
      exact (ih name held hh).imp_right fun henlarged =>
        henlarged.mono (fun _ => List.not_mem_nil) fun _ _ h => h
    | resetIds | destroy =>
      intro name held hh
      cases hh

/-- What a strict store holds obeys its limit, with one exception: a class that took in objects held
before, as was reported since the last reset, or that lies inside such a class. Methods and fields
obey it always. -/
theorem strict_limit_bounds_what_is_held {config : StoreConfig} (hstrict : config.strict = true)
    {s : Store} {events : List Event} (h : Execution Admits { config } events s) :
    ∀ name held, s.find? name = some held →
      held.flow.nodeCount ≤ config.maxNodesPerCfg ∨ Enlarged events s held := by
  intro name held hh
  have hlimited := h.limited hstrict name held hh
  rw [h.config_eq] at hlimited
  exact hlimited

/-- A method is as large as the limit allows. A class that comes with a smaller one of the name
passes the check and is held with the larger one, above the limit. -/
theorem strict_limit_is_exceeded_by_reuse :
    ∃ events s held,
      Execution Admits { config := { maxNodesPerCfg := 5, strict := true } } events s ∧
      (s.method? "A.f").map (fun f => f.flow.nodeCount) = some 5 ∧
      s.find? "A" = some held ∧ held.flow.nodeCount = 7 ∧ Enlarged events s held := by
  let s : Store := { config := { maxNodesPerCfg := 5, strict := true } }
  let large := plannedFrontEnd fun _ => [.dummy, .dummy, .dummy]
  let small := plannedFrontEnd fun _ => []
  let s₁ := (s.request large ⟨.method, "A.f"⟩).store
  let s₂ := (s₁.request small ⟨.classType, "A"⟩).store
  have h₀ : Execution Admits s [] s := .nil s
  have h₁ : Execution Admits s _ s₁ := h₀.request (plannedFrontEnd_offers _ s ⟨.method, "A.f"⟩)
  have h : Execution Admits s _ s₂ := h₁.request (plannedFrontEnd_offers _ s₁ ⟨.classType, "A"⟩)
  have hcount : (s₂.find? "A").map (fun m => m.flow.nodeCount) = some 7 := by decide +kernel
  obtain ⟨held, hheld, hcount⟩ := Option.map_eq_some_iff.1 hcount
  refine ⟨_, s₂, held, h, by decide +kernel, hheld, hcount, ?_⟩
  refine (strict_limit_bounds_what_is_held rfl h "A" held hheld).resolve_left ?_
  rw [hcount]
  decide

end Store

end ProgramFlow
