import ProgramFlow.Proofs.ClassTree
import ProgramFlow.Store

/-! Runs of a store, and what one request can do to it.

A request brings the builder that is to serve it, so a run may use a builder that behaves
differently from one call to the next. `Served` lists the ways a request can end; every fact
about requests is read off it. -/
namespace ProgramFlow

inductive Action where
  | request (builder : Builder) (declaration : Declaration)
  | allocate
  | resetIds
  | destroy

def Action.Keeps : Action → Prop
  | .request _ _ | .allocate => True
  | .resetIds | .destroy => False

def Event.builds (name : String) : Event → Bool
  | .building d => d.qualifiedName == name
  | _ => false

def Builder.construct (b : Builder) (d : Declaration) : BuildM Cfg :=
  match d.kind with
  | .field => b.buildField d
  | _ => b.buildMethod d

namespace Store

def act (s : Store) : Action → Store × List Event
  | .request b d => ((s.request b d).store, (s.request b d).events)
  | .allocate => (s.allocate.2, [])
  | .resetIds => s.resetIds
  | .destroy => s.destroy

/-- Actions one after the other, each allowed in the state it meets, with the events they give
rise to. -/
inductive Execution (allowed : Store → Action → Prop) : Store → List Event → Store → Prop where
  | nil (s) : Execution allowed s [] s
  | snoc {s t events action} : Execution allowed s events t → allowed t action →
      Execution allowed s (events ++ (t.act action).2) (t.act action).1

theorem Execution.request {allowed : Store → Action → Prop} {s t : Store} {events : List Event}
    (h : Execution allowed s events t) {b : Builder} {d : Declaration}
    (ha : allowed t (.request b d)) :
    Execution allowed s (events ++ (t.request b d).events) (t.request b d).store :=
  h.snoc ha

theorem Execution.allocate {allowed : Store → Action → Prop} {s t : Store} {events : List Event}
    (h : Execution allowed s events t) (ha : allowed t .allocate) :
    Execution allowed s (events ++ []) t.allocate.2 :=
  h.snoc ha

def settle (s : Store) (cfg : ClassCfg) (supply : Supply) : ClassCfg :=
  let adopted := cfg.adopt s.find? supply
  if s.config.computeBasicBlocks then (adopted.2.1.computeMemberBlocks adopted.2.2).2.1
  else adopted.2.1

theorem checkName_eq_ok {d : Declaration} {built : String} {u : Unit}
    (h : checkName d built = .ok u) : built = d.qualifiedName := by
  simp only [checkName] at h
  split at h
  · assumption
  · cases h

theorem checkLimit_builds {s : Store} {d : Declaration} {nodes : Nat} {events : List Event}
    (h : s.checkLimit d nodes = .ok events) (name : String) :
    events.countP (Event.builds name) = 0 := by
  simp only [checkLimit] at h
  split at h
  · cases h; rfl
  · split at h
    · cases h
    · cases h; rfl

theorem prepareMethod_eq_ok {s : Store} {d : Declaration} {built cfg : Cfg} {events : List Event}
    (h : s.prepareMethod d built = .ok (cfg, events)) :
    built.qualifiedName = d.qualifiedName ∧
      cfg = (if s.config.computeBasicBlocks && !built.hasBlocks then built.computeBlocks
        else built) ∧
      ∀ name, events.countP (Event.builds name) = 0 := by
  simp only [prepareMethod, bind, Except.bind] at h
  split at h
  · cases h
  · next hn =>
    split at h
    · cases h
    · next hl =>
      cases h
      exact ⟨checkName_eq_ok hn, rfl, checkLimit_builds hl⟩

theorem prepareClass_eq_ok {s : Store} {d : Declaration} {built cfg : ClassCfg}
    {events : List Event} {supply supply' : Supply}
    (h : s.prepareClass d built supply = .ok (cfg, events, supply')) :
    built.qualifiedName = d.qualifiedName ∧ cfg = s.settle built supply ∧
      ∀ name, events.countP (Event.builds name) = 0 := by
  simp only [prepareClass, bind, Except.bind] at h
  split at h
  · cases h
  · next hn =>
    split at h
    · cases h
    · next limits hl =>
      have hevents : ∀ name, (if (built.adopt s.find? supply).1 > 0 then
          limits ++ [.reuses d.qualifiedName (built.adopt s.find? supply).1]
          else limits).countP (Event.builds name) = 0 := by
        intro name
        split
        · rw [List.countP_append, checkLimit_builds hl]; rfl
        · exact checkLimit_builds hl name
      split at h
      · next hb =>
        cases h
        exact ⟨checkName_eq_ok hn, by simp only [settle, hb, if_true], hevents⟩
      · next hb =>
        cases h
        exact ⟨checkName_eq_ok hn, by simp only [settle, hb]; rfl, hevents⟩

/-- The ways a request can end. Until the last two nothing new is held. What the builder took from
the supply stays taken; a new object gets the next identity after that. -/
inductive Served (s : Store) (b : Builder) (d : Declaration) : Reply → Prop where
  | held {held} (hf : s.find? d.qualifiedName = some held) :
      Served s b d ⟨.ok held, s, [.cacheHit d.qualifiedName]⟩
  | remembered {diagnostic} (hf : s.find? d.qualifiedName = none)
      (hr : s.failure? d.qualifiedName = some diagnostic) :
      Served s b d ⟨.error diagnostic.replay, s, []⟩
  | failed (supply e) (hf : s.find? d.qualifiedName = none)
      (hr : s.failure? d.qualifiedName = none)
      (hs : d.kind ≠ .classType ∧ ((b.construct d).run.run s.supply).2 = supply ∨
        d.kind = .classType ∧ ((b.buildClass d s.find?).run.run s.supply).2 = supply) :
      Served s b d ({ s with supply }.recordFailure d.qualifiedName e [.building d])
  | builtMethod {built supply cfg events} (ref supply')
      (hf : s.find? d.qualifiedName = none) (hr : s.failure? d.qualifiedName = none)
      (hk : d.kind ≠ .classType) (hb : (b.construct d).run.run s.supply = (.ok built, supply))
      (hp : { s with supply }.prepareMethod d built = .ok (cfg, events))
      (hn : supply.newRef = (ref, supply')) :
      Served s b d ({ s with supply := supply' }.keep d.qualifiedName (.method ref cfg)
        (.building d :: events))
  | builtClass {built supply cfg events supply'} (ref supply'')
      (hf : s.find? d.qualifiedName = none) (hr : s.failure? d.qualifiedName = none)
      (hk : d.kind = .classType)
      (hb : (b.buildClass d s.find?).run.run s.supply = (.ok built, supply))
      (hp : { s with supply }.prepareClass d built supply = .ok (cfg, events, supply'))
      (hn : supply'.newRef = (ref, supply'')) :
      Served s b d (({ s with supply := supply'' }.registerMembers cfg).keep d.qualifiedName
        (.classType ref cfg) (.building d :: events))

theorem buildMethod_served {s : Store} {b : Builder} {d : Declaration}
    (hf : s.find? d.qualifiedName = none) (hr : s.failure? d.qualifiedName = none)
    (hk : d.kind ≠ .classType) : Served s b d (s.buildMethod d (b.construct d)) := by
  rcases hb : (b.construct d).run.run s.supply with ⟨built, supply⟩
  have hs : ((b.construct d).run.run s.supply).2 = supply := by rw [hb]
  simp only [buildMethod, hb]
  cases built with
  | error e => exact .failed supply e hf hr (.inl ⟨hk, hs⟩)
  | ok built =>
    rcases hp : { s with supply }.prepareMethod d built with e | ⟨cfg, events⟩
    · simp only [hp]
      exact .failed supply e hf hr (.inl ⟨hk, hs⟩)
    · simp only [hp]
      exact .builtMethod _ _ hf hr hk hb hp rfl

theorem buildClass_served {s : Store} {b : Builder} {d : Declaration}
    (hf : s.find? d.qualifiedName = none) (hr : s.failure? d.qualifiedName = none)
    (hk : d.kind = .classType) : Served s b d (s.buildClass d (b.buildClass d)) := by
  rcases hb : (b.buildClass d s.find?).run.run s.supply with ⟨built, supply⟩
  have hs : ((b.buildClass d s.find?).run.run s.supply).2 = supply := by rw [hb]
  simp only [buildClass, hb]
  cases built with
  | error e => exact .failed supply e hf hr (.inr ⟨hk, hs⟩)
  | ok built =>
    rcases hp : { s with supply }.prepareClass d built supply with e | ⟨cfg, events, supply'⟩
    · simp only [hp]
      exact .failed supply e hf hr (.inr ⟨hk, hs⟩)
    · simp only [hp]
      exact .builtClass _ _ hf hr hk hb hp rfl

theorem request_served (s : Store) (b : Builder) (d : Declaration) :
    Served s b d (s.request b d) := by
  unfold request
  split
  · next held hf => exact .held hf
  · next hf =>
    split
    · next diagnostic hr => exact .remembered hf hr
    · next hr =>
      split
      · next hk =>
        have := buildMethod_served (b := b) hf hr (by rw [hk]; decide)
        simpa only [Builder.construct, hk] using this
      · next hk =>
        have := buildMethod_served (b := b) hf hr (by rw [hk]; decide)
        simpa only [Builder.construct, hk] using this
      · next hk => exact buildClass_served hf hr hk

theorem find?_registerMember (s : Store) (m : SharedCfg) (name : String) :
    (s.registerMember m).find? name =
      (s.find? name).or (if m.qualifiedName = name then some m else none) := by
  unfold registerMember
  by_cases hn : m.qualifiedName = name
  · subst hn
    split
    · next hc =>
      obtain ⟨held, hh⟩ := Option.isSome_iff_exists.1 (show (s.find? _).isSome = true from hc)
      rw [hh]; rfl
    · next hc =>
      have hh : s.find? m.qualifiedName = none := by
        rw [← Option.not_isSome_iff_eq_none]
        exact hc
      rw [hh, Option.none_or, if_pos rfl]
      exact NameMap.find?_insert_self ..
  · rw [if_neg hn, Option.or_none]
    split
    · rfl
    · exact NameMap.find?_insert_of_ne _ _ (Ne.symm hn)

theorem find?_foldl_registerMember (s : Store) (forest : List SharedCfg) (name : String) :
    (forest.foldl registerMember s).find? name =
      (s.find? name).or (forest.find? fun m => m.qualifiedName == name) := by
  induction forest generalizing s with
  | nil => simp
  | cons m rest ih =>
    rw [List.foldl_cons, ih, find?_registerMember, Option.or_assoc, List.find?_cons]
    by_cases hn : m.qualifiedName = name
    · simp [hn]
    · rw [if_neg hn, Option.none_or, beq_false_of_ne hn]

/-- What is held after registration: what was held before, else the first member of the name. -/
theorem find?_registerMembers (s : Store) (cfg : ClassCfg) (name : String) :
    (s.registerMembers cfg).find? name =
      (s.find? name).or (cfg.descendants.find? fun m => m.qualifiedName == name) :=
  find?_foldl_registerMember s cfg.descendants name

theorem contains_registerMembers (s : Store) {cfg : ClassCfg} {m : SharedCfg}
    (hm : m ∈ cfg.descendants) : (s.registerMembers cfg).contains m.qualifiedName = true := by
  change (Store.find? _ _).isSome = true
  rw [find?_registerMembers, Option.isSome_or, List.find?_isSome.2 ⟨m, hm, by simp⟩,
    Bool.or_true]

theorem failure?_registerMember (s : Store) (m : SharedCfg) (name : String) :
    (s.registerMember m).failure? name =
      if (s.registerMember m).contains name = s.contains name then s.failure? name else none := by
  unfold registerMember
  split
  · simp
  · next hc =>
    by_cases hn : m.qualifiedName = name
    · subst hn
      have hfresh : ({ s with
          cache := s.cache.insert m.qualifiedName m
          failures := s.failures.erase m.qualifiedName } : Store).contains m.qualifiedName ≠
            s.contains m.qualifiedName := by
        rw [Bool.eq_false_iff.2 hc]
        simp [contains, NameMap.contains]
      rw [if_neg hfresh]
      exact NameMap.find?_erase_self ..
    · have hsame : ({ s with
          cache := s.cache.insert m.qualifiedName m
          failures := s.failures.erase m.qualifiedName } : Store).contains name =
            s.contains name := by
        simp only [contains, NameMap.contains]
        rw [NameMap.find?_insert_of_ne _ _ (Ne.symm hn)]
      rw [if_pos hsame]
      exact NameMap.find?_erase_of_ne _ (Ne.symm hn)

theorem contains_foldl_registerMember {s : Store} {name : String} (h : s.contains name = true)
    (forest : List SharedCfg) : (forest.foldl registerMember s).contains name = true := by
  change (Store.find? _ name).isSome = true at h ⊢
  rw [find?_foldl_registerMember, Option.isSome_or, h, Bool.true_or]

/-- A name that becomes held is no longer remembered as failed; nothing else is forgotten. -/
theorem failure?_registerMembers (s : Store) (cfg : ClassCfg) (name : String) :
    (s.registerMembers cfg).failure? name =
      if (s.registerMembers cfg).contains name = s.contains name then s.failure? name
      else none := by
  unfold registerMembers
  generalize cfg.descendants = forest
  induction forest generalizing s with
  | nil => simp
  | cons m rest ih =>
    rw [List.foldl_cons, ih, failure?_registerMember]
    cases hs : s.contains name with
    | true =>
      have hm := contains_foldl_registerMember hs [m]
      have hr := contains_foldl_registerMember hs (m :: rest)
      simp only [List.foldl_cons, List.foldl_nil] at hm hr
      simp [hm, hr]
    | false =>
      cases hm : (s.registerMember m).contains name with
      | true => simp [contains_foldl_registerMember hm rest]
      | false => simp

theorem find?_keep (s : Store) (name : String) (held : SharedCfg) (events : List Event)
    (other : String) :
    (s.keep name held events).store.find? other =
      if other = name then some held else s.find? other := by
  by_cases h : other = name
  · rw [if_pos h, h]
    exact NameMap.find?_insert_self ..
  · rw [if_neg h]
    exact NameMap.find?_insert_of_ne _ _ h

theorem held_of_keep {s : Store} {name : String} {new : SharedCfg} {events : List Event}
    {other : String} {held : SharedCfg}
    (h : (s.keep name new events).store.find? other = some held) :
    other = name ∧ held = new ∨ s.find? other = some held := by
  rw [find?_keep] at h
  split at h
  · next hn => exact .inl ⟨hn, (Option.some.inj h).symm⟩
  · exact .inr h

@[simp] theorem failure?_keep (s : Store) (name : String) (held : SharedCfg)
    (events : List Event) (other : String) :
    (s.keep name held events).store.failure? other = s.failure? other := rfl

theorem failure?_recordFailure (s : Store) (name : String) (e : CfgError) (events : List Event)
    (other : String) :
    (s.recordFailure name e events).store.failure? other =
      if other = name then some (Diagnostic.ofError name e) else s.failure? other := by
  by_cases h : other = name
  · rw [if_pos h, h]
    exact NameMap.find?_insert_self ..
  · rw [if_neg h]
    exact NameMap.find?_insert_of_ne _ _ h

theorem contains_keep {s : Store} {other : String} (h : s.contains other = true) (name : String)
    (held : SharedCfg) (events : List Event) :
    (s.keep name held events).store.contains other = true := by
  change (Store.find? _ other).isSome = true at h ⊢
  rw [find?_keep]
  split
  · rfl
  · exact h

theorem find?_builtClass (s : Store) (supply : Supply) (cfg : ClassCfg) (name : String)
    (held : SharedCfg) (events : List Event) (other : String) :
    (({ s with supply }.registerMembers cfg).keep name held events).store.find? other =
      if other = name then some held
      else (s.find? other).or (cfg.descendants.find? fun m => m.qualifiedName == other) := by
  rw [find?_keep, find?_registerMembers]
  rfl

theorem held_of_builtClass {s : Store} {supply : Supply} {cfg : ClassCfg} {name : String}
    {new : SharedCfg} {events : List Event} {other : String} {held : SharedCfg}
    (h : (({ s with supply }.registerMembers cfg).keep name new events).store.find? other =
      some held) :
    other = name ∧ held = new ∨ s.find? other = some held ∨
      held ∈ cfg.descendants ∧ held.qualifiedName = other := by
  rcases held_of_keep h with h | h
  · exact .inl h
  · rw [find?_registerMembers] at h
    rcases Option.or_eq_some_iff.1 h with h | ⟨-, h⟩
    · exact .inr (.inl h)
    · have hname := List.find?_some h
      exact .inr (.inr ⟨List.mem_of_find?_eq_some h, by simpa using hname⟩)

theorem contains_iff {s : Store} {name : String} :
    s.contains name = true ↔ ∃ held, s.find? name = some held :=
  Option.isSome_iff_exists

theorem contains_eq_false_iff {s : Store} {name : String} :
    s.contains name = false ↔ s.find? name = none :=
  Option.isSome_eq_false_iff.trans Option.isNone_iff_eq_none

namespace Served

variable {s : Store} {b : Builder} {d : Declaration} {reply : Reply}

theorem keeps_held (hs : Served s b d reply) {name : String} {held : SharedCfg}
    (h : s.find? name = some held) : reply.store.find? name = some held := by
  have hne : s.find? d.qualifiedName = none → name ≠ d.qualifiedName := by
    rintro hf rfl
    rw [h] at hf
    cases hf
  cases hs with
  | held | remembered | failed => exact h
  | builtMethod ref supply' hf =>
    rw [find?_keep, if_neg (hne hf)]
    exact h
  | builtClass ref supply' hf =>
    rw [find?_builtClass, if_neg (hne hf), h, Option.some_or]

theorem keeps_failure (hs : Served s b d reply) {name : String} {diagnostic : Diagnostic}
    (h : s.failure? name = some diagnostic) :
    reply.store.failure? name = some diagnostic ∨ reply.store.contains name = true := by
  cases hs with
  | held | remembered => exact .inl h
  | failed supply e hf hr =>
    left
    rw [failure?_recordFailure, if_neg]
    · exact h
    · rintro rfl
      rw [hr] at h
      cases h
  | builtMethod => exact .inl h
  | @builtClass _ _ cfg _ _ ref supply'' hf =>
    rw [failure?_keep, failure?_registerMembers]
    split
    · exact .inl h
    · next hc =>
      right
      cases hs : s.contains name with
      | true =>
        have hr := contains_foldl_registerMember (s := { s with supply := supply'' }) hs
          cfg.descendants
        exact absurd (hr.trans hs.symm) hc
      | false =>
        have hc' : ({ s with supply := supply'' }.registerMembers cfg).contains name = true := by
          rw [← Bool.not_eq_false]
          exact fun hn => hc (hn.trans hs.symm)
        exact contains_keep hc' ..

end Served

end Store

end ProgramFlow
