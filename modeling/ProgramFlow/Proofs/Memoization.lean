import ProgramFlow.Assembler
import ProgramFlow.Proofs.StoreExecution

/-! A store builds each name once. What it holds it keeps, a failure is remembered until the name
is held after all, and no builder, however it behaves, makes the two tables disagree. -/
namespace ProgramFlow

theorem Diagnostic.isResolution_replay (name : String) (e : CfgError) :
    (Diagnostic.ofError name e).replay.isResolution = e.isResolution := by
  cases e <;> rfl

/-- One call of the builder: the objects it is shown, the supply it is handed, and all that comes
back. -/
def Builder.call (b : Builder) (d : Declaration) (known : Lookup) (supply : Supply) :
    (Except CfgError Cfg × Supply) ⊕ (Except CfgError ClassCfg × Supply) :=
  match d.kind with
  | .method => .inl ((b.buildMethod d).run.run supply)
  | .field => .inl ((b.buildField d).run.run supply)
  | .classType => .inr ((b.buildClass d known).run.run supply)

namespace Store

/-- A graph is held for the name or its failure is remembered, so that no request builds it. -/
def decided (s : Store) (name : String) : Bool := s.contains name || (s.failure? name).isSome

theorem decided_eq_true_iff {s : Store} {name : String} :
    s.decided name = true ↔
      s.contains name = true ∨ ∃ diagnostic, s.failure? name = some diagnostic := by
  rw [decided, Bool.or_eq_true, Option.isSome_iff_exists]

theorem decided_eq_false {s : Store} {name : String} (hf : s.find? name = none)
    (hr : s.failure? name = none) : s.decided name = false := by
  rw [decided, contains_eq_false_iff.2 hf, hr]
  rfl

structure Consistent (s : Store) : Prop where
  keyed : Lookup.Keyed s.find?
  exclusive : ∀ name, s.contains name = true → s.failure? name = none
  registered : ∀ name ref cfg, s.find? name = some (.classType ref cfg) →
    ∀ m ∈ cfg.descendants, s.contains m.qualifiedName = true

theorem qualifiedName_settle (s : Store) (cfg : ClassCfg) (supply : Supply) :
    (s.settle cfg supply).qualifiedName = cfg.qualifiedName := by
  simp only [settle]
  split <;> simp

namespace Served

variable {s : Store} {b : Builder} {d : Declaration} {reply : Reply}

theorem keeps_contained (hs : Served s b d reply) {name : String} (h : s.contains name = true) :
    reply.store.contains name = true := by
  obtain ⟨held, hh⟩ := contains_iff.1 h
  exact contains_iff.2 ⟨held, hs.keeps_held hh⟩

theorem keyed (hs : Served s b d reply) (h : Lookup.Keyed s.find?) :
    Lookup.Keyed reply.store.find? := by
  cases hs with
  | held | remembered | failed => exact h
  | builtMethod ref supply' hf hr hk hb hp =>
    obtain ⟨hname, hcfg, -⟩ := prepareMethod_eq_ok hp
    intro name held hh
    rcases held_of_keep hh with ⟨hn, rfl⟩ | hh
    · rw [hn, ← hname, hcfg]
      change Cfg.qualifiedName _ = _
      split <;> rfl
    · exact h name held hh
  | builtClass ref supply'' hf hr hk hb hp =>
    obtain ⟨hname, hcfg, -⟩ := prepareClass_eq_ok hp
    intro name held hh
    rcases held_of_builtClass hh with ⟨hn, rfl⟩ | hh | ⟨-, hn⟩
    · rw [hn, ← hname, hcfg]
      exact qualifiedName_settle ..
    · exact h name held hh
    · exact hn

theorem exclusive (hs : Served s b d reply)
    (h : ∀ name, s.contains name = true → s.failure? name = none) :
    ∀ name, reply.store.contains name = true → reply.store.failure? name = none := by
  intro name hc
  cases hs with
  | held | remembered => exact h name hc
  | failed supply e hf hr =>
    rw [failure?_recordFailure]
    split
    · next hn =>
      subst hn
      exact absurd hc (by rw [Bool.not_eq_true]; exact contains_eq_false_iff.2 hf)
    · exact h name hc
  | builtMethod ref supply' hf hr =>
    by_cases hn : name = d.qualifiedName
    · rw [hn]; exact hr
    · obtain ⟨held, hh⟩ := contains_iff.1 hc
      rw [find?_keep, if_neg hn] at hh
      exact h name (contains_iff.2 ⟨held, hh⟩)
  | builtClass ref supply'' hf hr =>
    rw [failure?_keep, failure?_registerMembers]
    split
    · next he =>
      by_cases hn : name = d.qualifiedName
      · rw [hn]; exact hr
      · obtain ⟨held, hh⟩ := contains_iff.1 hc
        rw [find?_keep, if_neg hn] at hh
        exact h name (he.symm.trans (contains_iff.2 ⟨held, hh⟩))
    · rfl

theorem registered (hs : Served s b d reply)
    (h : ∀ name ref cfg, s.find? name = some (.classType ref cfg) →
      ∀ m ∈ cfg.descendants, s.contains m.qualifiedName = true) :
    ∀ name ref cfg, reply.store.find? name = some (.classType ref cfg) →
      ∀ m ∈ cfg.descendants, reply.store.contains m.qualifiedName = true := by
  have hold : ∀ {name ref cfg}, s.find? name = some (.classType ref cfg) →
      ∀ m ∈ cfg.descendants, reply.store.contains m.qualifiedName = true :=
    fun hh m hm => hs.keeps_contained (h _ _ _ hh m hm)
  intro name ref cfg hh
  cases hs with
  | held | remembered | failed => exact hold hh
  | builtMethod =>
    rcases held_of_keep hh with ⟨-, hnew⟩ | hh
    · cases hnew
    · exact hold hh
  | @builtClass _ _ built events _ ref' supply'' =>
    have hnew := fun (m : SharedCfg) (hm : m ∈ built.descendants) => contains_keep
      (contains_registerMembers { s with supply := supply'' } hm) d.qualifiedName
      (.classType ref' built) (.building d :: events)
    rcases held_of_builtClass hh with ⟨-, hclass⟩ | hh | ⟨hin, -⟩
    · cases hclass
      exact hnew
    · exact hold hh
    · intro m hm
      refine hnew m (ClassCfg.descendants_trans hin ?_)
      rwa [SharedCfg.descendants]

theorem consistent (hs : Served s b d reply) (h : s.Consistent) : reply.store.Consistent :=
  ⟨hs.keyed h.keyed, hs.exclusive h.exclusive, hs.registered h.registered⟩

theorem keeps_decided (hs : Served s b d reply) {name : String} (h : s.decided name = true) :
    reply.store.decided name = true := by
  rw [decided_eq_true_iff] at h ⊢
  rcases h with h | ⟨diagnostic, h⟩
  · exact .inl (hs.keeps_contained h)
  · rcases hs.keeps_failure h with h | h
    · exact .inr ⟨diagnostic, h⟩
    · exact .inl h

theorem decides (hs : Served s b d reply) : reply.store.decided d.qualifiedName = true := by
  rw [decided_eq_true_iff]
  cases hs with
  | held hf => exact .inl (contains_iff.2 ⟨_, hf⟩)
  | remembered hf hr => exact .inr ⟨_, hr⟩
  | failed => exact .inr ⟨_, by rw [failure?_recordFailure, if_pos rfl]⟩
  | builtMethod => exact .inl (contains_iff.2 ⟨_, by rw [find?_keep, if_pos rfl]⟩)
  | builtClass => exact .inl (contains_iff.2 ⟨_, by rw [find?_keep, if_pos rfl]⟩)

/-- The builder is called for the requested name, and only if that is not decided. -/
theorem count_builds (hs : Served s b d reply) (name : String) :
    reply.events.countP (Event.builds name) =
      if name = d.qualifiedName ∧ s.decided name = false then 1 else 0 := by
  have hcall : ∀ {events : List Event} {last : Event}, events.countP (Event.builds name) = 0 →
      Event.builds name last = false → s.decided d.qualifiedName = false →
      ((.building d :: events) ++ [last]).countP (Event.builds name) =
        if name = d.qualifiedName ∧ s.decided name = false then 1 else 0 := by
    intro events last he hl hd
    rw [List.countP_append, List.countP_cons, he, List.countP_singleton, hl]
    by_cases hn : name = d.qualifiedName
    · subst hn
      simp [Event.builds, hd]
    · simp [Event.builds, hn, Ne.symm hn]
  cases hs with
  | held hf =>
    rw [if_neg]
    · rfl
    · rintro ⟨rfl, hd⟩
      rw [decided, contains_iff.2 ⟨_, hf⟩] at hd
      cases hd
  | remembered hf hr =>
    rw [if_neg]
    · rfl
    · rintro ⟨rfl, hd⟩
      rw [decided, hr, Option.isSome_some, Bool.or_true] at hd
      cases hd
  | failed supply e hf hr => exact hcall List.countP_nil rfl (decided_eq_false hf hr)
  | builtMethod ref supply' hf hr hk hb hp =>
    exact hcall ((prepareMethod_eq_ok hp).2.2 name) rfl (decided_eq_false hf hr)
  | builtClass ref supply'' hf hr hk hb hp =>
    exact hcall ((prepareClass_eq_ok hp).2.2 name) rfl (decided_eq_false hf hr)

theorem failing (hs : Served s b d reply) (hd : s.decided d.qualifiedName = false) {e : CfgError}
    (he : reply.result = .error e) :
    reply.store.cache = s.cache ∧
      (∀ name, reply.store.failure? name =
        if name = d.qualifiedName then some (Diagnostic.ofError d.qualifiedName e)
        else s.failure? name) ∧
      reply.store.diagnostics = s.diagnostics ++ [Diagnostic.ofError d.qualifiedName e] := by
  cases hs with
  | held hf => cases he
  | remembered hf hr =>
    rw [decided, hr, Option.isSome_some, Bool.or_true] at hd
    cases hd
  | failed supply e' hf hr =>
    cases he
    exact ⟨rfl, failure?_recordFailure _ _ _ _, rfl⟩
  | builtMethod => cases he
  | builtClass => cases he

end Served

theorem request_of_held {s : Store} {d : Declaration} {held : SharedCfg}
    (h : s.find? d.qualifiedName = some held) (b : Builder) :
    s.request b d = ⟨.ok held, s, [.cacheHit d.qualifiedName]⟩ := by
  simp only [request, h]

theorem request_of_failure {s : Store} (hs : s.Consistent) {d : Declaration}
    {diagnostic : Diagnostic} (h : s.failure? d.qualifiedName = some diagnostic) (b : Builder) :
    s.request b d = ⟨.error diagnostic.replay, s, []⟩ := by
  have hf : s.find? d.qualifiedName = none := by
    rw [← contains_eq_false_iff, ← Bool.not_eq_true]
    intro hc
    rw [hs.exclusive _ hc] at h
    cases h
  simp only [request, hf, h]

theorem request_of_decided {s : Store} (hs : s.Consistent) {d : Declaration}
    (h : s.decided d.qualifiedName = true) (b b' : Builder) : s.request b' d = s.request b d := by
  rcases decided_eq_true_iff.1 h with h | ⟨diagnostic, h⟩
  · obtain ⟨held, hh⟩ := contains_iff.1 h
    rw [request_of_held hh, request_of_held hh]
  · rw [request_of_failure hs h, request_of_failure hs h]

theorem request_congr {s : Store} {b b' : Builder} {d : Declaration}
    (h : b'.call d s.find? s.supply = b.call d s.find? s.supply) :
    s.request b' d = s.request b d := by
  unfold request
  split
  · rfl
  · split
    · rfl
    · split
      · next hk =>
        simp only [Builder.call, hk, Sum.inl.injEq] at h
        simp only [buildMethod, h]
      · next hk =>
        simp only [Builder.call, hk, Sum.inl.injEq] at h
        simp only [buildMethod, h]
      · next hk =>
        simp only [Builder.call, hk, Sum.inr.injEq] at h
        simp only [buildClass, h]

theorem initial_consistent (config : StoreConfig) : Consistent { config } := by
  constructor
  · intro name held h
    cases h
  · intro name h
    cases h
  · intro name ref cfg h
    cases h

theorem act_consistent {s : Store} (h : s.Consistent) (a : Action) : (s.act a).1.Consistent := by
  cases a with
  | request b d => exact (request_served s b d).consistent h
  | allocate => exact ⟨h.keyed, h.exclusive, h.registered⟩
  | resetIds | destroy =>
    constructor
    · intro name held hh
      cases hh
    · intro name hh
      cases hh
    · intro name ref cfg hh
      cases hh

theorem Execution.consistent {allowed : Store → Action → Prop} {s t : Store} {events : List Event}
    (h : Execution allowed s events t) (hs : s.Consistent) : t.Consistent := by
  induction h with
  | nil => exact hs
  | snoc _ _ ih => exact act_consistent ih _

abbrev KeepingRun := Execution fun _ action => action.Keeps

namespace KeepingRun

variable {s t : Store} {events : List Event}

/-- A property of what has happened and of the store holds after a run if requests keep it and
taking an identity does. -/
@[elab_as_elim]
theorem induction {motive : List Event → Store → Prop} (nil : motive [] s)
    (request : ∀ events t b d, motive events t →
      motive (events ++ (t.request b d).events) (t.request b d).store)
    (allocate : ∀ events t, motive events t → motive events t.allocate.2)
    (h : KeepingRun s events t) : motive events t := by
  induction h with
  | nil => exact nil
  | @snoc t events action _ ha ih =>
    cases action with
    | request b d => exact request events t b d ih
    | allocate => exact (List.append_nil events).symm ▸ allocate events t ih
    | resetIds | destroy => exact ha.elim

theorem request (h : KeepingRun s events t) (b : Builder) (d : Declaration) :
    KeepingRun s (events ++ (t.request b d).events) (t.request b d).store := by
  have ha : Action.Keeps (.request b d) := trivial
  exact Execution.request h ha

theorem keeps_held (h : KeepingRun s events t) {name : String} {held : SharedCfg}
    (hh : s.find? name = some held) : t.find? name = some held := by
  refine induction hh ?_ ?_ h
  · intro _ t b d ih
    exact (request_served t b d).keeps_held ih
  · intro _ t ih
    exact ih

theorem keeps_failure (h : KeepingRun s events t) {name : String} {diagnostic : Diagnostic}
    (hr : s.failure? name = some diagnostic) :
    t.failure? name = some diagnostic ∨ t.contains name = true := by
  refine induction (.inl hr) ?_ ?_ h
  · intro _ t b d ih
    rcases ih with ih | ih
    · exact (request_served t b d).keeps_failure ih
    · exact .inr ((request_served t b d).keeps_contained ih)
  · intro _ t ih
    exact ih

/-- What is decided stays decided and is not built again. -/
theorem decided (h : KeepingRun s events t) {name : String} (hd : s.decided name = true) :
    t.decided name = true ∧ events.countP (Event.builds name) = 0 := by
  refine induction ⟨hd, rfl⟩ ?_ ?_ h
  · rintro events t b d ⟨hd, hc⟩
    have hs := request_served t b d
    refine ⟨hs.keeps_decided hd, ?_⟩
    rw [List.countP_append, hc, hs.count_builds, if_neg]
    rw [hd]
    exact fun hn => Bool.noConfusion hn.2
  · intro _ t ih
    exact ih

/-- The invariant behind a single build: a name that has been built is decided. -/
theorem builds_once (h : KeepingRun s events t) (name : String) :
    events.countP (Event.builds name) = 0 ∨
      events.countP (Event.builds name) = 1 ∧ t.decided name = true := by
  refine induction (.inl rfl) ?_ ?_ h
  · intro events t b d ih
    have hs := request_served t b d
    rw [List.countP_append, hs.count_builds]
    rcases ih with hc | ⟨hc, hd⟩
    · rw [hc, Nat.zero_add]
      split
      · next hn => exact .inr ⟨rfl, hn.1 ▸ hs.decides⟩
      · exact .inl rfl
    · rw [hc, if_neg (fun hn => Bool.noConfusion (hd.symm.trans hn.2))]
      exact .inr ⟨rfl, hs.keeps_decided hd⟩
  · intro _ t ih
    exact ih

end KeepingRun

/-- A failed build is remembered, and as long as it is, every request for the name is answered
by an error of the same category and changes nothing. -/
theorem failed_build_is_replayed {s t : Store} (hs : s.Consistent) {b : Builder} {d : Declaration}
    {e : CfgError} {later : List Event} (hd : s.decided d.qualifiedName = false)
    (he : (s.request b d).result = .error e) (h : KeepingRun (s.request b d).store later t)
    (hr : (t.failure? d.qualifiedName).isSome = true) (b' : Builder) {d' : Declaration}
    (hd' : d'.qualifiedName = d.qualifiedName) :
    (t.request b' d').store = t ∧
      ∃ e', (t.request b' d').result = .error e' ∧ e'.isResolution = e.isResolution := by
  have hserved := request_served s b d
  have hfailure := (hserved.failing hd he).2.1 d.qualifiedName
  rw [if_pos rfl] at hfailure
  have ht := Execution.consistent h (hserved.consistent hs)
  have hstill : t.failure? d'.qualifiedName = some (Diagnostic.ofError d.qualifiedName e) := by
    rcases h.keeps_failure hfailure with hf | hf
    · rw [hd', hf]
    · rw [ht.exclusive _ hf] at hr
      cases hr
  rw [request_of_failure ht hstill]
  exact ⟨rfl, _, rfl, Diagnostic.isResolution_replay _ e⟩

/-- Requests are memoized, however the builders behave: in every state that requests lead to, a
name has been built at most once, what is held is what later requests get, no name is both held
and failed, and a failed build is remembered and leaves everything held as it was. To build is to
call the builder one time: two builders that answer this call alike, whatever they would do if they
were called again or for another name, get the same reply. -/
theorem requests_are_memoized {config : StoreConfig} {s : Store} {events : List Event}
    (h : KeepingRun { config } events s) :
    -- the builder is called once for a name at most, and never for a member of a held class
    (∀ name, events.countP (Event.builds name) ≤ 1) ∧
    (∀ name ref cfg, s.find? name = some (.classType ref cfg) → ∀ m ∈ cfg.descendants,
      ∀ later t, KeepingRun s later t → later.countP (Event.builds m.qualifiedName) = 0) ∧
    -- where it is not called, it has no part in the reply
    (∀ b b' d, (s.request b d).events.countP (Event.builds d.qualifiedName) = 0 →
      s.request b' d = s.request b d) ∧
    -- where it is called, its part in the reply is one call, on the supply as it stands
    (∀ b b' d, b'.call d s.find? s.supply = b.call d s.find? s.supply →
      s.request b' d = s.request b d) ∧
    -- what is held stays held and answers every request
    (∀ name held, s.find? name = some held → ∀ later t, KeepingRun s later t →
      t.find? name = some held ∧
        ∀ b d, d.qualifiedName = name → (t.request b d).result = .ok held) ∧
    (∀ name, s.contains name = true → s.failure? name = none) ∧
    (∀ name held, s.find? name = some held → held.qualifiedName = name) ∧
    -- a build that fails
    ∀ b d e, (s.request b d).events.countP (Event.builds d.qualifiedName) ≠ 0 →
      (s.request b d).result = .error e →
      (s.request b d).store.cache = s.cache ∧
      (s.request b d).store.failure? d.qualifiedName =
        some (Diagnostic.ofError d.qualifiedName e) ∧
      (s.request b d).store.diagnostics =
        s.diagnostics ++ [Diagnostic.ofError d.qualifiedName e] ∧
      ∀ later t, KeepingRun (s.request b d).store later t →
        (t.failure? d.qualifiedName).isSome = true →
        ∀ b' d', d'.qualifiedName = d.qualifiedName →
          (t.request b' d').store = t ∧
            ∃ e', (t.request b' d').result = .error e' ∧ e'.isResolution = e.isResolution := by
  have hs := Execution.consistent h (initial_consistent config)
  have hcalled : ∀ b d, (s.request b d).events.countP (Event.builds d.qualifiedName) =
      if s.decided d.qualifiedName = false then 1 else 0 := by
    intro b d
    rw [(request_served s b d).count_builds]
    simp
  refine ⟨fun name => ?_, ?_, ?_, fun _ _ _ => request_congr, ?_, hs.exclusive, hs.keyed, ?_⟩
  · rcases h.builds_once name with hc | ⟨hc, -⟩
    · exact Nat.le_trans (Nat.le_of_eq hc) (Nat.zero_le 1)
    · exact Nat.le_of_eq hc
  · intro name ref cfg hf m hm later t hl
    have hd : s.decided m.qualifiedName = true :=
      decided_eq_true_iff.2 (.inl (hs.registered name ref cfg hf m hm))
    exact (hl.decided hd).2
  · intro b b' d hc
    cases hd : s.decided d.qualifiedName with
    | true => exact request_of_decided hs hd b b'
    | false =>
      rw [hcalled, if_pos hd] at hc
      cases hc
  · intro name held hf later t hl
    have ht := hl.keeps_held hf
    refine ⟨ht, fun b d hn => ?_⟩
    subst hn
    rw [request_of_held ht]
  · intro b d e hc he
    have hd : s.decided d.qualifiedName = false := by
      rw [hcalled] at hc
      split at hc
      · assumption
      · exact absurd rfl hc
    obtain ⟨hcache, hfailure, hdiagnostics⟩ := (request_served s b d).failing hd he
    refine ⟨hcache, ?_, hdiagnostics, ?_⟩
    · rw [hfailure, if_pos rfl]
    · intro later t hl hr b' d' hd'
      exact failed_build_is_replayed hs hd he hl hr b' hd'

def emptyFrontEnd : Builder where
  buildMethod d := throw (.resolution d.qualifiedName "no such declaration")
  buildField d := throw (.resolution d.qualifiedName "no such declaration")
  buildClass d _ := throw (.resolution d.qualifiedName "no such declaration")

def smallFrontEnd : Builder where
  buildMethod d := fun supply =>
    let a := Assembler.method supply .method "f" "f()" d.qualifiedName "void"
    (.ok a.toCfg, a.supply)
  buildField d := fun supply =>
    let a := Assembler.field supply .field "x" d.qualifiedName
    (.ok a.toCfg, a.supply)
  buildClass d _ := fun supply =>
    let c := Assembler.classType supply .classType "A" d.qualifiedName
    let a := Assembler.method c.supply .method "f" "f()" (d.qualifiedName ++ ".f") "void"
    let (ref, supply) := a.supply.newRef
    (.ok (c.toClass.add (.method ref a.toCfg)).2, supply)

/-- A front end that has an answer on one supply only, so that a second call would fail. -/
def singleUse (b : Builder) (supply : Supply) : Builder where
  buildMethod d := fun given =>
    if given = supply then b.buildMethod d given
    else (.error (.resolution d.qualifiedName "called again"), given)
  buildField d := fun given =>
    if given = supply then b.buildField d given
    else (.error (.resolution d.qualifiedName "called again"), given)
  buildClass d known := fun given =>
    if given = supply then b.buildClass d known given
    else (.error (.resolution d.qualifiedName "called again"), given)

theorem call_singleUse (b : Builder) (d : Declaration) (known : Lookup) (supply : Supply) :
    (singleUse b supply).call d known supply = b.call d known supply := by
  have hfirst : ∀ {α : Type} (answer other : α),
      (if supply = supply then answer else other) = answer := fun _ _ => if_pos rfl
  unfold Builder.call
  split
  · exact congrArg Sum.inl (hfirst _ _)
  · exact congrArg Sum.inl (hfirst _ _)
  · exact congrArg Sum.inr (hfirst _ _)

/-- A method that failed is held once its class is built; another failure is replayed. A class of
a front end that cannot be called again is built like any other. -/
theorem requests_are_memoized_after_failure :
    ∃ events s, KeepingRun { config := {} } events s ∧
      events.countP (Event.builds "A.f") ≤ 1 ∧ s.contains "A.f" = true ∧
      s.failure? "A.f" = none ∧
      s.request (singleUse smallFrontEnd s.supply) ⟨.classType, "C"⟩ =
        s.request smallFrontEnd ⟨.classType, "C"⟩ ∧
      let t := (s.request emptyFrontEnd ⟨.field, "B.x"⟩).store
      t.cache = s.cache ∧ (t.request smallFrontEnd ⟨.method, "B.x"⟩).store = t ∧
        ∃ e, (t.request smallFrontEnd ⟨.method, "B.x"⟩).result = .error e ∧
          e.isResolution = true := by
  have h₀ : KeepingRun { config := {} } [] { config := {} } := .nil _
  have h := (h₀.request emptyFrontEnd ⟨.method, "A.f"⟩).request smallFrontEnd ⟨.classType, "A"⟩
  obtain ⟨honce, -, -, hcall, -, hexclusive, -, hfailing⟩ := requests_are_memoized h
  obtain ⟨hcache, -, -, hreplay⟩ :=
    hfailing emptyFrontEnd ⟨.field, "B.x"⟩ _ (by decide) rfl
  exact ⟨_, _, h, honce "A.f", rfl, hexclusive "A.f" rfl,
    hcall _ _ ⟨.classType, "C"⟩ (call_singleUse ..), hcache,
    hreplay _ _ (.nil _) rfl smallFrontEnd ⟨.method, "B.x"⟩ rfl⟩

end Store

end ProgramFlow
