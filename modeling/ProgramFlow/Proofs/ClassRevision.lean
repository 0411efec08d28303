import ProgramFlow.Proofs.ClassTree

/-! What becomes of a class whose members are replaced, by adoption or by the computation of
blocks. Both go over a forest in the same manner, which `Replaces` says once: the entry and the
names stay, and a graph is made again unless the graphs of all members are the same as before. A
property of objects that survives such a revision holds throughout a forest afterwards if it did
before. -/
namespace ProgramFlow

structure Supply.OnlyRefs (s t : Supply) : Prop where
  ids : t.ids = s.ids
  links : t.nextLink = s.nextLink
  refs : s.nextRef ≤ t.nextRef

namespace Supply.OnlyRefs

theorem refl (s : Supply) : s.OnlyRefs s := ⟨rfl, rfl, Nat.le_refl _⟩

theorem trans {s t u : Supply} (h : s.OnlyRefs t) (h' : t.OnlyRefs u) : s.OnlyRefs u :=
  ⟨h'.ids.trans h.ids, h'.links.trans h.links, Nat.le_trans h.refs h'.refs⟩

theorem newRef (s : Supply) : s.OnlyRefs s.newRef.2 := ⟨rfl, rfl, Nat.le_succ _⟩

end Supply.OnlyRefs

namespace ClassCfg

def revise (c : ClassCfg) (count : Nat) (members : List SharedCfg) : ClassCfg :=
  let changed : ClassCfg := { c with members }
  if count > 0 then changed.relink else changed

theorem adopt_eq (known : Lookup) (supply : Supply) (c : ClassCfg) :
    c.adopt known supply =
      let out := SharedCfg.adoptAll known supply c.members
      (out.1, c.revise out.1 out.2.1, out.2.2) := by
  cases c
  simp [ClassCfg.adopt, revise]

theorem computeMemberBlocks_eq (supply : Supply) (c : ClassCfg) :
    c.computeMemberBlocks supply =
      let out := SharedCfg.computeAllBlocks supply c.members
      (out.1, c.revise out.1 out.2.1, out.2.2) := by
  cases c
  simp [ClassCfg.computeMemberBlocks, revise]

@[simp] theorem own_revise (c : ClassCfg) (count : Nat) (members : List SharedCfg) :
    (c.revise count members).own = c.own := by
  unfold revise
  split <;> rfl

@[simp] theorem members_revise (c : ClassCfg) (count : Nat) (members : List SharedCfg) :
    (c.revise count members).members = members := by
  unfold revise
  split <;> rfl

theorem flow_revise_pos (c : ClassCfg) {count : Nat} (h : count > 0) (members : List SharedCfg) :
    (c.revise count members).flow = union c.own c.memberNames members := by
  unfold revise
  rw [if_pos h]
  rfl

theorem qualifiedName_revise (c : ClassCfg) (count : Nat) (members : List SharedCfg) :
    (c.revise count members).qualifiedName = c.qualifiedName := by
  unfold revise
  split
  · exact relink_qualifiedName _
  · rfl

structure Revised (c c' : ClassCfg) : Prop where
  own : c'.own = c.own
  names : c'.members.map SharedCfg.qualifiedName = c.members.map SharedCfg.qualifiedName
  flow : c'.flow = c.flow ∧ c'.members.map SharedCfg.flow = c.members.map SharedCfg.flow ∨
    c'.flow = union c.own c.memberNames c'.members

end ClassCfg

namespace SharedCfg

/-- A walk over a forest that leaves objects as they are, takes known ones in their place, or
gives them a new identity after work on the graph or on what lies inside. The result holds the
number of changes, the new forest and what is left of the supply. -/
inductive Replaces (known : Lookup) :
    Supply → List SharedCfg → Nat × List SharedCfg × Supply → Prop where
  | nil {s} : Replaces known s [] (0, [], s)
  | kept {s m rest out} (hr : Replaces known s rest out) :
      Replaces known s (m :: rest) (0 + out.1, m :: out.2.1, out.2.2)
  | taken {s m held rest out} (h : known m.qualifiedName = some held)
      (hr : Replaces known s rest out) :
      Replaces known s (m :: rest) (1 + out.1, held :: out.2.1, out.2.2)
  | method {s ref cfg rest out} (hr : Replaces known s.newRef.2 rest out) :
      Replaces known s (.method ref cfg :: rest)
        (1 + out.1, .method s.newRef.1 cfg.computeBlocks :: out.2.1, out.2.2)
  | classType {s ref cfg inner rest out} (hi : Replaces known s cfg.members inner)
      (hr : Replaces known inner.2.2.newRef.2 rest out) :
      Replaces known s (.classType ref cfg :: rest)
        (inner.1 + out.1, .classType inner.2.2.newRef.1 (cfg.revise inner.1 inner.2.1) :: out.2.1,
          out.2.2)

theorem adoptAll_replaces (known : Lookup) (supply : Supply) (forest : List SharedCfg) :
    Replaces known supply forest (adoptAll known supply forest) := by
  induction forest using forest_induction generalizing supply with
  | nil =>
    rw [adoptAll]
    exact .nil
  | cons head rest ihi ihr =>
    cases head with
    | method ref cfg =>
      cases hh : known cfg.qualifiedName with
      | none =>
        simp only [adoptAll, SharedCfg.adopt, hh]
        exact .kept (ihr supply)
      | some held =>
        by_cases hs : held.same (.method ref cfg) = true
        · simp only [adoptAll, SharedCfg.adopt, hh, hs, if_true]
          exact .kept (ihr supply)
        · simp only [adoptAll, SharedCfg.adopt, hh, hs]
          exact .taken hh (ihr supply)
    | classType ref cfg =>
      cases hh : known cfg.qualifiedName with
      | none =>
        by_cases hw : cfg.wouldAdopt known = true
        · simp only [adoptAll, SharedCfg.adopt, hh, hw, if_true, ClassCfg.adopt_eq]
          exact .classType (ihi supply) (ihr _)
        · simp only [adoptAll, SharedCfg.adopt, hh, hw]
          exact .kept (ihr supply)
      | some held =>
        by_cases hs : held.same (.classType ref cfg) = true
        · simp only [adoptAll, SharedCfg.adopt, hh, hs, if_true]
          exact .kept (ihr supply)
        · simp only [adoptAll, SharedCfg.adopt, hh, hs]
          exact .taken hh (ihr supply)

theorem computeAllBlocks_replaces (known : Lookup) (supply : Supply) (forest : List SharedCfg) :
    Replaces known supply forest (computeAllBlocks supply forest) := by
  induction forest using forest_induction generalizing supply with
  | nil =>
    rw [computeAllBlocks]
    exact .nil
  | cons head rest ihi ihr =>
    cases head with
    | method ref cfg =>
      by_cases hb : cfg.hasBlocks = true
      · simp only [computeAllBlocks, SharedCfg.computeBlocks, hb, if_true]
        exact .kept (ihr supply)
      · simp only [computeAllBlocks, SharedCfg.computeBlocks, hb]
        exact .method (ihr _)
    | classType ref cfg =>
      by_cases hn : cfg.needsBlocks = true
      · simp only [computeAllBlocks, SharedCfg.computeBlocks, hn, if_true,
          ClassCfg.computeMemberBlocks_eq]
        exact .classType (ihi supply) (ihr _)
      · simp only [computeAllBlocks, SharedCfg.computeBlocks, hn]
        exact .kept (ihr supply)

namespace Replaces

variable {known : Lookup} {s : Supply} {forest : List SharedCfg}
  {out : Nat × List SharedCfg × Supply}

theorem onlyRefs (h : Replaces known s forest out) : s.OnlyRefs out.2.2 := by
  induction h with
  | nil => exact .refl _
  | kept _ ih => exact ih
  | taken _ _ ih => exact ih
  | method _ ih => exact (Supply.OnlyRefs.newRef _).trans ih
  | classType _ _ ihi ihr => exact ihi.trans ((Supply.OnlyRefs.newRef _).trans ihr)

theorem names (hk : known.Keyed) (h : Replaces known s forest out) :
    out.2.1.map qualifiedName = forest.map qualifiedName := by
  induction h with
  | nil => rfl
  | kept _ ih => rw [List.map_cons, List.map_cons, ih]
  | taken h _ ih => rw [List.map_cons, List.map_cons, ih, hk _ _ h]
  | method _ ih =>
    rw [List.map_cons, List.map_cons, ih]
    rfl
  | classType _ _ _ ihr =>
    rw [List.map_cons, List.map_cons, ihr]
    exact congrArg (· :: _) (ClassCfg.qualifiedName_revise ..)

/-- Where nothing is new, no graph is made again. -/
theorem flows (h : Replaces known s forest out) (h0 : out.1 = 0) :
    out.2.1.map SharedCfg.flow = forest.map SharedCfg.flow := by
  induction h with
  | nil => rfl
  | kept _ ih =>
    rw [List.map_cons, List.map_cons, ih (by simpa using h0)]
  | taken | method => exact absurd h0 (by simp)
  | @classType _ _ cfg inner _ _ _ _ _ ihr =>
    obtain ⟨hi, hr⟩ := Nat.add_eq_zero_iff.1 h0
    rw [List.map_cons, List.map_cons, ihr hr, hi]
    rfl

theorem revised {c : ClassCfg} (hk : known.Keyed) (h : Replaces known s c.members out) :
    c.Revised (c.revise out.1 out.2.1) := by
  refine ⟨c.own_revise .., ?_, ?_⟩
  · rw [c.members_revise]
    exact h.names hk
  · rw [c.members_revise]
    rcases Nat.eq_zero_or_pos out.1 with h0 | hpos
    · left
      rw [h0]
      exact ⟨rfl, h.flows h0⟩
    · exact .inr (c.flow_revise_pos hpos _)

end Replaces

/-- A property that objects keep when they are replaced by a revision of theirs. The number bounds
the identities handed out, from which a new object gets the next one. -/
structure Lasting (Q : Nat → SharedCfg → Prop) : Prop where
  mono : ∀ {n n' m}, n ≤ n' → Q n m → Q n' m
  computed : ∀ {n ref cfg}, Q n (.method ref cfg) → Q (n + 1) (.method ⟨n⟩ cfg.computeBlocks)
  revised : ∀ {n ref cfg cfg'}, ClassCfg.Revised cfg cfg' → Q n (.classType ref cfg) →
    Q (n + 1) (.classType ⟨n⟩ cfg')

theorem Lasting.replaces {Q : Nat → SharedCfg → Prop} (hQ : Lasting Q) {known : Lookup}
    (hk : known.Keyed) {s : Supply} {forest : List SharedCfg} {out : Nat × List SharedCfg × Supply}
    (h : Replaces known s forest out)
    (hknown : ∀ name held, known name = some held → ∀ m ∈ descendantsOf [held], Q s.nextRef m)
    (hforest : ∀ m ∈ descendantsOf forest, Q s.nextRef m) :
    ∀ m ∈ descendantsOf out.2.1, Q out.2.2.nextRef m := by
  induction h with
  | nil => simp
  | kept hr ih =>
    simp only [descendantsOf_cons, List.forall_mem_cons, List.forall_mem_append] at hforest ⊢
    obtain ⟨hhead, hin, hrest⟩ := hforest
    have hle := hr.onlyRefs.refs
    exact ⟨hQ.mono hle hhead, fun m hm => hQ.mono hle (hin m hm), ih hknown hrest⟩
  | taken hh hr ih =>
    have hheld := hknown _ _ hh
    simp only [descendantsOf_cons, descendantsOf_nil, List.append_nil, List.forall_mem_cons,
      List.forall_mem_append] at hforest hheld ⊢
    have hle := hr.onlyRefs.refs
    exact ⟨hQ.mono hle hheld.1, fun m hm => hQ.mono hle (hheld.2 m hm), ih hknown hforest.2.2⟩
  | @method s ref cfg rest out hr ih =>
    simp only [descendantsOf_cons, List.forall_mem_cons, List.forall_mem_append] at hforest ⊢
    obtain ⟨hhead, -, hrest⟩ := hforest
    have hle : s.nextRef ≤ s.newRef.2.nextRef := Nat.le_succ _
    refine ⟨hQ.mono hr.onlyRefs.refs (hQ.computed hhead), by simp, ih ?_ ?_⟩
    · exact fun name held h m hm => hQ.mono hle (hknown name held h m hm)
    · exact fun m hm => hQ.mono hle (hrest m hm)
  | @classType s ref cfg inner rest out hi hr ihi ihr =>
    simp only [descendantsOf_cons, inside_classType, List.forall_mem_cons,
      List.forall_mem_append] at hforest ⊢
    obtain ⟨hhead, hin, hrest⟩ := hforest
    have hinner := hi.onlyRefs.refs
    have hle : s.nextRef ≤ inner.2.2.newRef.2.nextRef := Nat.le_succ_of_le hinner
    have hlast := hr.onlyRefs.refs
    refine ⟨?_, ?_, ihr ?_ ?_⟩
    · exact hQ.mono hlast (hQ.revised (hi.revised hk) (hQ.mono hinner hhead))
    · rw [cfg.members_revise]
      exact fun m hm => hQ.mono (Nat.le_trans (Nat.le_succ _) hlast) (ihi hknown hin m hm)
    · exact fun name held h m hm => hQ.mono hle (hknown name held h m hm)
    · exact fun m hm => hQ.mono hle (hrest m hm)

end SharedCfg

namespace ClassCfg

theorem adopt_revised {known : Lookup} (hk : known.Keyed) (supply : Supply) (c : ClassCfg) :
    c.Revised (c.adopt known supply).2.1 := by
  rw [adopt_eq]
  exact (SharedCfg.adoptAll_replaces known supply c.members).revised hk

theorem computeMemberBlocks_revised (supply : Supply) (c : ClassCfg) :
    c.Revised (c.computeMemberBlocks supply).2.1 := by
  rw [computeMemberBlocks_eq]
  -- nothing is looked up here, so any lookup that answers under the right names will do
  have hk : Lookup.Keyed fun _ => none := fun _ _ h => by cases h
  exact (SharedCfg.computeAllBlocks_replaces _ supply c.members).revised hk

end ClassCfg

namespace SharedCfg.Lasting

variable {Q : Nat → SharedCfg → Prop} (hQ : Lasting Q)

include hQ

theorem adopt {known : Lookup} (hk : known.Keyed) {supply : Supply} {c : ClassCfg}
    (hknown : ∀ name held, known name = some held →
      ∀ m ∈ descendantsOf [held], Q supply.nextRef m)
    (hc : ∀ m ∈ c.descendants, Q supply.nextRef m) :
    ∀ m ∈ (c.adopt known supply).2.1.descendants, Q (c.adopt known supply).2.2.nextRef m := by
  rw [ClassCfg.descendants_eq] at hc ⊢
  rw [ClassCfg.adopt_eq, ClassCfg.members_revise]
  exact hQ.replaces hk (adoptAll_replaces known supply c.members) hknown hc

theorem computeMemberBlocks {supply : Supply} {c : ClassCfg}
    (hc : ∀ m ∈ c.descendants, Q supply.nextRef m) :
    ∀ m ∈ (c.computeMemberBlocks supply).2.1.descendants,
      Q (c.computeMemberBlocks supply).2.2.nextRef m := by
  rw [ClassCfg.descendants_eq] at hc ⊢
  rw [ClassCfg.computeMemberBlocks_eq, ClassCfg.members_revise]
  have hk : Lookup.Keyed fun _ => none := fun _ _ h => by cases h
  exact hQ.replaces hk (computeAllBlocks_replaces _ supply c.members)
    (fun _ _ h => by cases h) hc

end SharedCfg.Lasting

end ProgramFlow
