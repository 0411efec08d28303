import ProgramFlow.Assembler
import ProgramFlow.Proofs.ClassRevision
import ProgramFlow.Proofs.Partition

/-! Passes over a class that a test announces. Adoption and the computation of blocks each make a
new object of a nested class only if a test says that something inside it will change. The test is
right in every case: a pass changes something exactly if it is announced, and nothing is announced
for what a pass leaves behind, so that one pass does all there is to do. -/
namespace ProgramFlow

namespace SharedCfg

variable {known : Lookup} {forest : List SharedCfg}

section Adoption

/-- The objects of a forest that lie outside the classes known by their names. -/
inductive Searched (known : Lookup) (forest : List SharedCfg) : SharedCfg → Prop where
  | direct {m} (hm : m ∈ forest) : Searched known forest m
  | inner {outer m} (ho : Searched known forest outer) (hu : known outer.qualifiedName = none)
      (hm : m ∈ outer.inside) : Searched known forest m

theorem Searched.mono {forest' : List SharedCfg} (hsub : ∀ m ∈ forest, Searched known forest' m)
    {m : SharedCfg} (h : Searched known forest m) : Searched known forest' m := by
  induction h with
  | direct hm => exact hsub _ hm
  | inner _ hu hm ih => exact .inner ih hu hm

theorem searched_cons {m x : SharedCfg} {rest : List SharedCfg} :
    Searched known (m :: rest) x ↔
      x = m ∨ known m.qualifiedName = none ∧ Searched known m.inside x ∨ Searched known rest x := by
  constructor
  · intro h
    induction h with
    | direct hm =>
      rcases List.mem_cons.1 hm with rfl | hm
      · exact .inl rfl
      · exact .inr (.inr (.direct hm))
    | inner _ hu hm ih =>
      rcases ih with rfl | ⟨hm', ih⟩ | ih
      · exact .inr (.inl ⟨hu, .direct hm⟩)
      · exact .inr (.inl ⟨hm', .inner ih hu hm⟩)
      · exact .inr (.inr (.inner ih hu hm))
  · have hhead : Searched known (m :: rest) m := .direct List.mem_cons_self
    rintro (rfl | ⟨hu, hx⟩ | hx)
    · exact hhead
    · exact hx.mono fun y hy => .inner hhead hu hy
    · exact hx.mono fun y hy => .direct (List.mem_cons_of_mem m hy)

theorem Searched.mem_descendantsOf {m : SharedCfg} (h : Searched known forest m) :
    m ∈ descendantsOf forest := by
  induction h with
  | @direct m hm => exact SharedCfg.mem_descendantsOf.2 ⟨m, hm, mem_descendantsOf_cons.2 (.inl rfl)⟩
  | inner _ _ hm ih =>
    exact descendantsOf_trans ih
      (SharedCfg.mem_descendantsOf.2 ⟨_, hm, mem_descendantsOf_cons.2 (.inl rfl)⟩)

theorem not_searched_nil {m : SharedCfg} : ¬ Searched known [] m := by
  intro h
  induction h with
  | direct hm => cases hm
  | inner _ _ _ ih => exact ih

theorem anyWouldAdopt_cons (m : SharedCfg) (rest : List SharedCfg) :
    anyWouldAdopt known (m :: rest) = (m.wouldAdopt known || anyWouldAdopt known rest) := by
  rw [anyWouldAdopt]

/-- Where nothing is announced, each name that is known stands for the known object already. -/
theorem same_of_not_wouldAdopt (h : anyWouldAdopt known forest = false) {m held : SharedCfg}
    (hm : Searched known forest m) (hheld : known m.qualifiedName = some held) :
    held.same m = true := by
  induction forest using forest_induction with
  | nil => exact absurd hm not_searched_nil
  | cons head rest ihi ihr =>
    rw [anyWouldAdopt_cons, Bool.or_eq_false_iff] at h
    rcases searched_cons.1 hm with rfl | ⟨hu, hm⟩ | hm
    · rw [wouldAdopt_of_known hheld, Bool.not_eq_false'] at h
      exact h.1
    · rw [wouldAdopt_of_unknown hu] at h
      exact ihi h.1 hm
    · exact ihr h.2 hm

theorem adopt_eq_of_known {m held : SharedCfg} (h : known m.qualifiedName = some held)
    (supply : Supply) :
    m.adopt known supply = if held.same m then (0, m, supply) else (1, held, supply) := by
  cases m with
  | method ref cfg =>
    change known cfg.qualifiedName = some held at h
    simp only [SharedCfg.adopt, h]
  | classType ref cfg =>
    change known cfg.qualifiedName = some held at h
    simp only [SharedCfg.adopt, h]

theorem adopt_eq_of_unknown {m : SharedCfg} (h : known m.qualifiedName = none) (supply : Supply) :
    m.wouldAdopt known = false ∧ m.adopt known supply = (0, m, supply) ∨
      ∃ ref cfg, m = .classType ref cfg ∧ m.wouldAdopt known = true ∧
        m.adopt known supply =
          let out := cfg.adopt known supply
          (out.1, .classType out.2.2.newRef.1 out.2.1, out.2.2.newRef.2) := by
  cases m with
  | method ref cfg =>
    change known cfg.qualifiedName = none at h
    left
    simp only [SharedCfg.wouldAdopt, SharedCfg.adopt, h, and_self]
  | classType ref cfg =>
    change known cfg.qualifiedName = none at h
    simp only [SharedCfg.wouldAdopt, SharedCfg.adopt, h]
    cases hw : cfg.wouldAdopt known with
    | false => exact .inl ⟨rfl, rfl⟩
    | true => exact .inr ⟨ref, cfg, rfl, rfl, rfl⟩

theorem adopt_of_not_wouldAdopt {m : SharedCfg} (h : m.wouldAdopt known = false)
    (supply : Supply) : m.adopt known supply = (0, m, supply) := by
  cases hh : known m.qualifiedName with
  | none =>
    rcases adopt_eq_of_unknown hh supply with ⟨-, he⟩ | ⟨_, _, -, hw, -⟩
    · exact he
    · rw [h] at hw
      cases hw
  | some held =>
    rw [wouldAdopt_of_known hh, Bool.not_eq_false'] at h
    rw [adopt_eq_of_known hh, if_pos h]

theorem adoptAll_of_not_wouldAdopt (h : anyWouldAdopt known forest = false) (supply : Supply) :
    adoptAll known supply forest = (0, forest, supply) := by
  induction forest with
  | nil => rw [adoptAll]
  | cons m rest ih =>
    rw [anyWouldAdopt_cons, Bool.or_eq_false_iff] at h
    simp only [adoptAll, adopt_of_not_wouldAdopt h.1, ih h.2]

theorem count_adoptAll_pos (h : anyWouldAdopt known forest = true) (supply : Supply) :
    0 < (adoptAll known supply forest).1 := by
  induction forest using forest_induction generalizing supply with
  | nil => simp [anyWouldAdopt] at h
  | cons head rest ihi ihr =>
    rw [anyWouldAdopt_cons, Bool.or_eq_true] at h
    simp only [adoptAll]
    rcases h with h | h
    · refine Nat.add_pos_left ?_ _
      cases hh : known head.qualifiedName with
      | none =>
        rcases adopt_eq_of_unknown hh supply with ⟨hw, -⟩ | ⟨ref, cfg, rfl, -, he⟩
        · rw [h] at hw
          cases hw
        · rw [he, ClassCfg.adopt_eq]
          rw [wouldAdopt_of_unknown hh] at h
          exact ihi h supply
      | some held =>
        rw [wouldAdopt_of_known hh, Bool.not_eq_true'] at h
        rw [adopt_eq_of_known hh, h]
        exact Nat.one_pos
    · exact Nat.add_pos_right _ (ihr h _)

theorem anyWouldAdopt_adoptAll (hk : known.Keyed) (forest : List SharedCfg) (supply : Supply) :
    anyWouldAdopt known (adoptAll known supply forest).2.1 = false := by
  induction forest using forest_induction generalizing supply with
  | nil => rw [adoptAll_nil, anyWouldAdopt]
  | cons head rest ihi ihr =>
    rw [adoptAll_cons, anyWouldAdopt_cons, ihr, Bool.or_false]
    cases hh : known head.qualifiedName with
    | none =>
      rcases adopt_eq_of_unknown hh supply with ⟨hw, he⟩ | ⟨ref, cfg, rfl, -, he⟩
      · rw [he]
        exact hw
      · have hname : known (cfg.adopt known supply).2.1.qualifiedName = none :=
          (cfg.qualifiedName_adopt known supply).symm ▸ hh
        rw [he, wouldAdopt_of_unknown hname, inside_classType, ClassCfg.members_adopt]
        exact ihi supply
    | some held =>
      rw [adopt_eq_of_known hh]
      cases hs : held.same head with
      | true =>
        rw [if_pos rfl, wouldAdopt_of_known hh, hs]
        rfl
      | false =>
        -- the known object is known by the name it was asked for
        have hheld : known held.qualifiedName = some held := (hk _ _ hh).symm ▸ hh
        rw [if_neg Bool.false_ne_true, wouldAdopt_of_known hheld]
        simp [same]

/-- Under a known name there is the known object, or one that was there before. -/
theorem held_or_kept (hk : known.Keyed) (supply : Supply) {m held : SharedCfg}
    (hm : Searched known (adoptAll known supply forest).2.1 m)
    (hheld : known m.qualifiedName = some held) : m = held ∨ m ∈ descendantsOf forest := by
  induction forest using forest_induction generalizing supply with
  | nil =>
    rw [adoptAll_nil] at hm
    exact absurd hm not_searched_nil
  | cons head rest ihi ihr =>
    rw [mem_descendantsOf_cons]
    rw [adoptAll_cons] at hm
    rcases searched_cons.1 hm with rfl | ⟨hu, hm⟩ | hm
    · -- the head of the result is the head, its known object, or a class that is not known
      cases hh : known head.qualifiedName with
      | none =>
        rcases adopt_eq_of_unknown hh supply with ⟨-, he⟩ | ⟨ref, cfg, rfl, -, he⟩
        · exact .inr (.inl (congrArg (·.2.1) he))
        · rw [he] at hheld
          have hname := hheld.symm.trans (congrArg known (cfg.qualifiedName_adopt known supply))
          exact absurd (hname.trans hh) (Option.some_ne_none held)
      | some known' =>
        rw [adopt_eq_of_known hh] at hheld ⊢
        cases hs : known'.same head with
        | true => exact .inr (.inl rfl)
        | false =>
          rw [hs, if_neg Bool.false_ne_true, hk _ _ hh, hh] at hheld
          exact .inl (Option.some.inj hheld)
    · cases hh : known head.qualifiedName with
      | none =>
        rcases adopt_eq_of_unknown hh supply with ⟨-, he⟩ | ⟨ref, cfg, rfl, -, he⟩
        · rw [he] at hm
          exact .inr (.inr (.inl hm.mem_descendantsOf))
        · rw [he, inside_classType, ClassCfg.members_adopt] at hm
          exact (ihi supply hm).imp_right fun hm => .inr (.inl hm)
      | some known' =>
        rw [adopt_eq_of_known hh] at hu
        split at hu
        · rw [hh] at hu
          cases hu
        · rw [hk _ _ hh, hh] at hu
          cases hu
    · exact (ihr _ hm).imp_right fun hm => .inr (.inr hm)

end Adoption

section Blocks

theorem computeAllBlocks_of_not_needs (h : anyNeedsBlocks forest = false) (supply : Supply) :
    computeAllBlocks supply forest = (0, forest, supply) := by
  induction forest with
  | nil => rw [computeAllBlocks]
  | cons m rest ih =>
    rw [anyNeedsBlocks_cons, Bool.or_eq_false_iff] at h
    simp only [computeAllBlocks, computeBlocks_of_not_needs supply h.1, ih h.2]

theorem count_computeAllBlocks_pos (h : anyNeedsBlocks forest = true) (supply : Supply) :
    0 < (computeAllBlocks supply forest).1 := by
  induction forest using forest_induction generalizing supply with
  | nil => simp at h
  | cons head rest ihi ihr =>
    rw [anyNeedsBlocks_cons, Bool.or_eq_true] at h
    simp only [computeAllBlocks]
    rcases h with h | h
    · refine Nat.add_pos_left ?_ _
      cases head with
      | method ref cfg =>
        rw [needsBlocks_method, Bool.not_eq_true'] at h
        rw [SharedCfg.computeBlocks, h]
        exact Nat.one_pos
      | classType ref cfg =>
        rw [needsBlocks_classType] at h
        rw [SharedCfg.computeBlocks, ClassCfg.needsBlocks_eq, if_pos h,
          ClassCfg.computeMemberBlocks_eq]
        exact ihi h supply
    · exact Nat.add_pos_right _ (ihr h _)

/-- Behind a pass nothing lacks blocks, since every graph that has a node has a block. -/
theorem anyNeedsBlocks_computeAllBlocks (supply : Supply)
    (h : ∀ ref cfg, .method ref cfg ∈ descendantsOf forest → cfg.flow.nodeIds ≠ []) :
    anyNeedsBlocks (computeAllBlocks supply forest).2.1 = false :=
  (computes_computeAllBlocks supply forest).needs_no_blocks fun ref cfg hm =>
    .inr (Cfg.hasBlocks_computeBlocks (h ref cfg hm))

end Blocks

end SharedCfg

namespace ClassCfg

variable {known : Lookup}

theorem revise_zero (c : ClassCfg) : c.revise 0 c.members = c := by
  cases c
  rfl

theorem adopt_of_not_wouldAdopt {c : ClassCfg} (h : c.wouldAdopt known = false) (supply : Supply) :
    c.adopt known supply = (0, c, supply) := by
  rw [wouldAdopt_eq] at h
  simp only [adopt_eq, SharedCfg.adoptAll_of_not_wouldAdopt h, revise_zero]

theorem computeMemberBlocks_of_not_needs {c : ClassCfg} (h : c.needsBlocks = false)
    (supply : Supply) : c.computeMemberBlocks supply = (0, c, supply) := by
  rw [needsBlocks_eq] at h
  simp only [computeMemberBlocks_eq, SharedCfg.computeAllBlocks_of_not_needs h, revise_zero]

theorem count_adopt_ne_zero_iff (c : ClassCfg) (supply : Supply) :
    (c.adopt known supply).1 ≠ 0 ↔ c.wouldAdopt known = true := by
  cases h : c.wouldAdopt known with
  | false => simp [adopt_of_not_wouldAdopt h]
  | true =>
    rw [wouldAdopt_eq] at h
    rw [adopt_eq]
    simpa using Nat.ne_of_gt (SharedCfg.count_adoptAll_pos h supply)

theorem count_computeMemberBlocks_ne_zero_iff (c : ClassCfg) (supply : Supply) :
    (c.computeMemberBlocks supply).1 ≠ 0 ↔ c.needsBlocks = true := by
  cases h : c.needsBlocks with
  | false => simp [computeMemberBlocks_of_not_needs h]
  | true =>
    rw [needsBlocks_eq] at h
    rw [computeMemberBlocks_eq]
    simpa using Nat.ne_of_gt (SharedCfg.count_computeAllBlocks_pos h supply)

theorem wouldAdopt_adopt (hk : known.Keyed) (c : ClassCfg) (supply : Supply) :
    (c.adopt known supply).2.1.wouldAdopt known = false := by
  rw [wouldAdopt_eq, members_adopt]
  exact SharedCfg.anyWouldAdopt_adoptAll hk c.members supply

/-- Both tests tell beforehand whether their pass changes anything, and one pass leaves nothing to
be done. Adoption counts something exactly if it is announced, and where it counts nothing, it
leaves the class with every object inside it as it is. Behind it nothing is announced, a second one
changes nothing, and every object outside the known classes whose name is known has the identity of
the known one: it is that one, or has been there before. Blocks are computed exactly if some are
lacking; behind that every method has blocks, and a second computation changes nothing. -/
theorem passes_are_announced (hk : known.Keyed) (supply : Supply) (c : ClassCfg)
    (hnodes : ∀ ref cfg, .method ref cfg ∈ c.descendants → cfg.flow.nodeIds ≠ []) :
    let adopted := c.adopt known supply
    let computed := c.computeMemberBlocks supply
    (adopted.1 ≠ 0 ↔ c.wouldAdopt known = true) ∧
    (adopted.1 = 0 → adopted = (0, c, supply)) ∧
    adopted.2.1.wouldAdopt known = false ∧
    (∀ later, adopted.2.1.adopt known later = (0, adopted.2.1, later)) ∧
    (∀ m held, SharedCfg.Searched known adopted.2.1.members m →
      known m.qualifiedName = some held →
        held.same m = true ∧ (m = held ∨ m ∈ c.descendants)) ∧
    (computed.1 ≠ 0 ↔ c.needsBlocks = true) ∧
    (computed.1 = 0 → computed = (0, c, supply)) ∧
    (∀ ref cfg, .method ref cfg ∈ computed.2.1.descendants → cfg.hasBlocks = true) ∧
    ∀ later, computed.2.1.computeMemberBlocks later = (0, computed.2.1, later) := by
  intro adopted computed
  have hadopted : adopted.2.1.wouldAdopt known = false := wouldAdopt_adopt hk c supply
  have hcomputed : computed.2.1.needsBlocks = false := by
    rw [needsBlocks_eq, members_computeMemberBlocks]
    rw [descendants_eq] at hnodes
    exact SharedCfg.anyNeedsBlocks_computeAllBlocks supply hnodes
  refine ⟨count_adopt_ne_zero_iff c supply, ?_, hadopted, adopt_of_not_wouldAdopt hadopted, ?_,
    count_computeMemberBlocks_ne_zero_iff c supply, ?_, ?_,
    computeMemberBlocks_of_not_needs hcomputed⟩
  · intro hzero
    apply adopt_of_not_wouldAdopt
    rw [← Bool.not_eq_true, ← count_adopt_ne_zero_iff c supply]
    exact not_not_intro hzero
  · intro m held hm hheld
    constructor
    · rw [wouldAdopt_eq] at hadopted
      exact SharedCfg.same_of_not_wouldAdopt hadopted hm hheld
    · rw [members_adopt] at hm
      rw [descendants_eq]
      exact SharedCfg.held_or_kept hk supply hm hheld
  · intro hzero
    apply computeMemberBlocks_of_not_needs
    rw [← Bool.not_eq_true, ← count_computeMemberBlocks_ne_zero_iff c supply]
    exact not_not_intro hzero
  · intro ref cfg hm
    rw [needsBlocks_eq] at hcomputed
    rw [descendants_eq] at hm
    have hblocks := SharedCfg.needs_no_blocks_of_mem hcomputed _ hm
    rwa [SharedCfg.needsBlocks_method, Bool.not_eq_false'] at hblocks

def announcedClass : ClassCfg :=
  let f := Assembler.method ⟨⟨3⟩, 2, 0⟩ .method "f" "f()" "A.f" "void"
  let g := Assembler.method ⟨⟨7⟩, 6, 0⟩ .method "g" "g()" "A.B.g" "void"
  let b := (Assembler.classType ⟨⟨5⟩, 4, 0⟩ .classType "B" "A.B").toClass
  let nested := (b.add (.method ⟨0⟩ g.toCfg)).2
  let a := (Assembler.classType {} .classType "A" "A").toClass
  ((a.add (.method ⟨1⟩ f.toCfg)).2.add (.classType ⟨2⟩ nested)).2

def announcedLookup : Lookup := fun name =>
  if name = "A.B.g" then
    some (.method ⟨3⟩ (Assembler.method ⟨⟨9⟩, 8, 0⟩ .method "g" "g()" "A.B.g" "void").toCfg)
  else none

/-- One object is taken over inside the nested class, and two methods get blocks. -/
theorem passes_are_announced_for_nested_class :
    let adopted := announcedClass.adopt announcedLookup { nextRef := 4 }
    let computed := announcedClass.computeMemberBlocks { nextRef := 4 }
    announcedClass.wouldAdopt announcedLookup = true ∧ adopted.1 = 1 ∧
      adopted.2.1.descendants.map SharedCfg.ref = [⟨4⟩, ⟨3⟩, ⟨1⟩] ∧
      adopted.2.1.adopt announcedLookup { nextRef := 5 } = (0, adopted.2.1, { nextRef := 5 }) ∧
      announcedClass.needsBlocks = true ∧ computed.1 = 2 ∧
      computed.2.1.computeMemberBlocks { nextRef := 7 } = (0, computed.2.1, { nextRef := 7 }) := by
  have hk : announcedLookup.Keyed := by
    intro name held h
    unfold announcedLookup at h
    split at h
    · next hname =>
      cases h
      exact hname.symm
    · cases h
  have hnodes : announcedClass.descendants.all (fun m => m.flow.nodeIds ≠ []) = true := by
    decide +kernel
  obtain ⟨hadopts, -, -, hagain, -, hneeds, -, -, hagain'⟩ :=
    passes_are_announced hk { nextRef := 4 } announcedClass fun ref cfg hm =>
      of_decide_eq_true (List.all_eq_true.1 hnodes _ hm)
  have hcount : (announcedClass.adopt announcedLookup { nextRef := 4 }).1 = 1 := by decide +kernel
  have hcount' : (announcedClass.computeMemberBlocks { nextRef := 4 }).1 = 2 := by decide +kernel
  refine ⟨hadopts.1 (by rw [hcount]; exact Nat.one_ne_zero), hcount, by decide +kernel,
    hagain _, hneeds.1 (by rw [hcount']; exact Nat.succ_ne_zero 1), hcount', hagain' _⟩

end ClassCfg

end ProgramFlow
