import Mathlib.Logic.Function.Basic
import ProgramFlow.DefUse
import ProgramFlow.Proofs.Firsts

/-! References in the order in which their targets first came up. Whatever is added to definitions
and uses, and however they are merged, each side holds the first references among all those it was
ever given. The laws of merging follow from this for the sequences of references: to merge is to put
one sequence behind the other. -/
namespace ProgramFlow

def Reference.target (r : Reference) : ReferenceKind × String := (r.kind, r.qualifiedName)

theorem Reference.sameTarget_iff {a b : Reference} :
    a.sameTarget b = true ↔ a.target = b.target := by
  rw [sameTarget, Bool.and_eq_true, decide_eq_true_eq, beq_iff_eq, target, target, Prod.mk.injEq]

namespace ReferenceList

theorem any_sameTarget_iff {l : ReferenceList} {r : Reference} :
    l.items.any (·.sameTarget r) = true ↔ r.target ∈ l.items.map Reference.target := by
  simp only [List.any_eq_true, List.mem_map, Reference.sameTarget_iff]

theorem fst_add_iff {l : ReferenceList} {r : Reference} :
    (l.add r).1 = true ↔ r.target ∉ l.items.map Reference.target := by
  rw [← any_sameTarget_iff, add]
  split
  · next h => simp [h]
  · next h => simp [h]

theorem items_add (l : ReferenceList) (r : Reference) :
    (l.add r).2.items = addNew Reference.target l.items r := by
  unfold add addNew
  by_cases h : r.target ∈ l.items.map Reference.target
  · rw [if_pos h, if_pos (any_sameTarget_iff.2 h)]
  · rw [if_neg h, if_neg (mt any_sameTarget_iff.1 h)]

theorem items_addAll (l : ReferenceList) (rs : List Reference) :
    (l.addAll rs).items = rs.foldl (addNew Reference.target) l.items := by
  induction rs generalizing l with
  | nil => rfl
  | cons r rest ih =>
    change ((l.add r).2.addAll rest).items = _
    rw [ih, items_add, List.foldl_cons]

/-- What is found stays found, since references are added at the end. -/
theorem find?_addAll {l : ReferenceList} {p : Reference → Bool} {r : Reference}
    (h : l.items.find? p = some r) (rs : List Reference) :
    (l.addAll rs).items.find? p = some r := by
  rw [items_addAll, foldl_addNew, List.find?_append, h, Option.some_or]

end ReferenceList

namespace DefUse

inductive Side where
  | defs
  | uses
  deriving DecidableEq

def list (d : DefUse) : Side → ReferenceList
  | .defs => d.defs
  | .uses => d.uses

def add (d : DefUse) : Side → Reference → Bool × DefUse
  | .defs => d.addDef
  | .uses => d.addUse

variable {d e : DefUse}

theorem eq_of_items (h : ∀ side, (d.list side).items = (e.list side).items) : d = e := by
  rcases d with ⟨⟨defs⟩, ⟨uses⟩⟩
  rcases e with ⟨⟨defs'⟩, ⟨uses'⟩⟩
  obtain rfl : defs = defs' := h .defs
  obtain rfl : uses = uses' := h .uses
  rfl

theorem fst_add (d : DefUse) (side : Side) (r : Reference) :
    (d.add side r).1 = ((d.list side).add r).1 := by
  cases side <;> rfl

theorem list_add (d : DefUse) (side : Side) (r : Reference) :
    (d.add side r).2.list = Function.update d.list side ((d.list side).add r).2 := by
  funext other
  cases side <;> cases other <;> rfl

theorem items_add (d : DefUse) (side : Side) (r : Reference) :
    ((d.add side r).2.list side).items =
      if (d.add side r).1 then (d.list side).items ++ [r] else (d.list side).items := by
  rw [list_add, Function.update_self, fst_add, ReferenceList.add]
  split <;> rfl

theorem list_merge (d e : DefUse) (side : Side) :
    (d.merge e).list side = (d.list side).addAll (e.list side).items := by
  cases side <;> rfl

/-- The value holds the first of the references that were added to each side. -/
def Holds (d : DefUse) (added : Side → List Reference) : Prop :=
  ∀ side, (d.list side).items = firsts Reference.target (added side)

namespace Holds

variable {added more third : Side → List Reference} {f : DefUse}

theorem unique (hd : d.Holds added) (he : e.Holds added) : d = e :=
  eq_of_items fun side => (hd side).trans (he side).symm

theorem empty : ({} : DefUse).Holds fun _ => [] := by
  intro side
  cases side <;> rfl

theorem add (h : d.Holds added) (side : Side) (r : Reference) :
    (d.add side r).2.Holds (Function.update added side (added side ++ [r])) := by
  intro other
  rw [list_add]
  by_cases hside : other = side
  · subst hside
    rw [Function.update_self, Function.update_self, ReferenceList.items_add, h, ← foldl_addNew_nil,
      ← foldl_addNew_nil, List.foldl_append]
    rfl
  · rw [Function.update_of_ne hside, Function.update_of_ne hside, h]

theorem merge (hd : d.Holds added) (he : e.Holds more) :
    (d.merge e).Holds fun side => added side ++ more side := by
  intro side
  rw [list_merge, ReferenceList.items_addAll, hd, he, foldl_addNew_firsts, ← foldl_addNew_nil,
    ← foldl_addNew_nil, List.foldl_append]

theorem merge_assoc (hd : d.Holds added) (he : e.Holds more) (hf : f.Holds third) :
    (d.merge e).merge f = d.merge (e.merge f) := by
  apply unique ((hd.merge he).merge hf)
  simpa only [List.append_assoc] using hd.merge (he.merge hf)

theorem merge_self (h : d.Holds added) : d.merge d = d := by
  apply eq_of_items
  intro side
  rw [list_merge, ReferenceList.items_addAll, h, foldl_addNew_firsts, ← foldl_addNew_nil,
    foldl_addNew_again]

theorem empty_merge (h : d.Holds added) : ({} : DefUse).merge d = d := (empty.merge h).unique h

theorem merge_empty (h : d.Holds added) : d.merge {} = d := by
  refine unique ?_ h
  simpa only [List.append_nil] using h.merge empty

theorem fst_add_iff (h : d.Holds added) {side : Side} {r : Reference} :
    (d.add side r).1 = true ↔ ∀ e ∈ added side, e.sameTarget r = false := by
  rw [fst_add, ReferenceList.fst_add_iff, h, mem_map_firsts, List.mem_map, not_exists]
  apply forall_congr'
  intro e
  rw [not_and, ← Reference.sameTarget_iff, Bool.not_eq_true]

theorem pairwise (h : d.Holds added) (side : Side) :
    (d.list side).items.Pairwise fun a b => a.sameTarget b = false := by
  have hnodup := nodup_map_firsts Reference.target (added side)
  rw [← h side, List.nodup_iff_pairwise_ne, List.pairwise_map] at hnodup
  refine hnodup.imp fun hne => ?_
  rwa [← Bool.not_eq_true, Reference.sameTarget_iff]

theorem items_merge (d : DefUse) (he : e.Holds more) (side : Side) :
    ((d.merge e).list side).items = (d.list side).items ++
      (e.list side).items.filter fun r => !(d.list side).items.any (·.sameTarget r) := by
  rw [list_merge, ReferenceList.items_addAll]
  refine foldl_addNew_of_nodup ?_ fun r => ReferenceList.any_sameTarget_iff
  rw [he]
  exact nodup_map_firsts _ _

end Holds

/-- One step in a family of values that all start empty: a reference is added to a side of one, or
another value is merged into it. -/
inductive Op where
  | add (value : Nat) (side : Side) (r : Reference)
  | merge (value other : Nat)

namespace Op

def apply (values : Nat → DefUse) : Op → Nat → DefUse
  | .add i side r => Function.update values i ((values i).add side r).2
  | .merge i j => Function.update values i ((values i).merge (values j))

def run (ops : List Op) : Nat → DefUse := ops.foldl apply fun _ => {}

def note (added : Nat → Side → List Reference) : Op → Nat → Side → List Reference
  | .add i side r => Function.update added i (Function.update (added i) side (added i side ++ [r]))
  | .merge i j => Function.update added i fun side => added i side ++ added j side

def added (ops : List Op) : Nat → Side → List Reference := ops.foldl note fun _ _ => []

theorem holds_apply {values : Nat → DefUse} {given : Nat → Side → List Reference}
    (h : ∀ i, (values i).Holds (given i)) (op : Op) (i : Nat) :
    (op.apply values i).Holds (op.note given i) := by
  cases op with
  | add j side r =>
    by_cases hi : i = j
    · subst hi
      simpa [apply, note] using (h i).add side r
    · simpa [apply, note, hi] using h i
  | merge j k =>
    by_cases hi : i = j
    · subst hi
      simpa [apply, note] using (h i).merge (h k)
    · simpa [apply, note, hi] using h i

theorem holds_run (ops : List Op) (i : Nat) : (run ops i).Holds (added ops i) := by
  have hfrom : ∀ (values : Nat → DefUse) (given : Nat → Side → List Reference),
      (∀ i, (values i).Holds (given i)) →
        ∀ i, (ops.foldl apply values i).Holds (ops.foldl note given i) := by
    induction ops with
    | nil => exact fun _ _ h => h
    | cons op rest ih => exact fun _ _ h => ih _ _ (holds_apply h op)
  exact hfrom _ _ (fun _ => .empty) i

end Op

/-- After any steps, each side of each value holds the first references among all that were added to
it, by itself or with another value, and an addition is answered with yes exactly if its reference
is kept. So no two references of a side have the same target; to merge is to append what is new to
the left; merging is associative and idempotent, an empty value changes nothing on either side; and
whatever is found by a qualified name or as the variable of a name stays found. -/
theorem references_are_kept_once (ops : List Op) :
    let values := Op.run ops
    let added := Op.added ops
    (∀ i side, ((values i).list side).items = firsts Reference.target (added i side)) ∧
    (∀ i side r, (((values i).add side r).1 = true ↔
        ∀ earlier ∈ added i side, earlier.sameTarget r = false) ∧
      (((values i).add side r).2.list side).items =
        if ((values i).add side r).1 then ((values i).list side).items ++ [r]
        else ((values i).list side).items) ∧
    (∀ i side, ((values i).list side).items.Pairwise fun a b => a.sameTarget b = false) ∧
    (∀ i j side, (((values i).merge (values j)).list side).items =
      ((values i).list side).items ++ ((values j).list side).items.filter fun r =>
        !((values i).list side).items.any (·.sameTarget r)) ∧
    (∀ i j k, ((values i).merge (values j)).merge (values k) =
      (values i).merge ((values j).merge (values k))) ∧
    (∀ i, (values i).merge (values i) = values i ∧ ({} : DefUse).merge (values i) = values i ∧
      (values i).merge {} = values i) ∧
    ∀ i j side name r,
      (((values i).list side).byQualifiedName? name = some r →
        (((values i).merge (values j)).list side).byQualifiedName? name = some r) ∧
      (((values i).list side).variableNamed? name = some r →
        (((values i).merge (values j)).list side).variableNamed? name = some r) := by
  intro values added
  have h : ∀ i, (values i).Holds (added i) := Op.holds_run ops
  refine ⟨h, fun i side r => ⟨(h i).fst_add_iff, items_add ..⟩, fun i => (h i).pairwise,
    fun i j => (h j).items_merge (values i), fun i j k => (h i).merge_assoc (h j) (h k),
    fun i => ⟨(h i).merge_self, (h i).empty_merge, (h i).merge_empty⟩, ?_⟩
  intro i j side name r
  rw [list_merge]
  exact ⟨fun hr => ReferenceList.find?_addAll hr _, fun hr => ReferenceList.find?_addAll hr _⟩

/-- A local that comes up again with another type, first by itself and then in a value that is
merged, does not replace the first one. -/
theorem references_are_kept_once_with_other_type :
    let x : Reference := .localVariable (.of "A" "A.f()" "x" "int")
    let x' : Reference := .localVariable (.of "A" "A.f()" "x" "long")
    let y : Reference := .field (.of "A" "y" "int")
    let values := Op.run [.add 0 .defs x, .add 0 .defs x', .add 1 .defs x', .add 1 .defs y,
      .add 1 .uses y, .merge 0 1]
    ((values 0).list .defs).items = [x, y] ∧ ((values 1).list .defs).items = [x', y] ∧
      ((values 0).add .defs x').1 = false ∧ ((values 0).add .uses x').1 = true ∧
      (((values 0).merge (values 1)).list .defs).byQualifiedName? "A.f()#x" = some x := by
  intro x x' y values
  obtain ⟨hitems, hadd, -, -, -, -, hfound⟩ := references_are_kept_once
    [.add 0 .defs x, .add 0 .defs x', .add 1 .defs x', .add 1 .defs y, .add 1 .uses y, .merge 0 1]
  refine ⟨(hitems 0 .defs).trans (by decide +kernel), (hitems 1 .defs).trans (by decide +kernel),
    ?_, (hadd 0 .uses x').1.2 (by decide +kernel), (hfound 0 1 .defs _ x).1 (by decide +kernel)⟩
  rw [Bool.eq_false_iff, ne_eq, (hadd 0 .defs x').1]
  decide +kernel

end DefUse

end ProgramFlow
