import ProgramFlow.NodeId

/-! Finite sets of node identities, kept as ascending lists. Two sets with the same members are
equal (`NodeSet.ext`), so results of different searches can be compared by `=`. -/
namespace ProgramFlow

structure NodeSet where
  toList : List NodeId
  ascending : toList.Pairwise fun a b => a.val < b.val
  deriving DecidableEq

namespace NodeSet

def place (x : NodeId) : List NodeId → List NodeId
  | [] => [x]
  | y :: ys =>
    if x.val < y.val then x :: y :: ys
    else if x = y then y :: ys
    else y :: place x ys

theorem mem_place {x z : NodeId} {l : List NodeId} : z ∈ place x l ↔ z = x ∨ z ∈ l := by
  induction l with
  | nil => simp [place]
  | cons y ys ih =>
    simp only [place]
    split
    · simp
    · split
      · next h => subst h; simp
      · simp only [List.mem_cons, ih]
        constructor
        · rintro (h | h | h) <;> simp [h]
        · rintro (h | h | h) <;> simp [h]

theorem ascending_place {x : NodeId} {l : List NodeId}
    (h : l.Pairwise fun a b => a.val < b.val) :
    (place x l).Pairwise fun a b => a.val < b.val := by
  induction l with
  | nil => simp [place]
  | cons y ys ih =>
    obtain ⟨hy, hys⟩ := List.pairwise_cons.1 h
    simp only [place]
    split
    · next hlt =>
      refine List.pairwise_cons.2 ⟨?_, h⟩
      intro z hz
      rcases List.mem_cons.1 hz with rfl | hz
      · exact hlt
      · exact Nat.lt_trans hlt (hy z hz)
    · next hlt =>
      split
      · exact h
      · next hne =>
        refine List.pairwise_cons.2 ⟨?_, ih hys⟩
        intro z hz
        rcases mem_place.1 hz with rfl | hz
        · have : y.val ≠ z.val := fun he => hne (by cases y; cases z; simp_all)
          omega
        · exact hy z hz

instance : Membership NodeId NodeSet := ⟨fun s x => x ∈ s.toList⟩

instance (x : NodeId) (s : NodeSet) : Decidable (x ∈ s) :=
  inferInstanceAs (Decidable (x ∈ s.toList))

theorem mem_def {x : NodeId} {s : NodeSet} : x ∈ s ↔ x ∈ s.toList := Iff.rfl

def empty : NodeSet := ⟨[], List.Pairwise.nil⟩

def insert (s : NodeSet) (x : NodeId) : NodeSet := ⟨place x s.toList, ascending_place s.ascending⟩

def singleton (x : NodeId) : NodeSet := empty.insert x

def ofList (l : List NodeId) : NodeSet := l.foldl insert empty

def union (s t : NodeSet) : NodeSet := t.toList.foldl insert s

def filter (p : NodeId → Bool) (s : NodeSet) : NodeSet :=
  ⟨s.toList.filter p, s.ascending.filter p⟩

def inter (s t : NodeSet) : NodeSet := s.filter fun x => x ∈ t

def size (s : NodeSet) : Nat := s.toList.length

def isEmpty (s : NodeSet) : Bool := s.toList.isEmpty

@[simp] theorem not_mem_empty {x : NodeId} : ¬ x ∈ empty := by simp [mem_def, empty]

@[simp] theorem mem_insert {x y : NodeId} {s : NodeSet} : y ∈ s.insert x ↔ y = x ∨ y ∈ s :=
  mem_place

@[simp] theorem mem_singleton {x y : NodeId} : y ∈ singleton x ↔ y = x := by
  simp [singleton]

theorem mem_foldl_insert {y : NodeId} {l : List NodeId} {s : NodeSet} :
    y ∈ l.foldl insert s ↔ y ∈ s ∨ y ∈ l := by
  induction l generalizing s with
  | nil => simp
  | cons x xs ih =>
    simp only [List.foldl_cons, ih, mem_insert, List.mem_cons]
    constructor
    · rintro ((h | h) | h) <;> simp [h]
    · rintro (h | h | h) <;> simp [h]

@[simp] theorem mem_ofList {y : NodeId} {l : List NodeId} : y ∈ ofList l ↔ y ∈ l := by
  simp [ofList, mem_foldl_insert]

@[simp] theorem mem_union {y : NodeId} {s t : NodeSet} : y ∈ s.union t ↔ y ∈ s ∨ y ∈ t :=
  mem_foldl_insert

@[simp] theorem mem_filter {y : NodeId} {p : NodeId → Bool} {s : NodeSet} :
    y ∈ s.filter p ↔ y ∈ s ∧ p y = true := by
  simp [mem_def, filter]

@[simp] theorem mem_inter {y : NodeId} {s t : NodeSet} : y ∈ s.inter t ↔ y ∈ s ∧ y ∈ t := by
  simp [inter]

theorem nodup_toList (s : NodeSet) : s.toList.Nodup :=
  s.ascending.imp fun hlt heq => Nat.ne_of_lt hlt (congrArg NodeId.val heq)

theorem ext {s t : NodeSet} (h : ∀ x, x ∈ s ↔ x ∈ t) : s = t := by
  have hperm : s.toList.Perm t.toList :=
    (List.perm_ext_iff_of_nodup s.nodup_toList t.nodup_toList).2 h
  have hlist : s.toList = t.toList := by
    refine hperm.eq_of_pairwise ?_ s.ascending t.ascending
    intro a b _ _ hab hba
    exact absurd hab (Nat.lt_asymm hba)
  cases s
  cases t
  cases hlist
  rfl

end NodeSet

end ProgramFlow
