/-! Tables keyed by name. A name has at most one entry when the table is built by `insert`, and
inserting under a known name replaces its value. -/
namespace ProgramFlow

structure NameMap (α : Type) where
  entries : List (String × α) := []

namespace NameMap

variable {α : Type}

def empty : NameMap α := {}

def find? (m : NameMap α) (name : String) : Option α := m.entries.lookup name

def contains (m : NameMap α) (name : String) : Bool := (m.find? name).isSome

def erase (m : NameMap α) (name : String) : NameMap α :=
  ⟨m.entries.filter fun entry => entry.1 != name⟩

def insert (m : NameMap α) (name : String) (value : α) : NameMap α :=
  ⟨(name, value) :: (m.erase name).entries⟩

def size (m : NameMap α) : Nat := m.entries.length

def isEmpty (m : NameMap α) : Bool := m.entries.isEmpty

theorem lookup_filter_self (l : List (String × α)) (name : String) :
    (l.filter fun entry => entry.1 != name).lookup name = none := by
  induction l with
  | nil => rfl
  | cons entry rest ih =>
    rw [List.filter_cons]
    split
    · next h =>
      rw [List.lookup_cons]
      have : (name == entry.1) = false := by
        simp only [bne_iff_ne, ne_eq] at h
        simpa using fun he => h he.symm
      simp [this, ih]
    · exact ih

theorem lookup_filter_of_ne {κ : Type} [BEq κ] [LawfulBEq κ] (l : List (κ × α)) {name other : κ}
    (h : other ≠ name) :
    (l.filter fun entry => entry.1 != name).lookup other = l.lookup other := by
  induction l with
  | nil => rfl
  | cons entry rest ih =>
    rw [List.filter_cons]
    split
    · rw [List.lookup_cons, List.lookup_cons, ih]
    · next hk =>
      rw [List.lookup_cons, ih]
      have : (other == entry.1) = false := by
        simp only [bne_iff_ne, ne_eq, Classical.not_not] at hk
        simpa [hk] using h
      simp [this]

@[simp] theorem find?_empty (name : String) : (empty : NameMap α).find? name = none := rfl

@[simp] theorem find?_erase_self (m : NameMap α) (name : String) :
    (m.erase name).find? name = none := lookup_filter_self m.entries name

theorem find?_erase_of_ne (m : NameMap α) {name other : String} (h : other ≠ name) :
    (m.erase name).find? other = m.find? other := lookup_filter_of_ne m.entries h

@[simp] theorem find?_insert_self (m : NameMap α) (name : String) (value : α) :
    (m.insert name value).find? name = some value := by
  simp [insert, find?]

theorem find?_insert_of_ne (m : NameMap α) {name other : String} (value : α)
    (h : other ≠ name) : (m.insert name value).find? other = m.find? other := by
  have : (other == name) = false := by simpa using h
  simp only [insert, find?, List.lookup_cons, this]
  exact find?_erase_of_ne m h

end NameMap

end ProgramFlow
