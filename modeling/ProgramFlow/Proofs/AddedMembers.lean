import ProgramFlow.Proofs.ClassUnion

/-! What a class holds of the members that are added to it. Under each name the first to come stays,
whatever its form, and every later one of the same form is answered with it. One of the other form
is neither held nor refused: it is answered with itself, and the class goes on without it. -/
namespace ProgramFlow.ClassCfg

variable {c : ClassCfg} {m held : SharedCfg} {name : String}

/-- The member of a name and a form; methods and fields are asked for apart from nested classes. -/
def held? (c : ClassCfg) (name : String) (isClass : Bool) : Option SharedCfg :=
  (c.find? name).filter fun m => m.isClass == isClass

def addAll (c : ClassCfg) (members : List SharedCfg) : ClassCfg :=
  members.foldl (fun c m => (c.add m).2) c

theorem held?_eq_some_iff {isClass : Bool} :
    c.held? name isClass = some m ↔ c.find? name = some m ∧ m.isClass = isClass := by
  rw [held?, Option.filter_eq_some_iff, beq_iff_eq]

theorem held?_eq_none (h : c.find? name = some held) {isClass : Bool}
    (hform : held.isClass ≠ isClass) : c.held? name isClass = none := by
  rw [held?, h, Option.filter_some, if_neg]
  rwa [beq_iff_eq]

theorem find?_register (h : c.find? m.qualifiedName = none) :
    (c.register m).find? name =
      (c.find? name).or (if m.qualifiedName == name then some m else none) := by
  obtain ⟨before, after, hmembers, hplace⟩ := place_eq_append m c.members
  change (place m c.members).find? _ = (c.members.find? _).or _
  rw [hplace, hmembers]
  by_cases hname : m.qualifiedName = name
  · subst hname
    have hnone : (before ++ after).find? (fun x => x.qualifiedName == m.qualifiedName) = none :=
      hmembers ▸ h
    rw [List.find?_append, Option.or_eq_none_iff] at hnone
    simp [List.find?_append, hnone.1, hnone.2]
  · simp [List.find?_append, hname]

/-- Adding a member changes what a name stands for only if it stood for nothing. -/
theorem find?_add (c : ClassCfg) (m : SharedCfg) (name : String) :
    (c.add m).2.find? name =
      (c.find? name).or (if m.qualifiedName == name then some m else none) := by
  unfold add
  split
  · next held hheld =>
    have hsame : c.find? name =
        (c.find? name).or (if m.qualifiedName == name then some m else none) := by
      by_cases hname : m.qualifiedName = name
      · rw [← hname, hheld, Option.some_or]
      · simp [hname]
    split <;> exact hsame
  · next hnone => exact find?_register hnone

theorem find?_addAll (c : ClassCfg) (members : List SharedCfg) (name : String) :
    (c.addAll members).find? name =
      (c.find? name).or (members.find? fun m => m.qualifiedName == name) := by
  induction members generalizing c with
  | nil => simp [addAll]
  | cons m rest ih =>
    change ((c.add m).2.addAll rest).find? name = _
    rw [ih, find?_add, Option.or_assoc, List.find?_cons]
    cases m.qualifiedName == name <;> simp

theorem find?_addAll_of_some (h : c.find? name = some m) (members : List SharedCfg) :
    (c.addAll members).find? name = some m := by
  rw [find?_addAll, h, Option.some_or]

/-- Unless the name belongs to the other form, the first of that name is answered. -/
theorem fst_add (h : ∀ held, c.find? m.qualifiedName = some held → held.isClass = m.isClass) :
    (c.add m).1 = (c.find? m.qualifiedName).getD m := by
  unfold add
  split
  · next held hheld => rw [if_pos (h held hheld), hheld, Option.getD_some]
  · next hnone => rw [hnone, Option.getD_none]

theorem held?_add (h : ∀ held, c.find? m.qualifiedName = some held → held.isClass = m.isClass) :
    (c.add m).2.held? m.qualifiedName m.isClass = some (c.add m).1 := by
  rw [held?_eq_some_iff, find?_add, fst_add h, beq_self_eq_true, if_pos rfl, Option.or_some]
  refine ⟨rfl, ?_⟩
  cases hheld : c.find? m.qualifiedName with
  | none => rfl
  | some held => exact h held hheld

theorem add_of_other_form (h : c.find? m.qualifiedName = some held)
    (hform : held.isClass ≠ m.isClass) : c.add m = (m, c) := by
  simp only [add, h, if_neg hform]

/-- Whatever has been added before a member and whatever is added after it, the object it is
answered with is the first of its name, and the class holds it from then on, provided that the first
of the name has the same form. If it has the other form, the member is answered with itself and is
held neither then nor later. -/
theorem added_members_are_held (c : ClassCfg) (before after : List SharedCfg) (m : SharedCfg) :
    let first? := (c.find? m.qualifiedName).or
      (before.find? fun x => x.qualifiedName == m.qualifiedName)
    let added := (c.addAll before).add m
    let later := added.2.addAll after
    ((∀ held, first? = some held → held.isClass = m.isClass) →
      added.1 = first?.getD m ∧ later.held? m.qualifiedName m.isClass = some added.1) ∧
    ∀ held, first? = some held → held.isClass ≠ m.isClass →
      added.1 = m ∧ later.held? m.qualifiedName m.isClass = none ∧
        later.find? m.qualifiedName = some held := by
  intro first? added later
  have hfirst : (c.addAll before).find? m.qualifiedName = first? := find?_addAll ..
  constructor
  · intro hform
    rw [← hfirst] at hform ⊢
    obtain ⟨hheld, hsame⟩ := held?_eq_some_iff.1 (held?_add hform)
    exact ⟨fst_add hform, held?_eq_some_iff.2 ⟨find?_addAll_of_some hheld after, hsame⟩⟩
  · intro held hheld hform
    rw [← hfirst] at hheld
    have hadd : added = (m, c.addAll before) := add_of_other_form hheld hform
    have hkept : later.find? m.qualifiedName = some held := by
      apply find?_addAll_of_some
      rw [hadd]
      exact hheld
    exact ⟨congrArg Prod.fst hadd, held?_eq_none hkept hform, hkept⟩

def sameNameClass : ClassCfg := (Assembler.classType {} .classType "A" "A").toClass

def nestedOfName : SharedCfg :=
  .classType ⟨1⟩ (Assembler.classType ⟨⟨3⟩, 2, 4⟩ .classType "B" "A.B").toClass

def fieldOfName : SharedCfg := .method ⟨2⟩ (Assembler.field ⟨⟨5⟩, 4, 4⟩ .field "B" "A.B").toCfg

def methodBeside : SharedCfg :=
  .method ⟨3⟩ (Assembler.method ⟨⟨7⟩, 6, 4⟩ .method "f" "f()" "A.f" "void").toCfg

/-- The field is lost where the nested class came first, and so is the nested class where the field
did; the method is held either way. -/
theorem added_members_are_held_unless_of_other_form :
    let added := (sameNameClass.addAll [nestedOfName]).add fieldOfName
    let other := (sameNameClass.addAll [fieldOfName]).add nestedOfName
    let beside := added.2.add methodBeside
    added.1 = fieldOfName ∧ added.2.held? "A.B" false = none ∧
      other.1 = nestedOfName ∧ other.2.held? "A.B" true = none ∧
      beside.1 = methodBeside ∧ beside.2.held? "A.f" false = some methodBeside ∧
      beside.2.find? "A.B" = some nestedOfName := by
  intro added other beside
  have hfield := added_members_are_held sameNameClass [nestedOfName] [] fieldOfName
  have hfield' := added_members_are_held sameNameClass [nestedOfName] [methodBeside] fieldOfName
  have hnested := added_members_are_held sameNameClass [fieldOfName] [] nestedOfName
  have hmethod := added_members_are_held sameNameClass [nestedOfName, fieldOfName] [] methodBeside
  obtain ⟨hanswer, hlost, -⟩ := hfield.2 nestedOfName rfl (by decide)
  obtain ⟨-, -, hkept⟩ := hfield'.2 nestedOfName rfl (by decide)
  obtain ⟨hanswer', hlost', -⟩ := hnested.2 fieldOfName rfl (by decide)
  obtain ⟨hfirst, hheld⟩ := hmethod.1 (by intro held h; cases h)
  exact ⟨hanswer, hlost, hanswer', hlost', hfirst, hheld.trans (congrArg some hfirst), hkept⟩

end ProgramFlow.ClassCfg
