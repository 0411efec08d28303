import ProgramFlow.Reference

/-! The references a statement defines and those it uses. Adding keeps the first reference to
each target, in the order of addition. -/
namespace ProgramFlow

structure ReferenceList where
  items : List Reference := []
  deriving DecidableEq, Inhabited, Repr

namespace ReferenceList

/-- Adds a reference to a new target, and tells whether it did. -/
def add (l : ReferenceList) (r : Reference) : Bool × ReferenceList :=
  if l.items.any (·.sameTarget r) then (false, l) else (true, ⟨l.items ++ [r]⟩)

def addAll (l : ReferenceList) (rs : List Reference) : ReferenceList :=
  rs.foldl (fun l r => (l.add r).2) l

/-- The first variable of that simple name. -/
def variableNamed? (l : ReferenceList) (name : String) : Option Reference :=
  l.items.find? fun r => r.isVariable && r.name == name

def byQualifiedName? (l : ReferenceList) (qualifiedName : String) : Option Reference :=
  l.items.find? fun r => r.qualifiedName == qualifiedName

def isEmpty (l : ReferenceList) : Bool := l.items.isEmpty

def size (l : ReferenceList) : Nat := l.items.length

def variableItems (l : ReferenceList) : List Reference := l.items.filter (·.isVariable)

def methodItems (l : ReferenceList) : List Reference := l.items.filter fun r => !r.isVariable

def fieldItems (l : ReferenceList) : List Reference := l.items.filter (·.isField)

end ReferenceList

structure DefUse where
  defs : ReferenceList := {}
  uses : ReferenceList := {}
  deriving DecidableEq, Inhabited, Repr

namespace DefUse

def addDef (d : DefUse) (r : Reference) : Bool × DefUse :=
  let (added, defs) := d.defs.add r
  (added, { d with defs })

def addUse (d : DefUse) (r : Reference) : Bool × DefUse :=
  let (added, uses) := d.uses.add r
  (added, { d with uses })

def merge (d other : DefUse) : DefUse :=
  ⟨d.defs.addAll other.defs.items, d.uses.addAll other.uses.items⟩

def ofLists (defs uses : List Reference) : DefUse :=
  ⟨({} : ReferenceList).addAll defs, ({} : ReferenceList).addAll uses⟩

def defines (d : DefUse) (name : String) : Bool := (d.defs.variableNamed? name).isSome

def usesVariable (d : DefUse) (name : String) : Bool := (d.uses.variableNamed? name).isSome

def isEmpty (d : DefUse) : Bool := d.defs.isEmpty && d.uses.isEmpty

end DefUse

end ProgramFlow
