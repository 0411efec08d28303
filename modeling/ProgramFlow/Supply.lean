import ProgramFlow.NodeId

/-! Identities beyond those of nodes. Every node made gets a `LinkId`, under which its link to a
dependence graph is kept; copies of the node keep the identity and so share the link. Every
control-flow graph that is shared as one object has a `Ref`; a changed copy gets a new one. -/
namespace ProgramFlow

structure LinkId where
  val : Nat
  deriving DecidableEq, Inhabited, Repr

structure Ref where
  val : Nat
  deriving DecidableEq, Inhabited, Repr

/-- What is next to be handed out. Node identities can start again from 1; the others are
never used twice. -/
structure Supply where
  ids : IdAllocator := {}
  nextLink : Nat := 0
  nextRef : Nat := 0
  deriving DecidableEq, Inhabited, Repr

namespace Supply

def newId (s : Supply) : NodeId × Supply := (s.ids.peek, { s with ids := s.ids.allocate.2 })

def newLink (s : Supply) : LinkId × Supply := (⟨s.nextLink⟩, { s with nextLink := s.nextLink + 1 })

def newRef (s : Supply) : Ref × Supply := (⟨s.nextRef⟩, { s with nextRef := s.nextRef + 1 })

def resetIds (s : Supply) : Supply := { s with ids := {} }

end Supply

structure PdgNode where
  val : Nat
  deriving DecidableEq, Inhabited, Repr

/-- The links set so far. A link is set at most once. -/
structure Links where
  entries : List (LinkId × PdgNode) := []
  deriving Inhabited

namespace Links

def get? (l : Links) (id : LinkId) : Option PdgNode := l.entries.lookup id

def set (l : Links) (id : LinkId) (pdg : PdgNode) : Bool × Links :=
  match l.get? id with
  | some _ => (false, l)
  | none => (true, ⟨(id, pdg) :: l.entries⟩)

end Links

end ProgramFlow
