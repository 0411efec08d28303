/-! Identities of graph nodes, and the counter that hands them out. The first identity is 1. -/
namespace ProgramFlow

structure NodeId where
  val : Nat
  deriving DecidableEq, Inhabited, Repr

namespace NodeId

instance (n : Nat) : OfNat NodeId n := ⟨⟨n⟩⟩

def text (id : NodeId) : String := "#" ++ toString id.val

end NodeId

structure IdAllocator where
  next : Nat := 1
  deriving DecidableEq, Inhabited, Repr

namespace IdAllocator

def peek (ids : IdAllocator) : NodeId := ⟨ids.next⟩

def allocate (ids : IdAllocator) : NodeId × IdAllocator := (ids.peek, ⟨ids.next + 1⟩)

def allocated (ids : IdAllocator) : Nat := ids.next - 1

end IdAllocator

end ProgramFlow
