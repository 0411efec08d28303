import ProgramFlow.FlowGraph.Block

/-! The control-flow graph of a method or field: a flow graph with its basic blocks, if they
have been computed. -/
namespace ProgramFlow

structure Cfg where
  flow : FlowGraph
  blocks : List BasicBlock := []

namespace Cfg

def qualifiedName (c : Cfg) : String := c.flow.qualifiedName

def hasBlocks (c : Cfg) : Bool := !c.blocks.isEmpty

def block? (c : Cfg) (id : BlockId) : Option BasicBlock := c.blocks[id.val]?

/-- The block that a node says it belongs to. -/
def blockOf? (c : Cfg) (id : NodeId) : Option BasicBlock :=
  ((c.flow.node? id).bind (·.block)).bind c.block?

def computeBlocks (c : Cfg) : Cfg :=
  let blocks := c.flow.partition
  ⟨c.flow.markBlocks blocks, blocks⟩

def renewBlocks (c : Cfg) : Nat × Cfg := (c.flow.partition.length, c.computeBlocks)

end Cfg

end ProgramFlow
