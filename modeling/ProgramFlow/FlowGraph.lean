import ProgramFlow.Node

/-! The control-flow graph of one declaration: a graph with one start and one finish. Questions
about a node that is not in the graph have empty answers. -/
namespace ProgramFlow

structure FlowGraph where
  qualifiedName : String
  start : NodeId
  finish : NodeId
  graph : Graph Node Flow := {}

namespace FlowGraph

def nodes (g : FlowGraph) : List Node := g.graph.nodes

def edges (g : FlowGraph) : List Flow := g.graph.edges

def nodeIds (g : FlowGraph) : List NodeId := g.graph.nodeIds

def node? (g : FlowGraph) (id : NodeId) : Option Node := g.graph.node? id

def contains (g : FlowGraph) (id : NodeId) : Bool := g.graph.hasNode id

theorem contains_iff {g : FlowGraph} {id : NodeId} : g.contains id = true ↔ id ∈ g.nodeIds := by
  simp [contains, Graph.hasNode, nodeIds, Graph.nodeIds]

def nodeCount (g : FlowGraph) : Nat := g.graph.nodeCount

def edgeCount (g : FlowGraph) : Nat := g.graph.edgeCount

def startNode? (g : FlowGraph) : Option Node := g.node? g.start

def finishNode? (g : FlowGraph) : Option Node := g.node? g.finish

def entry? (g : FlowGraph) : Option Entry := g.startNode?.bind Node.entry?

/-- What the start knows about parameters; a field or a class has none. -/
def methodEntry? (g : FlowGraph) : Option MethodEntry := g.startNode?.bind Node.methodEntry?

def classEntry? (g : FlowGraph) : Option ClassEntry := g.startNode?.bind Node.classEntry?

def addNode (g : FlowGraph) (n : Node) : Bool × FlowGraph :=
  let (added, graph) := g.graph.addNode n
  (added, { g with graph })

def addEdge (g : FlowGraph) (e : Flow) : Bool × FlowGraph :=
  let (added, graph) := g.graph.addEdge e
  (added, { g with graph })

def modifyNode (g : FlowGraph) (id : NodeId) (f : Node → Node) : FlowGraph :=
  { g with graph := g.graph.modifyNode id f }

def containsEdge (g : FlowGraph) (e : Flow) : Bool := g.graph.hasKey (Arc.key e)

def outgoing (g : FlowGraph) (id : NodeId) : List Flow := g.graph.outgoing id

def incoming (g : FlowGraph) (id : NodeId) : List Flow := g.graph.incoming id

def successors (g : FlowGraph) (id : NodeId) : List NodeId := g.graph.successors id

def predecessors (g : FlowGraph) (id : NodeId) : List NodeId := g.graph.predecessors id

def controlSuccessors (g : FlowGraph) (id : NodeId) : List NodeId :=
  ((g.outgoing id).filter (·.isControl)).map (·.target)

def controlPredecessors (g : FlowGraph) (id : NodeId) : List NodeId :=
  ((g.incoming id).filter (·.isControl)).map (·.source)

/-- The newest edge of a kind that leaves a node. -/
def flowFrom? (g : FlowGraph) (id : NodeId) (kind : FlowKind) : Option Flow :=
  (g.outgoing id).find? fun e => e.kind = kind

def successorOn? (g : FlowGraph) (id : NodeId) (kind : FlowKind) : Option Node :=
  (g.flowFrom? id kind).bind fun e => g.node? e.target

def isBranch (g : FlowGraph) (id : NodeId) : Bool := (g.controlSuccessors id).length > 1

def isJoin (g : FlowGraph) (id : NodeId) : Bool := (g.controlPredecessors id).length > 1

def isLoop (g : FlowGraph) (id : NodeId) : Bool :=
  ((g.node? id).bind Node.statement?).any (·.kind.isLoop) ||
    (g.incoming id).any fun e => e.loopback = some id

def isNextToBranch (g : FlowGraph) (id : NodeId) : Bool :=
  (g.controlPredecessors id).any g.isBranch

def hasTry (g : FlowGraph) : Bool := g.nodes.any (·.isStatement .tryBlock)

def callNodes (g : FlowGraph) : List Node := g.nodes.filter (·.isCall)

/-- Two graphs count as equal when they belong to the same declaration. -/
def sameName (g h : FlowGraph) : Bool := g.qualifiedName == h.qualifiedName

end FlowGraph

end ProgramFlow
