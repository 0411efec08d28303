import ProgramFlow.Closure
import ProgramFlow.Linkage

/-! Call graphs: methods, known by their entry nodes, and one edge for each call site. -/
namespace ProgramFlow

structure CallNode where
  entry : NodeId
  qualifiedName : String
  deriving DecidableEq, Inhabited, Repr

instance : Vertex CallNode := ⟨CallNode.entry⟩

structure CallEdge where
  caller : NodeId
  callee : NodeId
  callSite : NodeId
  deriving DecidableEq, Inhabited, Repr

instance : Arc CallEdge NodeId := ⟨CallEdge.caller, CallEdge.callee, CallEdge.callSite⟩

structure CallGraph where
  graph : Graph CallNode CallEdge := {}

namespace CallGraph

def empty : CallGraph := {}

def addCall (g : CallGraph) (caller callee : CallNode) (site : NodeId) : Bool × CallGraph :=
  let nodes := (g.graph.addNodes [caller, callee])
  let (added, graph) := nodes.addEdge ⟨caller.entry, callee.entry, site⟩
  (added, ⟨graph⟩)

def addLink (g : CallGraph) (link : CallLink) : Bool × CallGraph :=
  g.addCall ⟨link.callerEntry, link.caller⟩ ⟨link.calleeEntry, link.callee⟩ link.callSite

def addLinks (g : CallGraph) (links : List CallLink) : CallGraph :=
  links.foldl (fun g link => (g.addLink link).2) g

def ofInterprocedural (i : InterproceduralGraph) : CallGraph := empty.addLinks i.links

/-- Adds the nodes and edges of another call graph; the count is that of the new edges. -/
def append (g h : CallGraph) : Nat × CallGraph :=
  let (count, graph) := g.graph.append h.graph
  (count, ⟨graph⟩)

def nodes (g : CallGraph) : List CallNode := g.graph.nodes

def edges (g : CallGraph) : List CallEdge := g.graph.edges

def node? (g : CallGraph) (entry : NodeId) : Option CallNode := g.graph.node? entry

def nodeByName? (g : CallGraph) (name : String) : Option CallNode :=
  g.nodes.find? fun n => n.qualifiedName == name

/-- The methods called directly, each once, the newest edge first. -/
def callees (g : CallGraph) (entry : NodeId) : List CallNode :=
  (g.graph.successors entry).eraseDups.filterMap g.node?

def callers (g : CallGraph) (entry : NodeId) : List CallNode :=
  (g.graph.predecessors entry).eraseDups.filterMap g.node?

/-- The methods reached by one call or more. -/
def transitiveCallees (g : CallGraph) (entry : NodeId) : NodeSet :=
  closure g.graph.successors g.graph.nodeIds (g.graph.successors entry) .empty

def entryPoints (g : CallGraph) : List CallNode :=
  g.nodes.filter fun n => (g.graph.predecessors n.entry).isEmpty

def leaves (g : CallGraph) : List CallNode :=
  g.nodes.filter fun n => (g.graph.successors n.entry).isEmpty

end CallGraph

end ProgramFlow
