import ProgramFlow.NodeId

/-! Directed graphs with payloads. A node is known by the identity its payload carries, an edge
by its key: source, target and label. Nodes and edges keep the order in which they were added;
the edges around a node are listed with the newest first. -/
namespace ProgramFlow

/-- Payloads that carry the identity of their node. -/
class Vertex (ν : Type) where
  id : ν → NodeId

/-- Payloads that carry the two ends of their edge and a label. -/
class Arc (ε : Type) (κ : outParam Type) where
  source : ε → NodeId
  target : ε → NodeId
  label : ε → κ

def Arc.key {ε κ : Type} [Arc ε κ] (e : ε) : NodeId × NodeId × κ := (source e, target e, label e)

structure Graph (ν ε : Type) where
  nodes : List ν := []
  edges : List ε := []

namespace Graph

variable {ν ε κ : Type} [Vertex ν] [Arc ε κ]

def empty : Graph ν ε := {}

def nodeIds (g : Graph ν ε) : List NodeId := g.nodes.map Vertex.id

def node? (g : Graph ν ε) (id : NodeId) : Option ν := g.nodes.find? fun n => Vertex.id n = id

def hasNode (g : Graph ν ε) (id : NodeId) : Bool := g.nodes.any fun n => Vertex.id n = id

def nodeCount (g : Graph ν ε) : Nat := g.nodes.length

def edgeCount (g : Graph ν ε) : Nat := g.edges.length

def isEmpty (g : Graph ν ε) : Bool := g.nodes.isEmpty

def addNode (g : Graph ν ε) (n : ν) : Bool × Graph ν ε :=
  if g.hasNode (Vertex.id n) then (false, g) else (true, { g with nodes := g.nodes ++ [n] })

def modifyNode (g : Graph ν ε) (id : NodeId) (f : ν → ν) : Graph ν ε :=
  { g with nodes := g.nodes.map fun n => if Vertex.id n = id then f n else n }

def outgoing (g : Graph ν ε) (id : NodeId) : List ε :=
  (g.edges.filter fun e => Arc.source e = id).reverse

def incoming (g : Graph ν ε) (id : NodeId) : List ε :=
  (g.edges.filter fun e => Arc.target e = id).reverse

def successors (g : Graph ν ε) (id : NodeId) : List NodeId := (g.outgoing id).map Arc.target

def predecessors (g : Graph ν ε) (id : NodeId) : List NodeId := (g.incoming id).map Arc.source

variable [DecidableEq κ]

def hasKey (g : Graph ν ε) (key : NodeId × NodeId × κ) : Bool :=
  g.edges.any fun e => Arc.key e = key

/-- An edge can be added when both its ends are nodes and its key is new. -/
def accepts (g : Graph ν ε) (e : ε) : Bool :=
  g.hasNode (Arc.source e) && g.hasNode (Arc.target e) && !g.hasKey (Arc.key e)

def addEdge (g : Graph ν ε) (e : ε) : Bool × Graph ν ε :=
  if g.accepts e then (true, { g with edges := g.edges ++ [e] }) else (false, g)

def addNodes (g : Graph ν ε) (nodes : List ν) : Graph ν ε :=
  nodes.foldl (fun g n => (g.addNode n).2) g

/-- Adds edges in order; the count is the number of edges that could be added. -/
def addEdges (g : Graph ν ε) : List ε → Nat × Graph ν ε
  | [] => (0, g)
  | e :: rest =>
    let (added, g) := g.addEdge e
    let (count, g) := g.addEdges rest
    (if added then count + 1 else count, g)

/-- Adds the nodes, then the edges of another graph; the count is that of `addEdges`. -/
def append (g h : Graph ν ε) : Nat × Graph ν ε := (g.addNodes h.nodes).addEdges h.edges

def ofLists (nodes : List ν) (edges : List ε) : Graph ν ε :=
  ((empty.addNodes nodes).addEdges edges).2

end Graph

end ProgramFlow
