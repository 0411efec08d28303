import ProgramFlow.Closure
import ProgramFlow.FlowGraph

/-! Walks along the edges of a flow graph, forward or backward, with or without back edges. A
walk does not go past a node that its stop test names; such a node is met but not reached. The
origin of a walk is always reached, whatever the test says about it. -/
namespace ProgramFlow

inductive Direction where
  | forward
  | backward
  deriving DecidableEq, Inhabited, Repr

structure Walk where
  reached : NodeSet
  stopped : NodeSet

namespace FlowGraph

/-- The nodes one step away; back edges are taken only if allowed. -/
def neighbours (g : FlowGraph) (direction : Direction) (loopbackOk : Bool) (id : NodeId) :
    List NodeId :=
  match direction with
  | .forward => ((g.outgoing id).filter fun e => loopbackOk || !e.isLoopback).map (·.target)
  | .backward => ((g.incoming id).filter fun e => loopbackOk || !e.isLoopback).map (·.source)

def stopsAt (g : FlowGraph) (stop : Node → Bool) (id : NodeId) : Bool := (g.node? id).any stop

/-- The nodes a walk reaches; there are none if its origin is not in the graph. -/
def reached (g : FlowGraph) (origin : NodeId) (direction : Direction) (loopbackOk : Bool)
    (stop : Node → Bool) : NodeSet :=
  if g.contains origin then
    let pass := fun id =>
      (g.neighbours direction loopbackOk id).filter fun m => !g.stopsAt stop m
    closure pass g.nodeIds [origin] .empty
  else .empty

/-- The nodes next to reached ones that the walk did not enter. -/
def stopped (g : FlowGraph) (origin : NodeId) (direction : Direction) (loopbackOk : Bool)
    (stop : Node → Bool) (reached : NodeSet) : NodeSet :=
  NodeSet.ofList ((reached.toList.flatMap (g.neighbours direction loopbackOk)).filter fun m =>
    m ≠ origin && g.stopsAt stop m)

def walk (g : FlowGraph) (origin : NodeId) (direction : Direction) (loopbackOk : Bool)
    (stop : Node → Bool) : Walk :=
  let reached := g.reached origin direction loopbackOk stop
  ⟨reached, g.stopped origin direction loopbackOk stop reached⟩

def forwardReachable (g : FlowGraph) (origin : NodeId) (loopbackOk : Bool) (stop : Node → Bool) :
    NodeSet := g.reached origin .forward loopbackOk stop

def backwardReachable (g : FlowGraph) (origin : NodeId) (loopbackOk : Bool)
    (stop : Node → Bool) : NodeSet := g.reached origin .backward loopbackOk stop

/-- The walk from one node that stops at another, which is counted in. -/
def range (g : FlowGraph) (origin last : NodeId) (direction : Direction) (loopbackOk : Bool) :
    NodeSet :=
  if origin = last then .singleton origin
  else (g.reached origin direction loopbackOk fun n => n.id = last).insert last

def forwardBetween (g : FlowGraph) (origin last : NodeId) (loopbackOk : Bool) : NodeSet :=
  g.range origin last .forward loopbackOk

def backwardBetween (g : FlowGraph) (origin last : NodeId) (loopbackOk : Bool) : NodeSet :=
  g.range origin last .backward loopbackOk

def reachableNodes (g : FlowGraph) (first last : NodeId) (loopbackOk : Bool) : NodeSet :=
  (g.forwardBetween first last loopbackOk).inter (g.backwardBetween last first loopbackOk)

/-- The nodes that lie behind the first point and before the last one, where one of the two
walks may run on to the finish or back to the start. -/
def constrainedNodes (g : FlowGraph) (first last : NodeId) : NodeSet :=
  ((g.forwardBetween first g.finish true).inter (g.backwardBetween last first true)).union
    ((g.forwardBetween first last true).inter (g.backwardBetween last g.start true))

end FlowGraph

end ProgramFlow
