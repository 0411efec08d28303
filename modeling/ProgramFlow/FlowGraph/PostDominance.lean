import ProgramFlow.FlowGraph.Walk

/-! Post-dominance: a node post-dominates an anchor when a forward walk from the anchor that
stops at the node meets it and never reaches the finish. The anchor and the finish are never
counted. -/
namespace ProgramFlow.FlowGraph

def postDominates (g : FlowGraph) (anchor candidate : NodeId) : Bool :=
  if candidate = anchor || candidate = g.finish then false
  else
    let stop := fun n : Node => decide (n.id = candidate)
    let reached := g.reached anchor .forward true stop
    !decide (g.finish ∈ reached) && decide (candidate ∈ g.stopped anchor .forward true stop reached)

def postDominators (g : FlowGraph) (anchor : NodeId) : NodeSet :=
  if g.contains anchor then NodeSet.ofList (g.nodeIds.filter (g.postDominates anchor))
  else .empty

/-- The first node of a set, in the order of the graph, that all others of the set dominate. -/
def nearest? (g : FlowGraph) (dominates : NodeId → NodeId → Bool) (doms : NodeSet) :
    Option NodeId :=
  (g.nodeIds.filter fun id => id ∈ doms).find? fun p =>
    doms.toList.all fun q => q = p || dominates p q

def immediatePostDominator? (g : FlowGraph) (anchor : NodeId) : Option NodeId :=
  g.nearest? g.postDominates (g.postDominators anchor)

def postDominatorTable (g : FlowGraph) : List (NodeId × NodeSet) :=
  g.nodeIds.map fun id => (id, g.postDominators id)

/-- Every node with its post-dominators and the immediate one, which is looked up in the table
of all post-dominators. -/
def postDominance (g : FlowGraph) : List (NodeId × NodeSet × Option NodeId) :=
  let table := g.postDominatorTable
  let dominates := fun p q => (table.lookup p).any fun doms => q ∈ doms
  table.map fun (id, doms) => (id, doms, g.nearest? dominates doms)

end ProgramFlow.FlowGraph
