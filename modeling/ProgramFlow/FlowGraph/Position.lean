import ProgramFlow.FlowGraph

/-! The nodes whose source text covers a position, narrowest first: by number of lines, then by
number of columns, then in the order of the graph. -/
namespace ProgramFlow.FlowGraph

def breadth (s : Span) : Except Overflow (Nat × Nat) := do
  let lines ← s.lineCount
  return (lines, s.columnCount)

def narrower (a b : Nat × Nat) : Bool := a.1 < b.1 || (a.1 = b.1 && a.2 ≤ b.2)

def covering (g : FlowGraph) (here : Location) : List (NodeId × Span) :=
  g.nodes.filterMap fun n =>
    match n.span with
    | some s => if s.containsPosition here then some (n.id, s) else none
    | none => none

/-- The breadth of a span is asked only where there is something to compare, so a span too tall
to count spoils the answer only beside another one. -/
def nodesAt (g : FlowGraph) (here : Location) : Except Overflow (List NodeId) :=
  match g.covering here with
  | [] => .ok []
  | [hit] => .ok [hit.1]
  | hits => do
    let ranked ← hits.mapM fun hit => do
      let width ← breadth hit.2
      return (width, hit.1)
    return (ranked.mergeSort fun a b => narrower a.1 b.1).map (·.2)

end ProgramFlow.FlowGraph
