import ProgramFlow.Closure
import ProgramFlow.FlowGraph

/-! Basic blocks. A block starts at a leader and goes on while control has exactly one way to
go, up to the next leader. Nodes that no leader's block holds become blocks of their own. -/
namespace ProgramFlow

structure BasicBlock where
  id : BlockId
  leader : NodeId
  nodes : List NodeId
  deriving DecidableEq, Inhabited, Repr

namespace FlowGraph

/-- Where control can come in from more than one place or not at all: the start, a node without
exactly one control predecessor, a node behind a branch, the target of a back edge or of an
exception, and what the method lists as exception target. -/
def isLeader (g : FlowGraph) (id : NodeId) : Bool :=
  id = g.start || (g.controlPredecessors id).length ≠ 1 || g.isNextToBranch id ||
    ((g.incoming id).any fun e => e.isLoopback || e.kind = .exceptionCatch) ||
    g.methodEntry?.any fun m => id ∈ m.exceptions

/-- The one node control goes to, if it neither leads a block nor belongs to one. -/
def nextInLine? (g : FlowGraph) (taken : NodeSet) (id : NodeId) : Option NodeId :=
  match g.controlSuccessors id with
  | [next] =>
    if g.isLeader next || decide (next ∈ taken) || !decide (next ∈ g.nodeIds) then none
    else some next
  | _ => none

theorem nextInLine?_eq_some {g : FlowGraph} {taken : NodeSet} {id next : NodeId}
    (h : g.nextInLine? taken id = some next) : ¬ next ∈ taken ∧ next ∈ g.nodeIds := by
  simp only [nextInLine?] at h
  split at h
  · split at h
    · exact absurd h (by simp)
    · next hc =>
      cases h
      simp only [Bool.or_eq_true, decide_eq_true_eq, Bool.not_eq_true', decide_eq_false_iff_not,
        not_or, Classical.not_not] at hc
      exact ⟨hc.1.2, hc.2⟩
  · exact absurd h (by simp)

theorem unseen_insert_lt {domain : List NodeId} {seen : NodeSet} {x : NodeId}
    (hu : x ∈ domain) (hs : ¬ x ∈ seen) :
    (unseen domain (seen.insert x)).length < (unseen domain seen).length := by
  refine length_filter_lt hu (by simpa using hs) (by simp) fun y hy => ?_
  simp only [NodeSet.mem_insert, not_or, decide_eq_true_eq] at hy
  simpa using hy.2

def line (g : FlowGraph) (taken : NodeSet) (id : NodeId) : List NodeId :=
  match _h : g.nextInLine? taken id with
  | some next => next :: g.line (taken.insert next) next
  | none => []
termination_by (unseen g.nodeIds taken).length
decreasing_by exact unseen_insert_lt (nextInLine?_eq_some _h).2 (nextInLine?_eq_some _h).1

/-- The blocks of leaders that are not taken yet, in order, and then one block for each node
that is left. -/
def runs (g : FlowGraph) : List NodeId → NodeSet → List (List NodeId)
  | [], taken => (g.nodeIds.filter fun id => ¬ id ∈ taken).map fun id => [id]
  | leader :: rest, taken =>
    if g.contains leader && !decide (leader ∈ taken) then
      let run := leader :: g.line (taken.insert leader) leader
      run :: g.runs rest (taken.union (NodeSet.ofList run))
    else g.runs rest taken

/-- The start, then the other leaders in the order of the graph. -/
def leaders (g : FlowGraph) : List NodeId :=
  g.start :: g.nodeIds.filter fun id => id ≠ g.start && g.isLeader id

def partition (g : FlowGraph) : List BasicBlock :=
  (g.runs g.leaders .empty).zipIdx.filterMap fun (run, index) =>
    run.head?.map fun leader => ⟨⟨index⟩, leader, run⟩

def markBlocks (g : FlowGraph) (blocks : List BasicBlock) : FlowGraph :=
  let mark (n : Node) : Node :=
    { n with block := (blocks.find? fun b => n.id ∈ b.nodes).map (·.id) }
  { g with graph := { g.graph with nodes := g.graph.nodes.map mark } }

end FlowGraph

end ProgramFlow
