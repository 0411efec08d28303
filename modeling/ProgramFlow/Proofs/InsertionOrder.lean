import ProgramFlow.Proofs.BlockLines
import ProgramFlow.Proofs.GraphAppend

/-! Two graphs with the same nodes and edges, which were added in different orders. The edges around a
node come in another order, and so do the leaders, the candidates and the leftovers that the analyses
go through. Both results are the same all the same: blocks and post-dominators are told by what the
graph has, and there is one immediate post-dominator at most. -/
namespace ProgramFlow

theorem Node.methodEntry?_congr {n m : Node} (h : n.data = m.data) :
    n.methodEntry? = m.methodEntry? := by
  simp only [Node.methodEntry?, entry?, h]

namespace FlowGraph

/-- The same declaration with the same nodes and edges, in any order. Of a node only its identity and
its data count; of an edge everything does. -/
structure SameContent (g h : FlowGraph) : Prop where
  start : g.start = h.start
  finish : g.finish = h.finish
  nodes : ∀ id data, (∃ n ∈ g.nodes, n.id = id ∧ n.data = data) ↔
    ∃ n ∈ h.nodes, n.id = id ∧ n.data = data
  edges : ∀ e, e ∈ g.edges ↔ e ∈ h.edges

theorem nodup_edges {g : FlowGraph} (hg : g.graph.Made) : g.edges.Nodup :=
  .of_map _ hg.wellFormed.keys

namespace SameContent

variable {g h : FlowGraph} (hs : g.SameContent h)

include hs

theorem symm : h.SameContent g :=
  ⟨hs.start.symm, hs.finish.symm, fun id data => (hs.nodes id data).symm, fun e => (hs.edges e).symm⟩

theorem mem_nodeIds {id : NodeId} : id ∈ g.nodeIds ↔ id ∈ h.nodeIds := by
  have hsub : ∀ {g h : FlowGraph}, g.SameContent h → id ∈ g.nodeIds → id ∈ h.nodeIds := by
    intro g h hs hid
    obtain ⟨n, hn, rfl⟩ := List.mem_map.1 hid
    obtain ⟨m, hm, heq, -⟩ := (hs.nodes _ _).1 ⟨n, hn, rfl, rfl⟩
    exact List.mem_map.2 ⟨m, hm, heq⟩
  exact ⟨hsub hs, hsub hs.symm⟩

theorem step_eq (direction : Direction) (loopbackOk : Bool) :
    g.Step direction loopbackOk = h.Step direction loopbackOk := by
  funext u v
  rw [eq_iff_iff, step_iff, step_iff, hs.mem_nodeIds]
  simp only [hs.edges]

theorem path_eq (avoid : Set NodeId) : g.Path avoid = h.Path avoid := by
  unfold Path Route
  rw [hs.step_eq]

theorem postDominates_eq (a p : NodeId) : g.postDominates a p = h.postDominates a p := by
  rw [Bool.eq_iff_iff, postDominates_iff, postDominates_iff, hs.finish, hs.mem_nodeIds, hs.path_eq,
    hs.path_eq]

/-- The nodes are gone through in another order, but only one of them can be the answer. -/
theorem immediatePostDominator?_eq {a : NodeId} (ha : g.Path ∅ a g.finish) :
    g.immediatePostDominator? a = h.immediatePostDominator? a := by
  have ha' : h.Path ∅ a h.finish := by
    rw [← hs.path_eq, ← hs.finish]
    exact ha
  apply Option.ext
  intro p
  rw [immediatePostDominator?_eq_some_iff ha, immediatePostDominator?_eq_some_iff ha']
  simp only [hs.postDominates_eq]

variable (hg : g.graph.Made) (hh : h.graph.Made)

include hg hh

theorem edges_perm : g.edges.Perm h.edges :=
  (List.perm_ext_iff_of_nodup (nodup_edges hg) (nodup_edges hh)).2 hs.edges

theorem outgoing_perm (id : NodeId) : (g.outgoing id).Perm (h.outgoing id) :=
  (List.reverse_perm _).trans
    (((hs.edges_perm hg hh).filter _).trans (List.reverse_perm _).symm)

theorem incoming_perm (id : NodeId) : (g.incoming id).Perm (h.incoming id) :=
  (List.reverse_perm _).trans
    (((hs.edges_perm hg hh).filter _).trans (List.reverse_perm _).symm)

theorem controlSuccessors_perm (id : NodeId) :
    (g.controlSuccessors id).Perm (h.controlSuccessors id) :=
  ((hs.outgoing_perm hg hh id).filter _).map _

theorem controlPredecessors_perm (id : NodeId) :
    (g.controlPredecessors id).Perm (h.controlPredecessors id) :=
  ((hs.incoming_perm hg hh id).filter _).map _

omit hg in
theorem exists_same_data {id : NodeId} {n : Node} (hn : g.node? id = some n) :
    ∃ m, h.node? id = some m ∧ n.data = m.data := by
  have hmem : n ∈ g.nodes := List.mem_of_find?_eq_some hn
  obtain ⟨m, hm, hid, hdata⟩ := (hs.nodes id n.data).1 ⟨n, hmem, id_of_node? hn, rfl⟩
  refine ⟨m, ?_, hdata.symm⟩
  rw [← hid]
  exact node?_of_mem hh.nodup_nodeIds hm

omit hg in
theorem methodEntry?_eq : g.methodEntry? = h.methodEntry? := by
  unfold methodEntry? startNode?
  rw [← hs.start]
  cases hn : g.node? g.start with
  | none =>
    have hnone : h.node? g.start = none := by
      by_contra hsome
      obtain ⟨m, hm⟩ := Option.ne_none_iff_exists'.1 hsome
      obtain ⟨n, hn'⟩ := exists_node?.2 (hs.mem_nodeIds.2 (exists_node?.1 ⟨m, hm⟩))
      rw [hn] at hn'
      cases hn'
    rw [hnone]
  | some n =>
    obtain ⟨m, hm, hdata⟩ := hs.exists_same_data hh hn
    rw [hm]
    exact Node.methodEntry?_congr hdata

theorem isBranch_eq : g.isBranch = h.isBranch := by
  funext id
  simp only [isBranch, (hs.controlSuccessors_perm hg hh id).length_eq]

theorem isLeader_eq : g.isLeader = h.isLeader := by
  funext id
  have hpred := hs.controlPredecessors_perm hg hh id
  have hin := hs.incoming_perm hg hh id
  simp only [isLeader, isNextToBranch, hs.start, hpred.length_eq, hpred.any_eq,
    hin.any_eq, hs.isBranch_eq hg hh, hs.methodEntry?_eq hh]

theorem continues_eq : g.Continues = h.Continues := by
  funext a b
  have hnext : g.controlSuccessors a = [b] ↔ h.controlSuccessors a = [b] := by
    rw [← List.perm_singleton, ← List.perm_singleton, (hs.controlSuccessors_perm hg hh a).congr_left]
  have hleader := congrFun (hs.isLeader_eq hg hh) b
  rw [eq_iff_iff]
  constructor
  · intro hab
    exact ⟨hnext.1 hab.next, hleader ▸ hab.not_leader, hs.mem_nodeIds.1 hab.inside⟩
  · intro hab
    exact ⟨hnext.2 hab.next, hleader ▸ hab.not_leader, hs.mem_nodeIds.2 hab.inside⟩

theorem isBlock {run : List NodeId} (hrun : g.IsBlock run) : h.IsBlock run := by
  have hleader := hs.isLeader_eq hg hh
  have hnext := hs.continues_eq hg hh
  cases hrun with
  | line ha hl hrun => exact .line (hs.mem_nodeIds.1 ha) (hleader ▸ hl) (hnext ▸ hrun)
  | single ha hoff =>
    refine .single (hs.mem_nodeIds.1 ha) fun l hl => ?_
    rw [← hleader, ← hnext]
    exact hoff l (hs.mem_nodeIds.2 hl)

theorem runs_perm : (g.runs g.leaders .empty).Perm (h.runs h.leaders .empty) := by
  rw [List.perm_ext_iff_of_nodup (nodup_runs hg.nodup_nodeIds) (nodup_runs hh.nodup_nodeIds)]
  intro run
  rw [mem_runs_leaders, mem_runs_leaders]
  exact ⟨hs.isBlock hg hh, hs.symm.isBlock hh hg⟩

end SameContent

end FlowGraph

namespace Cfg

/-- The order in which nodes and edges were added does not matter to the analyses. The blocks are the
same but for their numbers, and where the finish can be reached so is the immediate post-dominator. -/
theorem insertion_order_does_not_matter {c d : Cfg} (hc : c.flow.graph.Made)
    (hd : d.flow.graph.Made) (h : c.flow.SameContent d.flow) :
    (c.computeBlocks.blocks.map fun block => (block.leader, block.nodes)).Perm
      (d.computeBlocks.blocks.map fun block => (block.leader, block.nodes)) ∧
    ∀ anchor, c.flow.finish ∈ c.flow.forwardReachable anchor true (fun _ => false) →
      c.flow.immediatePostDominator? anchor = d.flow.immediatePostDominator? anchor := by
  constructor
  · have hruns := h.runs_perm hc hd
    rw [computeBlocks, computeBlocks, FlowGraph.map_partition, FlowGraph.map_partition]
    exact hruns.filterMap _
  · intro anchor hreach
    exact h.immediatePostDominator?_eq (FlowGraph.mem_reached_free.1 hreach).2

def addedInOrder (nodes : List NodeId) (edges : List (NodeId × NodeId)) : Cfg where
  flow :=
    { qualifiedName := "A.f"
      start := 1
      finish := 8
      graph := .ofLists (nodes.map fun id => { id, data := .dummy, link := ⟨id.val⟩ })
        (edges.map fun (source, target) => { source, target, kind := .fallThrough }) }

/-- Two branches meet again, with a line before and behind them. With everything added in the opposite
order the blocks are numbered differently. -/
theorem insertion_order_does_not_matter_backwards :
    let nodes : List NodeId := [1, 2, 3, 4, 5, 6, 7, 8]
    let edges : List (NodeId × NodeId) :=
      [(1, 2), (2, 3), (3, 4), (3, 5), (4, 6), (5, 6), (6, 7), (7, 8)]
    let c := addedInOrder nodes edges
    let d := addedInOrder nodes.reverse edges.reverse
    c.computeBlocks.blocks.map (·.nodes) = [[1, 2, 3], [4], [5], [6, 7, 8]] ∧
      d.computeBlocks.blocks.map (·.nodes) = [[1, 2, 3], [6, 7, 8], [5], [4]] ∧
      (c.computeBlocks.blocks.map fun block => (block.leader, block.nodes)).Perm
        (d.computeBlocks.blocks.map fun block => (block.leader, block.nodes)) ∧
      c.flow.immediatePostDominator? 3 = d.flow.immediatePostDominator? 3 := by
  intro nodes edges c d
  have hc : c.flow.graph.Made := Graph.Made.ofLists _ _
  have hd : d.flow.graph.Made := Graph.Made.ofLists _ _
  have hnodes : d.flow.nodes = c.flow.nodes.reverse := by decide +kernel
  have hedges : d.flow.edges = c.flow.edges.reverse := by decide +kernel
  have hsame : c.flow.SameContent d.flow :=
    ⟨rfl, rfl, by simp [hnodes], by simp [hedges]⟩
  obtain ⟨hblocks, hnearest⟩ := insertion_order_does_not_matter hc hd hsame
  refine ⟨by decide +kernel, by decide +kernel, hblocks, hnearest 3 (by decide +kernel)⟩

end Cfg

end ProgramFlow
