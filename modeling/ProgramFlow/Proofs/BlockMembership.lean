import ProgramFlow.Proofs.BlockLines
import ProgramFlow.Proofs.GraphAppend

/-! The blocks of a graph divide its nodes among them. Membership is kept twice, in the lists of the
blocks and in the nodes; the nodes are marked by a search through the lists, which finds one block
only. What a graph has been marked with before does not enter into the partition. -/
namespace ProgramFlow

namespace FlowGraph

variable {g h : FlowGraph} {block other : BasicBlock} {id : NodeId} {i : Nat}

section Membership

theorem partition_eq_mapIdx : g.partition =
    (g.runs g.leaders .empty).mapIdx fun index run => ⟨⟨index⟩, run.headI, run⟩ := by
  rw [partition, List.mapIdx_eq_zipIdx_map, List.filterMap_eq_map_iff_forall_eq_some]
  rintro ⟨run, index⟩ hrun
  have hmem : run ∈ g.runs g.leaders .empty := (List.mem_zipIdx hrun).2.2 ▸ List.getElem_mem _
  obtain ⟨leader, rest, rfl⟩ := List.exists_cons_of_ne_nil (isRun_of_mem_runs hmem).ne_nil
  rfl

theorem map_nodes_partition : g.partition.map (·.nodes) = g.runs g.leaders .empty := by
  apply List.ext_getElem?
  intro i
  simp [partition_eq_mapIdx, Function.comp_def]

theorem id_of_partition (hb : g.partition[i]? = some block) : block.id = ⟨i⟩ := by
  rw [partition_eq_mapIdx, List.getElem?_mapIdx, Option.map_eq_some_iff] at hb
  obtain ⟨run, -, rfl⟩ := hb
  rfl

theorem exists_listing_iff : (∃ block ∈ g.partition, id ∈ block.nodes) ↔ id ∈ g.nodeIds := by
  have hlisted : id ∈ (g.partition.map (·.nodes)).flatten ↔ id ∈ g.nodeIds := by
    rw [map_nodes_partition, mem_flatten_runs, and_iff_left NodeSet.not_mem_empty]
  rw [← hlisted, ← List.flatMap_def, List.mem_flatMap]

theorem nodup_nodes (hb : block ∈ g.partition) : block.nodes.Nodup :=
  (isRun_of_mem_runs (mem_partition hb).1).nodup

theorem eq_of_listed (hids : g.nodeIds.Nodup) (hb : block ∈ g.partition) (ho : other ∈ g.partition)
    (hid : id ∈ block.nodes) (hid' : id ∈ other.nodes) : other = block := by
  have hflatten : (g.runs g.leaders .empty).flatten.Nodup := nodup_flatten_runs hids
  have hapart : g.partition.Pairwise fun b b' => b.nodes.Disjoint b'.nodes := by
    rw [← List.pairwise_map, map_nodes_partition]
    exact (List.nodup_flatten.1 hflatten).2
  have hsymm : Std.Symm fun b b' : BasicBlock => b.nodes.Disjoint b'.nodes :=
    ⟨fun _ _ h _ hx hx' => h hx' hx⟩
  by_contra hne
  exact hapart.forall ho hb hne hid' hid

theorem find?_partition (hids : g.nodeIds.Nodup) (hb : block ∈ g.partition)
    (hid : id ∈ block.nodes) :
    (g.partition.find? fun b => id ∈ b.nodes) = some block := by
  have hsome : (g.partition.find? fun b => id ∈ b.nodes).isSome = true := by
    rw [List.find?_isSome]
    exact ⟨block, hb, decide_eq_true hid⟩
  obtain ⟨found, hfound⟩ := Option.isSome_iff_exists.1 hsome
  have hmem : found ∈ g.partition := List.mem_of_find?_eq_some hfound
  have hlists : id ∈ found.nodes := by simpa using List.find?_some hfound
  rw [hfound, eq_of_listed hids hb hmem hid hlists]

end Membership

section Marks

def withMarks (g : FlowGraph) (marks : Node → Option BlockId) : FlowGraph :=
  { g with
    graph := { g.graph with nodes := g.graph.nodes.map fun n => { n with block := marks n } } }

theorem markBlocks_eq_withMarks (blocks : List BasicBlock) : g.markBlocks blocks =
    g.withMarks fun n => (blocks.find? fun b => n.id ∈ b.nodes).map (·.id) := rfl

theorem nodeIds_withMarks (marks : Node → Option BlockId) :
    (g.withMarks marks).nodeIds = g.nodeIds := by
  simp only [withMarks, nodeIds, Graph.nodeIds, List.map_map]
  rfl

theorem node?_withMarks (marks : Node → Option BlockId) :
    (g.withMarks marks).node? id = (g.node? id).map fun n => { n with block := marks n } := by
  simp only [withMarks, node?, Graph.node?, List.find?_map]
  rfl

theorem methodEntry?_withMarks (marks : Node → Option BlockId) :
    methodEntry? (g.withMarks marks) = g.methodEntry? := by
  change (((g.withMarks marks).node? g.start).bind Node.methodEntry?) = _
  rw [node?_withMarks, Option.bind_map]
  rfl

structure SameOutline (g h : FlowGraph) : Prop where
  start : h.start = g.start
  edges : h.graph.edges = g.graph.edges
  nodeIds : h.nodeIds = g.nodeIds
  methodEntry? : h.methodEntry? = g.methodEntry?

namespace SameOutline

variable (hs : g.SameOutline h)

include hs

theorem controlSuccessors_eq : h.controlSuccessors = g.controlSuccessors := by
  funext id
  simp only [controlSuccessors, outgoing, Graph.outgoing, hs.edges]

theorem isLeader_eq : h.isLeader = g.isLeader := by
  have hincoming : h.incoming = g.incoming := by
    funext id
    simp only [incoming, Graph.incoming, hs.edges]
  have hbranch : h.isBranch = g.isBranch := by
    funext id
    simp only [isBranch, hs.controlSuccessors_eq]
  have hpredecessors : h.controlPredecessors = g.controlPredecessors := by
    funext id
    rw [controlPredecessors, hincoming, controlPredecessors]
  funext id
  simp only [isLeader, isNextToBranch, hpredecessors, hbranch, hincoming, hs.start, hs.methodEntry?]

theorem nextInLine?_eq : h.nextInLine? = g.nextInLine? := by
  funext taken id
  simp only [nextInLine?, hs.controlSuccessors_eq, hs.isLeader_eq, hs.nodeIds]

theorem line_eq (taken : NodeSet) (id : NodeId) : h.line taken id = g.line taken id := by
  fun_induction line g taken id with
  | case1 taken id next hnext ih =>
    rw [← hs.nextInLine?_eq] at hnext
    rw [line]
    split
    · next heq =>
      obtain rfl : next = _ := Option.some.inj (hnext.symm.trans heq)
      rw [ih]
    · next heq => rw [hnext] at heq; cases heq
  | case2 taken id hnone =>
    rw [← hs.nextInLine?_eq] at hnone
    rw [line]
    split
    · next heq => rw [hnone] at heq; cases heq
    · rfl

theorem runs_eq (leaders : List NodeId) (taken : NodeSet) :
    h.runs leaders taken = g.runs leaders taken := by
  induction leaders generalizing taken with
  | nil => rw [runs, runs, hs.nodeIds]
  | cons leader rest ih =>
    by_cases hfree : leader ∈ g.nodeIds ∧ ¬ leader ∈ taken
    · rw [runs_cons_of_free hfree.1 hfree.2, runs_cons_of_free (hs.nodeIds ▸ hfree.1) hfree.2, ih,
        hs.line_eq]
    · rw [runs_cons_of_not_free hfree, runs_cons_of_not_free (hs.nodeIds ▸ hfree), ih]

theorem partition_eq : h.partition = g.partition := by
  have hleaders : h.leaders = g.leaders := by
    simp only [leaders, hs.start, hs.nodeIds, hs.isLeader_eq]
  simp only [partition, hs.runs_eq, hleaders]

end SameOutline

theorem sameOutline_withMarks (marks : Node → Option BlockId) : g.SameOutline (g.withMarks marks) :=
  ⟨rfl, rfl, nodeIds_withMarks marks, methodEntry?_withMarks marks⟩

end Marks

end FlowGraph

namespace Cfg

/-- The blocks list every node of the graph once and nothing else, each under its number and with
its leader first, and each node knows the block that lists it. -/
structure Partitioned (c : Cfg) : Prop where
  listed : ∀ id ∈ c.flow.nodeIds, ∃ block ∈ c.blocks, block.nodes.count id = 1 ∧
    ∀ other ∈ c.blocks, id ∈ other.nodes → other = block
  inside : ∀ block ∈ c.blocks, ∀ id ∈ block.nodes, id ∈ c.flow.nodeIds
  numbered : ∀ i (block : BasicBlock), c.blocks[i]? = some block → block.id = ⟨i⟩
  led : ∀ block ∈ c.blocks, block.nodes.head? = some block.leader
  marked : ∀ n ∈ c.flow.nodes, ∀ block ∈ c.blocks, n.id ∈ block.nodes → n.block = some block.id
  found : ∀ block ∈ c.blocks, ∀ id ∈ block.nodes, c.blockOf? id = some block

variable {c : Cfg} {block : BasicBlock} {id : NodeId}

theorem nodeIds_computeBlocks : c.computeBlocks.flow.nodeIds = c.flow.nodeIds :=
  c.flow.nodeIds_markBlocks _

theorem block_of_mem_nodes (hids : c.flow.nodeIds.Nodup) (hb : block ∈ c.computeBlocks.blocks)
    {n : Node} (hn : n ∈ c.computeBlocks.flow.nodes) (hid : n.id ∈ block.nodes) :
    n.block = some block.id := by
  obtain ⟨m, -, rfl⟩ := List.mem_map.1 hn
  change ((c.flow.partition.find? fun b => m.id ∈ b.nodes).map (·.id)) = some block.id
  rw [FlowGraph.find?_partition hids hb hid]
  rfl

theorem blockOf?_computeBlocks (hids : c.flow.nodeIds.Nodup) (hb : block ∈ c.computeBlocks.blocks)
    (hid : id ∈ block.nodes) : c.computeBlocks.blockOf? id = some block := by
  have hin : id ∈ c.computeBlocks.flow.nodeIds := by
    rw [nodeIds_computeBlocks]
    exact FlowGraph.exists_listing_iff.1 ⟨block, hb, hid⟩
  obtain ⟨n, hn⟩ := FlowGraph.exists_node?.2 hin
  have hmem : n ∈ c.computeBlocks.flow.nodes := List.mem_of_find?_eq_some hn
  have hmark := block_of_mem_nodes hids hb hmem ((FlowGraph.id_of_node? hn).symm ▸ hid)
  obtain ⟨i, hi⟩ := List.mem_iff_getElem?.1 hb
  rw [blockOf?, hn, Option.bind_some, hmark, Option.bind_some, block?, FlowGraph.id_of_partition hi]
  exact hi

theorem partitioned_computeBlocks (hids : c.flow.nodeIds.Nodup) : c.computeBlocks.Partitioned where
  listed id hid := by
    rw [nodeIds_computeBlocks] at hid
    obtain ⟨block, hb, hlists⟩ := FlowGraph.exists_listing_iff.2 hid
    refine ⟨block, hb, List.count_eq_one_of_mem (FlowGraph.nodup_nodes hb) hlists, ?_⟩
    exact fun other ho hid' => FlowGraph.eq_of_listed hids hb ho hlists hid'
  inside block hb id hid := by
    rw [nodeIds_computeBlocks]
    exact FlowGraph.exists_listing_iff.1 ⟨block, hb, hid⟩
  numbered _ _ hi := FlowGraph.id_of_partition hi
  led _ hb := (FlowGraph.mem_partition hb).2
  marked _ hn _ hb hid := block_of_mem_nodes hids hb hn hid
  found _ hb _ hid := blockOf?_computeBlocks hids hb hid

/-- Neither the blocks nor the marks that a graph had before matter. -/
theorem renewBlocks_withMarks (c : Cfg) (marks : Node → Option BlockId) (old : List BasicBlock) :
    renewBlocks ⟨c.flow.withMarks marks, old⟩ = c.renewBlocks := by
  have hpartition := (c.flow.sameOutline_withMarks marks).partition_eq
  simp only [renewBlocks, computeBlocks, hpartition, FlowGraph.markBlocks_eq_withMarks]
  simp [FlowGraph.withMarks]

/-- Computing blocks divides the nodes of the graph among the blocks, answers with the number of
blocks, and does not depend on what has been computed before. -/
theorem blocks_partition_the_nodes {c : Cfg} (hc : c.flow.graph.Made) :
    c.renewBlocks.2.Partitioned ∧ c.renewBlocks.2.flow.nodeIds = c.flow.nodeIds ∧
      c.renewBlocks.1 = c.renewBlocks.2.blocks.length ∧
      ∀ marks old, renewBlocks ⟨c.flow.withMarks marks, old⟩ = c.renewBlocks :=
  ⟨partitioned_computeBlocks hc.nodup_nodeIds, nodeIds_computeBlocks, rfl, c.renewBlocks_withMarks⟩

def markedCircle : Cfg where
  flow :=
    { qualifiedName := "A.f"
      start := 9
      finish := 3
      graph := .ofLists
        ([1, 2, 3].map fun id => { id, data := .dummy, block := some ⟨7⟩, link := ⟨id.val⟩ })
        ([(1, 2), (2, 1)].map fun (source, target) => { source, target, kind := .fallThrough }) }
  blocks := [⟨⟨7⟩, 5, [1, 1, 4]⟩, ⟨⟨7⟩, 2, []⟩]

theorem blocks_partition_the_nodes_of_circle :
    markedCircle.renewBlocks.1 = 3 ∧
      markedCircle.renewBlocks.2.blocks = [⟨⟨0⟩, 3, [3]⟩, ⟨⟨1⟩, 1, [1]⟩, ⟨⟨2⟩, 2, [2]⟩] ∧
      markedCircle.renewBlocks.2.blockOf? 2 = some ⟨⟨2⟩, 2, [2]⟩ ∧
      renewBlocks ⟨markedCircle.flow.withMarks fun _ => none, []⟩ = markedCircle.renewBlocks := by
  have hmade : markedCircle.flow.graph.Made := Graph.Made.ofLists _ _
  have hblocks : markedCircle.renewBlocks.2.blocks =
      [⟨⟨0⟩, 3, [3]⟩, ⟨⟨1⟩, 1, [1]⟩, ⟨⟨2⟩, 2, [2]⟩] := by decide +kernel
  obtain ⟨hparts, -, hcount, hrenew⟩ := blocks_partition_the_nodes hmade
  refine ⟨?_, hblocks, hparts.found _ (by simp [hblocks]) 2 (by simp), hrenew (fun _ => none) []⟩
  rw [hcount, hblocks]
  rfl

end Cfg

end ProgramFlow
