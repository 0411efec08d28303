import ProgramFlow.Cfg

/-! What the partition into blocks consists of: straight lines behind leaders, and single nodes. -/
namespace ProgramFlow

namespace FlowGraph

variable {g : FlowGraph}

inductive IsRun (g : FlowGraph) : List NodeId → Prop where
  | line {leader} (taken) (h : leader ∈ g.nodeIds) :
      IsRun g (leader :: g.line (NodeSet.insert taken leader) leader)
  | single {id} (h : id ∈ g.nodeIds) : IsRun g [id]

theorem IsRun.ne_nil {run : List NodeId} (h : IsRun g run) : run ≠ [] := by
  cases h <;> simp

theorem isRun_of_mem_runs {leaders : List NodeId} {taken : NodeSet} {run : List NodeId}
    (h : run ∈ g.runs leaders taken) : IsRun g run := by
  induction leaders generalizing taken with
  | nil =>
    simp only [runs, List.mem_map, List.mem_filter] at h
    obtain ⟨id, hid, rfl⟩ := h
    exact .single hid.1
  | cons leader rest ih =>
    simp only [runs] at h
    split at h
    · next hl =>
      rw [Bool.and_eq_true] at hl
      rcases List.mem_cons.1 h with rfl | h
      · exact .line taken (contains_iff.1 hl.1)
      · exact ih h
    · exact ih h

theorem runs_ne_nil {leaders : List NodeId} {taken : NodeSet} {id : NodeId}
    (hid : id ∈ g.nodeIds) (ht : ¬ id ∈ taken) : g.runs leaders taken ≠ [] := by
  induction leaders with
  | nil =>
    have hmem : id ∈ g.nodeIds.filter fun id => ¬ id ∈ taken :=
      List.mem_filter.2 ⟨hid, by simpa using ht⟩
    simp only [runs, ne_eq, List.map_eq_nil_iff]
    exact List.ne_nil_of_mem hmem
  | cons leader rest ih =>
    simp only [runs]
    split
    · exact List.cons_ne_nil _ _
    · exact ih

theorem mem_partition {block : BasicBlock} (h : block ∈ g.partition) :
    block.nodes ∈ g.runs g.leaders .empty ∧ block.nodes.head? = some block.leader := by
  simp only [partition, List.mem_filterMap, Option.map_eq_some_iff] at h
  obtain ⟨⟨run, index⟩, hrun, leader, hleader, rfl⟩ := h
  exact ⟨(List.mem_zipIdx hrun).2.2 ▸ List.getElem_mem _, hleader⟩

/-- A graph that has a node has a block. -/
theorem partition_ne_nil (h : g.nodeIds ≠ []) : g.partition ≠ [] := by
  obtain ⟨id, hid⟩ := List.exists_mem_of_ne_nil _ h
  have hruns : g.runs g.leaders .empty ≠ [] := runs_ne_nil hid NodeSet.not_mem_empty
  obtain ⟨run, rest, heq⟩ := List.exists_cons_of_ne_nil hruns
  have hrun : run ∈ g.runs g.leaders .empty := heq ▸ List.mem_cons_self
  obtain ⟨leader, line, rfl⟩ := List.exists_cons_of_ne_nil (isRun_of_mem_runs hrun).ne_nil
  rw [partition, heq]
  simp

end FlowGraph

theorem Cfg.hasBlocks_computeBlocks {c : Cfg} (h : c.flow.nodeIds ≠ []) :
    c.computeBlocks.hasBlocks = true := by
  have := FlowGraph.partition_ne_nil h
  simpa [Cfg.hasBlocks, Cfg.computeBlocks] using this

theorem FlowGraph.nodeIds_markBlocks (g : FlowGraph) (blocks : List BasicBlock) :
    (g.markBlocks blocks).nodeIds = g.nodeIds := by
  simp only [markBlocks, nodeIds, Graph.nodeIds, List.map_map]
  rfl

end ProgramFlow
