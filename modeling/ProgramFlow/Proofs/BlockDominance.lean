import Mathlib.Data.List.Chain
import ProgramFlow.Proofs.Partition
import ProgramFlow.Proofs.PostDominance

/-! Blocks and post-dominance. A block is a straight line: each node in it has the next one as its
only successor, and no node comes twice. So, as long as the finish is the end of every path, a node
of a block post-dominates all nodes before it, and the one just before it immediately. -/
namespace ProgramFlow.FlowGraph

variable {g : FlowGraph} {a b : NodeId} {run : List NodeId}

theorem nextInLine?_controlSuccessors {taken : NodeSet} (h : g.nextInLine? taken a = some b) :
    g.controlSuccessors a = [b] := by
  simp only [nextInLine?] at h
  split at h
  · next heq =>
    split at h
    · cases h
    · cases h
      exact heq
  · cases h

theorem line_isChain (taken : NodeSet) (id : NodeId) :
    (id :: g.line taken id).IsChain fun x y => g.controlSuccessors x = [y] := by
  fun_induction line g taken id with
  | case1 taken id next h ih => exact .cons_cons (nextInLine?_controlSuccessors h) ih
  | case2 => exact .singleton _

theorem line_fresh (taken : NodeSet) (id : NodeId) :
    ∀ x ∈ g.line taken id, ¬ x ∈ taken ∧ x ∈ g.nodeIds := by
  fun_induction line g taken id with
  | case1 taken id next h ih =>
    refine List.forall_mem_cons.2 ⟨nextInLine?_eq_some h, fun x hx => ?_⟩
    obtain ⟨ht, hn⟩ := ih x hx
    exact ⟨fun hx => ht (NodeSet.mem_insert.2 (.inr hx)), hn⟩
  | case2 => simp

theorem line_nodup (taken : NodeSet) (id : NodeId) : (g.line taken id).Nodup := by
  fun_induction line g taken id with
  | case1 taken id next h ih =>
    refine List.nodup_cons.2 ⟨fun hn => ?_, ih⟩
    exact (line_fresh _ _ next hn).1 (NodeSet.mem_insert.2 (.inl rfl))
  | case2 => exact List.nodup_nil

structure Straight (g : FlowGraph) (run : List NodeId) : Prop where
  chain : run.IsChain fun x y => g.neighbours .forward true x = [y]
  nodup : run.Nodup
  inside : ∀ x ∈ run, x ∈ g.nodeIds

theorem controlSuccessors_eq (h : ∀ e ∈ g.edges, e.isControl = true) (id : NodeId) :
    g.controlSuccessors id = g.neighbours .forward true id := by
  have hall : ∀ e ∈ g.outgoing id, e.isControl = true := by
    intro e he
    simp only [outgoing, Graph.outgoing, List.mem_reverse, List.mem_filter] at he
    exact h e he.1
  simp [controlSuccessors, neighbours, List.filter_eq_self.2 hall]

theorem IsRun.nodup (h : g.IsRun run) : run.Nodup := by
  cases h with
  | @line leader taken hl =>
    refine List.nodup_cons.2 ⟨fun hm => ?_, line_nodup _ _⟩
    exact (line_fresh _ _ leader hm).1 (NodeSet.mem_insert.2 (.inl rfl))
  | single => exact List.nodup_singleton _

theorem IsRun.straight (h : g.IsRun run) (hc : ∀ e ∈ g.edges, e.isControl = true) :
    g.Straight run := by
  have hnodup := h.nodup
  cases h with
  | @line leader taken hl =>
    have hchain := line_isChain (g := g) (taken.insert leader) leader
    simp only [controlSuccessors_eq hc] at hchain
    have hfresh := line_fresh (g := g) (taken.insert leader) leader
    exact ⟨hchain, hnodup, List.forall_mem_cons.2 ⟨hl, fun x hx => (hfresh x hx).2⟩⟩
  | single hid => exact ⟨.singleton _, hnodup, by simpa using hid⟩

theorem Straight.markBlocks (h : g.Straight run) (blocks : List BasicBlock) :
    (g.markBlocks blocks).Straight run :=
  ⟨h.chain, h.nodup, by rw [nodeIds_markBlocks]; exact h.inside⟩

theorem Route.of_next {avoid : Set NodeId} {x : NodeId} (hnext : g.neighbours .forward true a = [b])
    (h : g.Path avoid a x) (hne : x ≠ a) : b ∉ avoid ∧ g.Path avoid b x := by
  rcases Relation.ReflTransGen.cases_head h with rfl | ⟨c, hstep, hc⟩
  · exact absurd rfl hne
  · have hb : c = b := by simpa [Step, hnext] using hstep.1.1
    subst hb
    exact ⟨hstep.2, hc⟩

theorem ne_finish_of_next (hf : g.neighbours .forward true g.finish = [])
    (hnext : g.neighbours .forward true a = [b]) : a ≠ g.finish := by
  rintro rfl
  rw [hf] at hnext
  cases hnext

section Next

variable (hnext : g.neighbours .forward true a = [b]) (ha : a ∈ g.nodeIds) (hb : b ∈ g.nodeIds)
  (haf : a ≠ g.finish) (hbf : b ≠ g.finish) (hne : b ≠ a)

include hnext ha hb haf hbf hne

theorem postDominates_of_next : g.postDominates a b = true := by
  have hstep : g.Step .forward true a b := ⟨by simp [hnext], hb⟩
  refine postDominates_iff.2 ⟨hne, hbf, ha, .single ⟨hstep, by simp⟩, fun h => ?_⟩
  exact (h.of_next hnext haf.symm).1 rfl

/-- What else post-dominates the first node does so with the second. -/
theorem immediatePostDominator?_of_next (h : g.Path ∅ a g.finish) :
    g.immediatePostDominator? a = some b := by
  rw [immediatePostDominator?_eq_some_iff h]
  refine ⟨postDominates_of_next hnext ha hb haf hbf hne, fun q hq hqb => ?_⟩
  obtain ⟨hqa, hqf, -, hpath, havoid⟩ := postDominates_iff.1 hq
  refine postDominates_iff.2 ⟨hqb, hqf, hb, (hpath.of_next hnext hqa).2, fun hb' => havoid ?_⟩
  exact Relation.ReflTransGen.head ⟨⟨by simp [hnext], hb⟩, by simpa using hqb.symm⟩ hb'

end Next

/-- Along a straight line each node post-dominates all before it; what lies between them is not
the finish, since control goes on from there. -/
theorem Straight.pairwise (h : g.Straight run) (hf : g.neighbours .forward true g.finish = []) :
    run.Pairwise fun a b => b ≠ g.finish → g.postDominates a b = true := by
  obtain ⟨hchain, hnodup, hin⟩ := h
  induction hchain with
  | nil => exact .nil
  | singleton => exact List.pairwise_singleton _ _
  | @cons_cons a b rest hab hrest ih =>
    obtain ⟨ha, hb⟩ := List.forall_mem_cons.1 hin
    obtain ⟨hfresh, hnodup⟩ := List.nodup_cons.1 hnodup
    have htail := ih hnodup hb
    refine List.pairwise_cons.2 ⟨fun y hy hyf => ?_, htail⟩
    have hnext : b ≠ g.finish → g.postDominates a b = true := fun hbf =>
      postDominates_of_next hab ha (hb b List.mem_cons_self) (ne_finish_of_next hf hab) hbf
        (fun he => hfresh (he ▸ List.mem_cons_self))
    rcases List.mem_cons.1 hy with rfl | hy'
    · exact hnext hyf
    · have hbf : b ≠ g.finish := by
        obtain ⟨c, rest', rfl⟩ := List.exists_cons_of_ne_nil (List.ne_nil_of_mem hy')
        exact ne_finish_of_next hf (List.isChain_cons_cons.1 hrest).1
      refine postDominates_trans (hnext hbf) ((List.pairwise_cons.1 htail).1 y hy' hyf) ?_
      exact fun he => hfresh (he ▸ hy)

theorem Straight.immediatePostDominator? {before behind : List NodeId}
    (h : g.Straight (before ++ a :: b :: behind))
    (hf : g.neighbours .forward true g.finish = []) (hbf : b ≠ g.finish)
    (hpath : g.Path ∅ a g.finish) : g.immediatePostDominator? a = some b := by
  have hnext : g.neighbours .forward true a = [b] :=
    List.isChain_iff_forall_rel_of_append_cons_cons.1 h.chain rfl
  have hne : b ≠ a := by
    have hnodup := (List.nodup_cons.1 (List.nodup_append.1 h.nodup).2.1).1
    rintro rfl
    exact hnodup List.mem_cons_self
  exact immediatePostDominator?_of_next hnext (h.inside a (by simp)) (h.inside b (by simp))
    (ne_finish_of_next hf hnext) hbf hne hpath

end ProgramFlow.FlowGraph

namespace ProgramFlow.Cfg

theorem straight_of_mem_blocks {c : Cfg} (hc : ∀ e ∈ c.flow.edges, e.isControl = true)
    {block : BasicBlock} (hb : block ∈ c.computeBlocks.blocks) :
    c.computeBlocks.flow.Straight block.nodes := by
  have hrun := FlowGraph.isRun_of_mem_runs (FlowGraph.mem_partition hb).1
  exact (hrun.straight hc).markBlocks _

def branchBetweenLines : Cfg where
  flow :=
    { qualifiedName := "A.f"
      start := 1
      finish := 8
      graph :=
        { nodes := [1, 2, 3, 4, 5, 6, 7, 8].map fun id => { id, data := .dummy, link := ⟨id.val⟩ }
          edges := [(1, 2), (2, 3), (3, 4), (3, 5), (4, 6), (5, 6), (6, 7), (7, 8)].map
            fun (source, target) => { source, target, kind := .fallThrough } } }

/-- Where all edges are control edges and none leaves the finish, blocks agree with
post-dominance: in a block each node but the finish post-dominates all before it, and where the
finish can be reached it is the immediate post-dominator of the one just before it. -/
theorem blocks_agree_with_postDominance {c : Cfg} (hc : ∀ e ∈ c.flow.edges, e.isControl = true)
    (hf : c.flow.outgoing c.flow.finish = []) {block : BasicBlock}
    (hb : block ∈ c.computeBlocks.blocks) :
    (block.nodes.Pairwise fun a b => b ≠ c.computeBlocks.flow.finish →
      c.computeBlocks.flow.postDominates a b = true) ∧
    ∀ before a b behind, block.nodes = before ++ a :: b :: behind →
      b ≠ c.computeBlocks.flow.finish →
      c.computeBlocks.flow.finish ∈
        c.computeBlocks.flow.forwardReachable a true (fun _ => false) →
      c.computeBlocks.flow.immediatePostDominator? a = some b := by
  have hs := straight_of_mem_blocks hc hb
  have hend : c.computeBlocks.flow.neighbours .forward true c.computeBlocks.flow.finish = [] := by
    change ((c.flow.outgoing c.flow.finish).filter _).map _ = []
    rw [hf]
    rfl
  refine ⟨hs.pairwise hend, fun before a b behind heq hbf hreach => ?_⟩
  rw [heq] at hs
  exact hs.immediatePostDominator? hend hbf (FlowGraph.mem_reached_free.1 hreach).2

theorem blocks_agree_with_postDominance_around_branch :
    branchBetweenLines.computeBlocks.blocks.map (·.nodes) = [[1, 2, 3], [4], [5], [6, 7, 8]] ∧
      branchBetweenLines.computeBlocks.flow.postDominates 1 3 = true ∧
      branchBetweenLines.computeBlocks.flow.immediatePostDominator? 6 = some 7 := by
  have hc : ∀ e ∈ branchBetweenLines.flow.edges, e.isControl = true := by decide
  have hf : branchBetweenLines.flow.outgoing branchBetweenLines.flow.finish = [] := by decide
  have hblocks : branchBetweenLines.computeBlocks.blocks =
      [⟨⟨0⟩, 1, [1, 2, 3]⟩, ⟨⟨1⟩, 4, [4]⟩, ⟨⟨2⟩, 5, [5]⟩, ⟨⟨3⟩, 6, [6, 7, 8]⟩] := by
    decide +kernel
  have hfirst : ⟨⟨0⟩, 1, [1, 2, 3]⟩ ∈ branchBetweenLines.computeBlocks.blocks := by simp [hblocks]
  have hlast : ⟨⟨3⟩, 6, [6, 7, 8]⟩ ∈ branchBetweenLines.computeBlocks.blocks := by simp [hblocks]
  obtain ⟨hpairs, -⟩ := blocks_agree_with_postDominance hc hf hfirst
  obtain ⟨-, himmediate⟩ := blocks_agree_with_postDominance hc hf hlast
  refine ⟨by rw [hblocks]; rfl, (List.pairwise_cons.1 hpairs).1 3 (by simp) (by decide), ?_⟩
  exact himmediate [] 6 7 [8] rfl (by decide) (by decide +kernel)

end ProgramFlow.Cfg
