import ProgramFlow.Proofs.PostDominance

/-! Paths with the nodes they go through. A route tells which nodes are avoided; a path lists those
that are met, so that "every path from here to there meets a node" can be said as it stands. The one
stopped walk that decides post-dominance decides just that. -/
namespace ProgramFlow.FlowGraph

/-- There is a path from the first node to the last that goes through the nodes listed, both ends
included; back edges are taken only if allowed. -/
inductive PathThrough (g : FlowGraph) (loopbackOk : Bool) :
    NodeId → List NodeId → NodeId → Prop where
  | single {a} (ha : a ∈ g.nodeIds) : PathThrough g loopbackOk a [a] a
  | cons {a b c nodes} {e : Flow} (ha : a ∈ g.nodeIds) (he : e ∈ g.edges) (hs : e.source = a)
      (ht : e.target = b) (hback : (loopbackOk || !e.isLoopback) = true)
      (rest : PathThrough g loopbackOk b nodes c) : PathThrough g loopbackOk a (a :: nodes) c

variable {g : FlowGraph} {loopbackOk : Bool} {a b : NodeId} {nodes : List NodeId}

namespace PathThrough

theorem source_mem (h : g.PathThrough loopbackOk a nodes b) : a ∈ g.nodeIds := by
  cases h with
  | single ha => exact ha
  | cons ha => exact ha

theorem mem_iff {x : NodeId} (h : g.PathThrough loopbackOk a nodes b) :
    x ∈ nodes ↔ x = a ∨ x ∈ nodes.tail := by
  cases h <;> simp

theorem route (h : g.PathThrough loopbackOk a nodes b) {avoid : Set NodeId}
    (havoid : ∀ x ∈ nodes.tail, x ∉ avoid) : g.Route .forward loopbackOk avoid a b := by
  induction h with
  | single => exact .refl
  | @cons a b c nodes e _ he hs ht hback rest ih =>
    have hstep : g.Step .forward loopbackOk a b :=
      step_iff.2 ⟨⟨e, he, ⟨hs, ht⟩, hback⟩, rest.source_mem⟩
    have hb : b ∉ avoid := havoid b (rest.mem_iff.2 (.inl rfl))
    refine .head ⟨hstep, hb⟩ (ih fun x hx => ?_)
    exact havoid x (rest.mem_iff.2 (.inr hx))

end PathThrough

theorem Route.exists_path {avoid : Set NodeId} (h : g.Route .forward loopbackOk avoid a b)
    (ha : a ∈ g.nodeIds) :
    ∃ nodes, g.PathThrough loopbackOk a nodes b ∧ ∀ x ∈ nodes.tail, x ∉ avoid := by
  induction h using Relation.ReflTransGen.head_induction_on with
  | refl => exact ⟨[b], .single ha, by simp⟩
  | @head a c hac _ ih =>
    obtain ⟨⟨e, he, ⟨hs, ht⟩, hback⟩, hc⟩ := step_iff.1 hac.1
    obtain ⟨nodes, hpath, havoid⟩ := ih hc
    refine ⟨a :: nodes, .cons ha he hs ht hback hpath, ?_⟩
    intro x hx
    rcases hpath.mem_iff.1 hx with rfl | hx
    · exact hac.2
    · exact havoid x hx

/-- The node can be reached, and there is no other way to the finish. -/
structure Unavoidable (g : FlowGraph) (anchor candidate : NodeId) : Prop where
  ne_anchor : candidate ≠ anchor
  ne_finish : candidate ≠ g.finish
  reached : ∃ nodes, g.PathThrough true anchor nodes candidate
  met : ∀ nodes, g.PathThrough true anchor nodes g.finish → candidate ∈ nodes

theorem unavoidable_iff {anchor candidate : NodeId} : g.Unavoidable anchor candidate ↔
    candidate ≠ anchor ∧ candidate ≠ g.finish ∧ anchor ∈ g.nodeIds ∧ g.Path ∅ anchor candidate ∧
      ¬ g.Path {candidate} anchor g.finish := by
  constructor
  · intro h
    obtain ⟨nodes, hpath⟩ := h.reached
    refine ⟨h.ne_anchor, h.ne_finish, hpath.source_mem, hpath.route (by simp), ?_⟩
    intro hroute
    obtain ⟨nodes', hpath', havoid⟩ := hroute.exists_path hpath.source_mem
    rcases hpath'.mem_iff.1 (h.met nodes' hpath') with heq | hmem
    · exact h.ne_anchor heq
    · exact havoid candidate hmem rfl
  · rintro ⟨hne, hfinish, hanchor, hroute, hcut⟩
    obtain ⟨nodes, hpath, -⟩ := hroute.exists_path hanchor
    refine ⟨hne, hfinish, ⟨nodes, hpath⟩, fun nodes' hpath' => ?_⟩
    by_contra hnot
    apply hcut
    apply hpath'.route
    rintro x hx rfl
    exact hnot (hpath'.mem_iff.2 (.inr hx))

/-- A node post-dominates another exactly if it is neither that node nor the finish, a path leads to
it and every path to the finish goes through it, whether or not there is any; and the set of
post-dominators has all such nodes and no others. -/
theorem postDominators_are_unavoidable (g : FlowGraph) (anchor candidate : NodeId) :
    (g.postDominates anchor candidate = true ↔ g.Unavoidable anchor candidate) ∧
      (candidate ∈ g.postDominators anchor ↔ g.Unavoidable anchor candidate) := by
  rw [mem_postDominators, postDominates_iff, unavoidable_iff]
  exact ⟨Iff.rfl, Iff.rfl⟩

end ProgramFlow.FlowGraph
