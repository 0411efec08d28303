import ProgramFlow.Proofs.NodesBetween

/-! The nodes constrained by two points lie on the ways from the one to the other of which only one
half has to keep to the point: what comes behind must not go back to the first, or what comes before
must not go through the last. Each half is found by a walk that runs on to an end of the graph and
one that stops at the point. The ends are counted in by force; where no edge leads on from them,
this adds nothing but what walks reach anyway. -/
namespace ProgramFlow

def Direction.opposite : Direction → Direction
  | .forward => .backward
  | .backward => .forward

namespace FlowGraph

variable {g : FlowGraph} {direction : Direction} {loopbackOk : Bool} {avoid : Set NodeId}
  {a b e x : NodeId}

def DeadEnd (g : FlowGraph) (direction : Direction) (loopbackOk : Bool) (e : NodeId) : Prop :=
  ∀ x, ¬ g.Step direction loopbackOk e x

theorem deadEnd_of_neighbours (h : g.neighbours direction loopbackOk e = []) :
    g.DeadEnd direction loopbackOk e := by
  intro x hstep
  have hnext := hstep.1
  rw [h] at hnext
  cases hnext

theorem DeadEnd.eq_of_route (h : g.DeadEnd direction loopbackOk e)
    (hroute : g.Route direction loopbackOk avoid e x) : x = e := by
  rcases Relation.ReflTransGen.cases_head hroute with heq | ⟨y, hstep, -⟩
  · exact heq.symm
  · exact absurd hstep.1 (h y)

/-- A walk loses nothing but the dead end itself when it is to stop there. -/
theorem DeadEnd.route_iff (h : g.DeadEnd direction loopbackOk e) :
    x = e ∨ g.Route direction loopbackOk {e} a x ↔ x = e ∨ g.Route direction loopbackOk ∅ a x := by
  constructor
  · rintro (heq | hroute)
    · exact .inl heq
    · exact .inr (hroute.mono (Set.empty_subset _))
  · rintro (heq | hroute)
    · exact .inl heq
    · rcases hroute.split_first e with hroute | ⟨-, hroute⟩
      · exact .inr (by rwa [insert_empty_eq] at hroute)
      · exact .inl (h.eq_of_route hroute)

theorem route_iff_pathAlong (ha : a ∈ g.nodeIds) : g.Route direction loopbackOk ∅ a x ↔
    ∃ nodes, g.PathAlong loopbackOk nodes direction a x := by
  have hpaths : (∃ nodes, g.PathAlong loopbackOk nodes direction a x ∧
      ∀ y ∈ nodes, y ∉ (∅ : Set NodeId)) ↔ _ := exists_pathAlong_iff (Set.notMem_empty a)
  simpa [ha] using hpaths.symm

theorem Route.opposite (h : g.Route direction.opposite loopbackOk avoid a x) (ha : a ∈ g.nodeIds) :
    g.Route direction loopbackOk ∅ x a := by
  obtain ⟨nodes, hpath⟩ := (route_iff_pathAlong ha).1 (h.mono (Set.empty_subset _))
  have hx : x ∈ g.nodeIds := h.mem_nodeIds ha
  rw [route_iff_pathAlong hx]
  exact ⟨nodes, by cases direction <;> exact hpath⟩

theorem mem_range (ha : a ∈ g.nodeIds) (hne : a ≠ b) :
    x ∈ g.range a b direction loopbackOk ↔ x = b ∨ g.Route direction loopbackOk {b} a x := by
  rw [range, if_neg hne, NodeSet.mem_insert, mem_reached_stop_at, and_iff_right ha]

/-- One half of the constrained nodes: from `a` everything is allowed as far as the walk goes, but
the way on to `b` does not come back to `a`. -/
theorem mem_range_inter (he : g.DeadEnd direction loopbackOk e) (ha : a ∈ g.nodeIds)
    (hb : b ∈ g.nodeIds) (hne : a ≠ b) (hroute : g.Route direction loopbackOk ∅ a b) :
    x ∈ g.range a e direction loopbackOk ∧ x ∈ g.range b a direction.opposite loopbackOk ↔
      g.Route direction loopbackOk ∅ a x ∧
        (x = a ∨ g.Route direction.opposite loopbackOk {a} b x) := by
  have hae : a ≠ e := by
    rintro rfl
    exact hne (he.eq_of_route hroute).symm
  rw [mem_range ha hae, mem_range hb hne.symm, he.route_iff]
  refine and_congr_left fun hside => ⟨fun h => h.elim ?_ id, .inr⟩
  -- the dead end is counted in whether or not `a` leads there; it stays in since it leads to `b`
  rintro rfl
  rcases hside with heq | hside
  · exact absurd heq.symm hae
  · have hback : b = x := he.eq_of_route (hside.opposite hb)
    rwa [hback] at hroute

theorem exists_path_behind_iff {nodes : List NodeId} (h : g.PathThrough loopbackOk a nodes b)
    (hne : a ≠ b) : x = a ∨ g.Route .backward loopbackOk {a} b x ↔
      ∃ behind, g.PathThrough loopbackOk x behind b ∧ a ∉ behind.tail := by
  constructor
  · rintro (rfl | hroute)
    · obtain ⟨behind, hcrossing⟩ := exists_crossing h hne
      exact ⟨behind, hcrossing.path, hcrossing.leaves⟩
    · obtain ⟨behind, hpath, havoid⟩ := hroute.exists_path_backward h.target_mem
      refine ⟨behind, hpath, fun hmem => ?_⟩
      rcases hpath.mem_iff_dropLast.1 (List.mem_of_mem_tail hmem) with hmem | heq
      · exact havoid a hmem rfl
      · exact hne heq
  · rintro ⟨behind, hpath, hleave⟩
    by_cases hxa : x = a
    · exact .inl hxa
    right
    apply hpath.route_backward
    rintro y hy rfl
    rcases hpath.mem_iff.1 (hpath.mem_iff_dropLast.2 (.inl hy)) with heq | hy
    · exact hxa heq.symm
    · exact hleave hy

theorem exists_path_before_iff {nodes : List NodeId} (h : g.PathThrough loopbackOk a nodes b)
    (hne : a ≠ b) : x = b ∨ g.Route .forward loopbackOk {b} a x ↔
      ∃ before, g.PathThrough loopbackOk a before x ∧ b ∉ before.dropLast := by
  constructor
  · rintro (rfl | hroute)
    · obtain ⟨before, hcrossing⟩ := exists_crossing h hne
      exact ⟨before, hcrossing.path, hcrossing.arrives⟩
    · obtain ⟨before, hpath, havoid⟩ := hroute.exists_path h.source_mem
      refine ⟨before, hpath, fun hmem => ?_⟩
      rcases hpath.mem_iff.1 (hpath.mem_iff_dropLast.2 (.inl hmem)) with heq | hmem
      · exact hne heq.symm
      · exact havoid b hmem rfl
  · rintro ⟨before, hpath, harrive⟩
    by_cases hxb : x = b
    · exact .inl hxb
    right
    apply hpath.route
    rintro y hy rfl
    rcases hpath.mem_iff_dropLast.1 (List.mem_of_mem_tail hy) with hy | heq
    · exact harrive hy
    · exact hxb heq.symm

/-- There is a way between two nodes through a third that, behind it, does not come back to the
first, or, before it, does not go through the last. -/
def Constrained (g : FlowGraph) (first last x : NodeId) : Prop :=
  ∃ before behind, g.PathThrough true first before x ∧ g.PathThrough true x behind last ∧
    (first ∉ behind.tail ∨ last ∉ before.dropLast)

theorem mem_constrainedNodes (hstart : g.incoming g.start = []) (hfinish : g.outgoing g.finish = [])
    {nodes : List NodeId} (h : g.PathThrough true a nodes b) (hne : a ≠ b) :
    x ∈ g.constrainedNodes a b ↔ g.Constrained a b x := by
  have hlast : g.DeadEnd .forward true g.finish :=
    deadEnd_of_neighbours (by rw [neighbours, hfinish]; rfl)
  have hfirst : g.DeadEnd .backward true g.start :=
    deadEnd_of_neighbours (by rw [neighbours, hstart]; rfl)
  have hforward : g.Route .forward true ∅ a b := (route_iff_pathAlong h.source_mem).2 ⟨nodes, h⟩
  have hbackward : g.Route .backward true ∅ b a := (route_iff_pathAlong h.target_mem).2 ⟨nodes, h⟩
  have hbehind := mem_range_inter (x := x) hlast h.source_mem h.target_mem hne hforward
  have hbefore := mem_range_inter (x := x) hfirst h.target_mem h.source_mem hne.symm hbackward
  rw [Direction.opposite, exists_path_behind_iff h hne, route_iff_pathAlong h.source_mem] at hbehind
  rw [Direction.opposite, exists_path_before_iff h hne, route_iff_pathAlong h.target_mem] at hbefore
  rw [constrainedNodes, NodeSet.mem_union, NodeSet.mem_inter, NodeSet.mem_inter]
  simp only [forwardBetween, backwardBetween]
  rw [hbehind, and_comm (a := x ∈ g.range a b .forward true), hbefore]
  constructor
  · rintro (⟨⟨before, hb⟩, behind, hb', hleave⟩ | ⟨⟨behind, hb'⟩, before, hb, harrive⟩)
    · exact ⟨before, behind, hb, hb', .inl hleave⟩
    · exact ⟨before, behind, hb, hb', .inr harrive⟩
  · rintro ⟨before, behind, hb, hb', hleave | harrive⟩
    · exact .inl ⟨⟨before, hb⟩, behind, hb', hleave⟩
    · exact .inr ⟨⟨behind, hb'⟩, before, hb, harrive⟩

/-- A way that crosses from the first node to the last keeps to both. -/
theorem constrained_of_mem_reachableNodes {nodes : List NodeId}
    (h : g.PathThrough true a nodes b) (hne : a ≠ b) (hx : x ∈ g.reachableNodes a b true) :
    g.Constrained a b x := by
  rw [reachableNodes, NodeSet.mem_inter, forwardBetween, backwardBetween,
    mem_range h.source_mem hne, mem_range h.target_mem hne.symm, exists_path_before_iff h hne,
    exists_path_behind_iff h hne] at hx
  obtain ⟨⟨before, hbefore, harrive⟩, behind, hbehind, hleave⟩ := hx
  exact ⟨before, behind, hbefore, hbehind, .inl hleave⟩

/-- If no edge leads to the start and none away from the finish, then, between two different nodes
of which the first leads to the last, the constrained nodes are those on a way on which one half
keeps to its point; the nodes between the two are among them. -/
theorem constrainedNodes_keep_to_one_point {g : FlowGraph} (hstart : g.incoming g.start = [])
    (hfinish : g.outgoing g.finish = []) :
    ∀ first ∈ g.nodeIds, ∀ last ∈ g.nodeIds, first ≠ last →
      (∃ nodes, g.PathThrough true first nodes last) →
      (∀ x, x ∈ g.constrainedNodes first last ↔ g.Constrained first last x) ∧
      ∀ x ∈ g.reachableNodes first last true, x ∈ g.constrainedNodes first last := by
  rintro first - last - hne ⟨nodes, hpath⟩
  refine ⟨fun x => mem_constrainedNodes hstart hfinish hpath hne, fun x hx => ?_⟩
  rw [mem_constrainedNodes hstart hfinish hpath hne]
  exact constrained_of_mem_reachableNodes hpath hne hx

/-- The inner loop's body leads to the outer loop's head only through the inner one's, where the
way began. It is constrained by both heads nevertheless, though it does not lie between them. -/
theorem constrainedNodes_keep_to_one_point_in_loop :
    nestedLoop.incoming nestedLoop.start = [] ∧ nestedLoop.outgoing nestedLoop.finish = [] ∧
      (∃ nodes, nestedLoop.PathThrough true 3 nodes 2) ∧ nestedLoop.Constrained 3 2 4 ∧
      4 ∉ nestedLoop.reachableNodes 3 2 true ∧ ¬ nestedLoop.Constrained 3 2 5 ∧
      2 ∈ nestedLoop.constrainedNodes 3 2 := by
  have hpath : nestedLoop.PathThrough true 3 [3, 2] 2 :=
    .cons (e := ⟨3, 2, .onFalse, some 2⟩) (by decide) (by decide) rfl rfl rfl (.single (by decide))
  have hstart : nestedLoop.incoming nestedLoop.start = [] := by decide
  have hfinish : nestedLoop.outgoing nestedLoop.finish = [] := by decide
  obtain ⟨hconstrained, hbetween⟩ := constrainedNodes_keep_to_one_point hstart hfinish
    3 (by decide) 2 (by decide) (by decide) ⟨_, hpath⟩
  refine ⟨hstart, hfinish, ⟨_, hpath⟩, (hconstrained 4).1 (by decide +kernel), by decide +kernel,
    ?_, hbetween 2 (by decide +kernel)⟩
  rw [← hconstrained 5]
  decide +kernel

end FlowGraph

end ProgramFlow
