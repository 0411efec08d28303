import ProgramFlow.Proofs.WalkPaths

/-! The nodes between two points are those on the ways from the one to the other that neither come
back to the first nor go on from the last. Two walks find them, forward from the first and backward
from the last, each of which stops at the other's origin. A node that both reach has a path on
either side; where these paths come back to their own ends they are cut, and then they fit together.
-/
namespace ProgramFlow.FlowGraph

variable {g : FlowGraph} {direction : Direction} {loopbackOk : Bool} {a b x : NodeId}
  {nodes before behind : List NodeId}

/-- A path between two nodes that is at the first only where it begins, and at the last only where
it ends. -/
structure Crossing (g : FlowGraph) (loopbackOk : Bool) (a : NodeId) (nodes : List NodeId)
    (b : NodeId) : Prop where
  path : g.PathThrough loopbackOk a nodes b
  leaves : a ∉ nodes.tail
  arrives : b ∉ nodes.dropLast

namespace PathThrough

theorem cons_tail (h : g.PathThrough loopbackOk a nodes b) : a :: nodes.tail = nodes := by
  cases h <;> rfl

theorem append (h : g.PathThrough loopbackOk a before x)
    (h' : g.PathThrough loopbackOk x behind b) :
    g.PathThrough loopbackOk a (before ++ behind.tail) b := by
  induction h with
  | single =>
    rw [List.singleton_append, h'.cons_tail]
    exact h'
  | cons ha he hs ht hback _ ih => exact .cons ha he hs ht hback (ih h')

theorem append_tail (h : g.PathThrough loopbackOk a before x)
    (h' : g.PathThrough loopbackOk x behind b) :
    before ++ behind.tail = before.dropLast ++ behind := by
  conv_lhs => rw [← h.dropLast_concat]
  conv_rhs => rw [← h'.cons_tail]
  exact List.append_assoc ..

theorem split (h : g.PathThrough loopbackOk a nodes b) (hx : x ∈ nodes) :
    ∃ before behind, g.PathThrough loopbackOk a before x ∧ g.PathThrough loopbackOk x behind b ∧
      nodes = before ++ behind.tail := by
  induction h with
  | @single a ha =>
    obtain rfl := List.mem_singleton.1 hx
    exact ⟨[x], [x], .single ha, .single ha, rfl⟩
  | @cons a c b nodes e ha he hs ht hback rest ih =>
    rcases List.mem_cons.1 hx with rfl | hx
    · exact ⟨[x], x :: nodes, .single ha, .cons ha he hs ht hback rest, rfl⟩
    · obtain ⟨before, behind, hbefore, hbehind, rfl⟩ := ih hx
      exact ⟨a :: before, behind, .cons ha he hs ht hback hbefore, hbehind, rfl⟩

end PathThrough

/-- Two paths that meet make a crossing exactly if neither of them comes back to its own end or goes
through the other's. -/
theorem crossing_append_iff (h : g.PathThrough loopbackOk a before x)
    (h' : g.PathThrough loopbackOk x behind b) :
    g.Crossing loopbackOk a (before ++ behind.tail) b ↔
      (a ∉ before.tail ∧ a ∉ behind.tail) ∧ b ∉ before.dropLast ∧ b ∉ behind.dropLast := by
  have htail : (before ++ behind.tail).tail = before.tail ++ behind.tail := by
    rw [← h.cons_tail]
    rfl
  have hdropLast : (before ++ behind.tail).dropLast = before.dropLast ++ behind.dropLast := by
    rw [h.append_tail h', List.dropLast_append_of_ne_nil]
    rw [← h'.cons_tail]
    exact List.cons_ne_nil _ _
  rw [← not_or, ← not_or, ← List.mem_append, ← List.mem_append, ← htail, ← hdropLast]
  exact ⟨fun hc => ⟨hc.leaves, hc.arrives⟩, fun hc => ⟨h.append h', hc.1, hc.2⟩⟩

theorem Route.exists_path_leaving (h : g.Route .forward loopbackOk {a, b} a x) (ha : a ∈ g.nodeIds)
    (hne : a ≠ b) :
    ∃ before, g.PathThrough loopbackOk a before x ∧ a ∉ before.tail ∧ b ∉ before := by
  obtain ⟨before, hpath, havoid⟩ := h.exists_path ha
  refine ⟨before, hpath, fun hmem => havoid a hmem (by simp), fun hmem => ?_⟩
  rcases hpath.mem_iff.1 hmem with heq | hmem
  · exact hne heq.symm
  · exact havoid b hmem (by simp)

theorem Route.exists_path_arriving (h : g.Route .backward loopbackOk {b, a} b x)
    (hb : b ∈ g.nodeIds) (hne : a ≠ b) :
    ∃ behind, g.PathThrough loopbackOk x behind b ∧ a ∉ behind ∧ b ∉ behind.dropLast := by
  obtain ⟨behind, hpath, havoid⟩ := h.exists_path_backward hb
  refine ⟨behind, hpath, fun hmem => ?_, fun hmem => havoid b hmem (by simp)⟩
  rcases hpath.mem_iff_dropLast.1 hmem with hmem | heq
  · exact havoid a hmem (by simp)
  · exact hne heq

theorem exists_crossing_through (ha : a ∈ g.nodeIds) (hb : b ∈ g.nodeIds) (hne : a ≠ b)
    (hforward : g.Route .forward loopbackOk {b} a x)
    (hbackward : g.Route .backward loopbackOk {a} b x) :
    ∃ nodes, g.Crossing loopbackOk a nodes b ∧ x ∈ nodes := by
  obtain ⟨before, hbefore, hleave, hfree⟩ := hforward.leaves.exists_path_leaving ha hne
  obtain ⟨behind, hbehind, hfree', harrive⟩ := hbackward.leaves.exists_path_arriving hb hne
  refine ⟨before ++ behind.tail,
    (crossing_append_iff hbefore hbehind).2 ⟨⟨hleave, ?_⟩, ?_, harrive⟩,
    List.mem_append_left _ (hbefore.mem_iff_dropLast.2 (.inr rfl))⟩
  · exact fun hmem => hfree' (List.mem_of_mem_tail hmem)
  · exact fun hmem => hfree (hbefore.mem_iff_dropLast.2 (.inl hmem))

/-- Where there is a way at all, there is one that leaves the first node for good and ends at its
first visit to the last. -/
theorem exists_crossing (h : g.PathThrough loopbackOk a nodes b) (hne : a ≠ b) :
    ∃ nodes, g.Crossing loopbackOk a nodes b := by
  have hroute : g.Route .forward loopbackOk ∅ a b := h.route (by simp)
  rcases hroute.leaves.split_first b with hfree | ⟨⟨r, hr, hstep⟩, -⟩
  · rcases hfree.eq_or_not_mem with heq | hmem
    · exact absurd heq hne.symm
    · exact absurd (Set.mem_insert b _) hmem
  · -- `r` is the node from which the way comes to the last one for the first time
    rw [insert_empty_eq, Set.pair_comm] at hr
    obtain ⟨before, hbefore, hleave, hfree⟩ := hr.exists_path_leaving h.source_mem hne
    obtain ⟨⟨e, he, ⟨hs, ht⟩, hback⟩, hb⟩ := step_iff.1 hstep
    have hlast : g.PathThrough loopbackOk r [r, b] b :=
      .cons hbefore.target_mem he hs ht hback (.single hb)
    have hrb : b ≠ r := fun heq => hfree (hbefore.mem_iff_dropLast.2 (.inr heq))
    refine ⟨before ++ [b], (crossing_append_iff hbefore hlast).2
      ⟨⟨hleave, by simpa using hne⟩, ?_, by simpa using hrb⟩⟩
    exact fun hmem => hfree (hbefore.mem_iff_dropLast.2 (.inl hmem))

/-- Both walks reach what lies on a crossing, but for the node each of them stops at. -/
theorem Crossing.routes (h : g.Crossing loopbackOk a nodes b) (hx : x ∈ nodes) :
    (x = b ∨ g.Route .forward loopbackOk {b} a x) ∧
      (x = a ∨ g.Route .backward loopbackOk {a} b x) := by
  obtain ⟨before, behind, hbefore, hbehind, rfl⟩ := h.path.split hx
  obtain ⟨⟨-, hleave⟩, harrive, -⟩ := (crossing_append_iff hbefore hbehind).1 h
  constructor
  · by_cases hxb : x = b
    · exact .inl hxb
    right
    apply hbefore.route
    rintro y hy rfl
    rcases hbefore.mem_iff_dropLast.1 (List.mem_of_mem_tail hy) with hy | rfl
    · exact harrive hy
    · exact hxb rfl
  · by_cases hxa : x = a
    · exact .inl hxa
    right
    apply hbehind.route_backward
    rintro y hy rfl
    rcases hbehind.mem_iff.1 (hbehind.mem_iff_dropLast.2 (.inl hy)) with rfl | hy
    · exact hxa rfl
    · exact hleave hy

/-- The two ends are counted in whether or not there is a way between them. -/
theorem mem_reachableNodes (ha : a ∈ g.nodeIds) (hb : b ∈ g.nodeIds) (hne : a ≠ b) :
    x ∈ g.reachableNodes a b loopbackOk ↔
      (x = a ∨ x = b) ∨ ∃ nodes, g.Crossing loopbackOk a nodes b ∧ x ∈ nodes := by
  have hwalks : x ∈ g.reachableNodes a b loopbackOk ↔
      (x = b ∨ g.Route .forward loopbackOk {b} a x) ∧
        (x = a ∨ g.Route .backward loopbackOk {a} b x) := by
    simp [reachableNodes, forwardBetween, backwardBetween, range, hne, hne.symm,
      mem_reached_stop_at, ha, hb]
  rw [hwalks]
  constructor
  · rintro ⟨hxb | hforward, hxa | hbackward⟩
    · exact .inl (.inl hxa)
    · exact .inl (.inr hxb)
    · exact .inl (.inl hxa)
    · exact .inr (exists_crossing_through ha hb hne hforward hbackward)
  · rintro ((rfl | rfl) | ⟨nodes, hcrossing, hx⟩)
    · exact ⟨.inr .refl, .inl rfl⟩
    · exact ⟨.inl rfl, .inr .refl⟩
    · exact hcrossing.routes hx

/-- The nodes between a node and itself are that node. Between two different nodes of the graph they
are those on the ways from the first to the last, which visit the first only where they begin and
the last only where they end; if there is no way they are just the two. -/
theorem reachableNodes_lie_between (g : FlowGraph) (loopbackOk : Bool) :
    (∀ n ∈ g.nodeIds, g.reachableNodes n n loopbackOk = .singleton n) ∧
    ∀ first ∈ g.nodeIds, ∀ last ∈ g.nodeIds, first ≠ last →
      ((∃ nodes, g.PathThrough loopbackOk first nodes last) →
        ∀ x, x ∈ g.reachableNodes first last loopbackOk ↔
          ∃ nodes, g.Crossing loopbackOk first nodes last ∧ x ∈ nodes) ∧
      ((¬ ∃ nodes, g.PathThrough loopbackOk first nodes last) →
        ∀ x, x ∈ g.reachableNodes first last loopbackOk ↔ x = first ∨ x = last) := by
  constructor
  · intro n _
    apply NodeSet.ext
    simp [reachableNodes, forwardBetween, backwardBetween, range]
  · intro first hfirst last hlast hne
    refine ⟨fun ⟨_, hpath⟩ x => ?_, fun hnone x => ?_⟩
    · rw [mem_reachableNodes hfirst hlast hne]
      refine ⟨fun h => h.elim (fun hends => ?_) id, .inr⟩
      obtain ⟨nodes, hcrossing⟩ := exists_crossing hpath hne
      refine ⟨nodes, hcrossing, ?_⟩
      rcases hends with rfl | rfl
      · exact hcrossing.path.mem_iff.2 (.inl rfl)
      · exact hcrossing.path.mem_iff_dropLast.2 (.inr rfl)
    · rw [mem_reachableNodes hfirst hlast hne, or_iff_left]
      rintro ⟨nodes, hcrossing, -⟩
      exact hnone ⟨nodes, hcrossing.path⟩

/-- From the inner loop's head the only way out is the back edge. The inner loop's body leads
nowhere but to the head again, so it does not lie between. -/
theorem reachableNodes_lie_between_out_of_loops :
    nestedLoop.reachableNodes 4 4 true = .singleton 4 ∧
      (∃ nodes, nestedLoop.Crossing true 3 nodes 5 ∧ 2 ∈ nodes) ∧
      (¬ ∃ nodes, nestedLoop.Crossing true 3 nodes 5 ∧ 4 ∈ nodes) ∧
      ∀ x, x ∈ nestedLoop.reachableNodes 3 5 false ↔ x = 3 ∨ x = 5 := by
  have hpath : nestedLoop.PathThrough true 3 [3, 2, 5] 5 :=
    .cons (e := ⟨3, 2, .onFalse, some 2⟩) (by decide) (by decide) rfl rfl rfl
      (.cons (e := ⟨2, 5, .onFalse, none⟩) (by decide) (by decide) rfl rfl rfl (.single (by decide)))
  have hnone : ¬ ∃ nodes, nestedLoop.PathThrough false 3 nodes 5 := by
    rintro ⟨nodes, hpath⟩
    have hreached := mem_reached_free.2 ⟨hpath.source_mem, hpath.route (by simp)⟩
    revert hreached
    decide +kernel
  obtain ⟨hself, hbetween⟩ := reachableNodes_lie_between nestedLoop true
  obtain ⟨-, hwithout⟩ := reachableNodes_lie_between nestedLoop false
  have hlie := (hbetween 3 (by decide) 5 (by decide) (by decide)).1 ⟨_, hpath⟩
  refine ⟨hself 4 (by decide), (hlie 2).1 (by decide +kernel), ?_,
    (hwithout 3 (by decide) 5 (by decide) (by decide)).2 hnone⟩
  rw [← hlie 4]
  decide +kernel

end ProgramFlow.FlowGraph
