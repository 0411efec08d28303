import Mathlib.Data.List.Basic
import Mathlib.Order.BooleanAlgebra.Set
import ProgramFlow.Proofs.Paths
import ProgramFlow.Proofs.StackWalks

/-! What walks find, told by paths. A route of a backward walk is a path read from its end, so both
directions speak of the same paths. The origin is spared by the stop test: a path that comes back to
it can be cut there, and what is left avoids every node that the test names. -/
namespace ProgramFlow.FlowGraph

variable {g : FlowGraph} {direction : Direction} {loopbackOk : Bool} {stop : Node → Bool}
  {avoid : Set NodeId} {a b x : NodeId} {nodes : List NodeId}

namespace PathThrough

theorem getLast?_eq (h : g.PathThrough loopbackOk a nodes b) : nodes.getLast? = some b := by
  induction h with
  | single => rfl
  | cons _ _ _ _ _ _ ih => rw [List.getLast?_cons, ih]; rfl

theorem dropLast_concat (h : g.PathThrough loopbackOk a nodes b) : nodes.dropLast ++ [b] = nodes :=
  List.dropLast_append_getLast? b h.getLast?_eq

theorem mem_iff_dropLast (h : g.PathThrough loopbackOk a nodes b) :
    x ∈ nodes ↔ x ∈ nodes.dropLast ∨ x = b := by
  conv_lhs => rw [← h.dropLast_concat]
  rw [List.mem_append, List.mem_singleton]

theorem dropLast_cons (h : g.PathThrough loopbackOk a nodes b) :
    (x :: nodes).dropLast = x :: nodes.dropLast :=
  List.dropLast_cons_of_ne_nil (List.ne_nil_of_mem (h.mem_iff_dropLast.2 (.inr rfl)))

theorem target_mem (h : g.PathThrough loopbackOk a nodes b) : b ∈ g.nodeIds := by
  induction h with
  | single ha => exact ha
  | cons _ _ _ _ _ _ ih => exact ih

theorem route_backward (h : g.PathThrough loopbackOk a nodes b)
    (havoid : ∀ x ∈ nodes.dropLast, x ∉ avoid) : g.Route .backward loopbackOk avoid b a := by
  induction h with
  | single => exact .refl
  | @cons a c b nodes e ha he hs ht hback rest ih =>
    rw [rest.dropLast_cons, List.forall_mem_cons] at havoid
    have hstep : g.Step .backward loopbackOk c a := step_iff.2 ⟨⟨e, he, ⟨ht, hs⟩, hback⟩, ha⟩
    exact (ih havoid.2).tail ⟨hstep, havoid.1⟩

end PathThrough

theorem Route.exists_path_backward (h : g.Route .backward loopbackOk avoid b a)
    (hb : b ∈ g.nodeIds) :
    ∃ nodes, g.PathThrough loopbackOk a nodes b ∧ ∀ x ∈ nodes.dropLast, x ∉ avoid := by
  induction h with
  | refl => exact ⟨[b], .single hb, by simp⟩
  | @tail c a _ hca ih =>
    obtain ⟨⟨e, he, ⟨ht, hs⟩, hback⟩, ha⟩ := step_iff.1 hca.1
    obtain ⟨nodes, hpath, havoid⟩ := ih
    refine ⟨a :: nodes, .cons ha he hs ht hback hpath, ?_⟩
    rw [hpath.dropLast_cons]
    exact List.forall_mem_cons.2 ⟨hca.2, havoid⟩

/-- From the last visit to its origin on, a route does not come back there. -/
theorem Route.leaves (h : g.Route direction loopbackOk avoid a x) :
    g.Route direction loopbackOk (insert a avoid) a x := by
  rcases h.split_last a with h | ⟨-, h⟩
  · exact h
  · exact h

theorem route_spared :
    g.Route direction loopbackOk (avoid \ {a}) a x ↔ g.Route direction loopbackOk avoid a x :=
  ⟨fun h => h.leaves.mono (Set.subset_insert_sdiff_singleton a avoid), Route.mono Set.sdiff_subset⟩

def PathAlong (g : FlowGraph) (loopbackOk : Bool) (nodes : List NodeId) :
    Direction → NodeId → NodeId → Prop
  | .forward, a, b => g.PathThrough loopbackOk a nodes b
  | .backward, a, b => g.PathThrough loopbackOk b nodes a

/-- Routes are paths, if the origin is none of the nodes to be avoided. -/
theorem exists_pathAlong_iff (ha : a ∉ avoid) :
    (∃ nodes, g.PathAlong loopbackOk nodes direction a x ∧ ∀ y ∈ nodes, y ∉ avoid) ↔
      a ∈ g.nodeIds ∧ g.Route direction loopbackOk avoid a x := by
  cases direction with
  | forward =>
    constructor
    · rintro ⟨nodes, hpath, havoid⟩
      exact ⟨hpath.source_mem, hpath.route fun y hy => havoid y (List.mem_of_mem_tail hy)⟩
    · rintro ⟨hin, hroute⟩
      obtain ⟨nodes, hpath, havoid⟩ := hroute.exists_path hin
      refine ⟨nodes, hpath, fun y hy => ?_⟩
      rcases hpath.mem_iff.1 hy with rfl | hy
      · exact ha
      · exact havoid y hy
  | backward =>
    constructor
    · rintro ⟨nodes, hpath, havoid⟩
      exact ⟨hpath.target_mem,
        hpath.route_backward fun y hy => havoid y (hpath.mem_iff_dropLast.2 (.inl hy))⟩
    · rintro ⟨hin, hroute⟩
      obtain ⟨nodes, hpath, havoid⟩ := hroute.exists_path_backward hin
      refine ⟨nodes, hpath, fun y hy => ?_⟩
      rcases hpath.mem_iff_dropLast.1 hy with hy | rfl
      · exact havoid y hy
      · exact ha

/-- A walk reaches what paths lead to from its origin, with no other node on them that is to stop
it. -/
theorem mem_reached_iff_path : x ∈ g.reached a direction loopbackOk stop ↔
    a ∈ g.nodeIds ∧ ∃ nodes, g.PathAlong loopbackOk nodes direction a x ∧
      ∀ y ∈ nodes, y ≠ a → g.stopsAt stop y = false := by
  let stops : Set NodeId := {y | g.stopsAt stop y = true}
  have hspared : ∀ y, y ∉ stops \ {a} ↔ (y ≠ a → g.stopsAt stop y = false) := by
    intro y
    rw [Set.mem_sdiff, Set.mem_singleton_iff, ← ne_eq, not_and']
    simp [stops]
  calc x ∈ g.reached a direction loopbackOk stop
    _ ↔ a ∈ g.nodeIds ∧ g.Route direction loopbackOk stops a x := mem_reached_iff_route
    _ ↔ a ∈ g.nodeIds ∧ g.Route direction loopbackOk (stops \ {a}) a x := by rw [route_spared]
    _ ↔ a ∈ g.nodeIds ∧ ∃ nodes, g.PathAlong loopbackOk nodes direction a x ∧
          ∀ y ∈ nodes, y ∉ stops \ {a} := by rw [exists_pathAlong_iff (by simp), and_self_left]
    _ ↔ _ := by simp only [hspared]

/-- What a walk from a node of the graph finds. It reaches its origin and what paths lead to, with
no node on them but the origin that is to stop it; and it is stopped by the other such nodes that
lie next to those it reaches. -/
structure Explores (g : FlowGraph) (origin : NodeId) (direction : Direction) (loopbackOk : Bool)
    (stop : Node → Bool) (walk : Walk) : Prop where
  reached : ∀ x, x ∈ walk.reached ↔ x = origin ∨
    ∃ nodes, g.PathAlong loopbackOk nodes direction origin x ∧
      ∀ y ∈ nodes, y ≠ origin → g.stopsAt stop y = false
  stopped : ∀ x, x ∈ walk.stopped ↔ x ≠ origin ∧ g.stopsAt stop x = true ∧
    ∃ r ∈ walk.reached, ∃ e ∈ g.edges,
      e.Leads direction r x ∧ (loopbackOk || !e.isLoopback) = true

theorem mem_nodeIds_of_stopsAt (h : g.stopsAt stop x = true) : x ∈ g.nodeIds := by
  obtain ⟨n, hn, -⟩ := stopsAt_iff.1 h
  exact exists_node?.1 ⟨n, hn⟩

theorem explores_walk (ha : a ∈ g.nodeIds) :
    g.Explores a direction loopbackOk stop (g.walk a direction loopbackOk stop) := by
  constructor
  · intro x
    change x ∈ g.reached a direction loopbackOk stop ↔ _
    rw [mem_reached_iff_path, and_iff_right ha]
    refine ⟨.inr, fun h => h.elim ?_ id⟩
    rintro rfl
    refine ⟨[x], ?_, by simp⟩
    cases direction <;> exact .single ha
  · intro x
    change x ∈ g.stopped a direction loopbackOk stop (g.reached a direction loopbackOk stop) ↔ _
    rw [mem_stopped]
    constructor
    · rintro ⟨⟨r, hr, hnext⟩, hne, hstop⟩
      obtain ⟨hedge, -⟩ := step_iff.1 ⟨hnext, mem_nodeIds_of_stopsAt hstop⟩
      exact ⟨hne, hstop, r, hr, hedge⟩
    · rintro ⟨hne, hstop, r, hr, hedge⟩
      obtain ⟨hnext, -⟩ := step_iff.2 ⟨hedge, mem_nodeIds_of_stopsAt hstop⟩
      exact ⟨⟨r, hr, hnext⟩, hne, hstop⟩

theorem walk_of_not_mem (ha : a ∉ g.nodeIds) :
    g.walk a direction loopbackOk stop = ⟨.empty, .empty⟩ := by
  have hreached : g.reached a direction loopbackOk stop = .empty :=
    NodeSet.ext fun x => by simp [mem_reached_iff_path, ha]
  have hstopped : g.stopped a direction loopbackOk stop .empty = .empty :=
    NodeSet.ext fun x => by simp [mem_stopped]
  rw [walk, hreached, hstopped]

/-- Between two nodes that stop no walk, a forward walk from the one and a backward walk from the
other follow the same paths. -/
theorem mem_forward_iff_mem_backward (ha : g.stopsAt stop a = false)
    (hb : g.stopsAt stop b = false) :
    b ∈ g.forwardReachable a loopbackOk stop ↔ a ∈ g.backwardReachable b loopbackOk stop := by
  -- the origin of neither walk has to be spared, so the same paths are free for both
  have hall : ∀ {c}, g.stopsAt stop c = false → ∀ nodes : List NodeId,
      (∀ y ∈ nodes, y ≠ c → g.stopsAt stop y = false) ↔ ∀ y ∈ nodes, g.stopsAt stop y = false := by
    intro c hc nodes
    refine forall₂_congr fun y _ => ⟨fun h => ?_, fun h _ => h⟩
    by_cases hy : y = c
    · rw [hy, hc]
    · exact h hy
  rw [forwardReachable, backwardReachable, mem_reached_iff_path, mem_reached_iff_path]
  simp only [hall ha, hall hb]
  constructor
  · rintro ⟨-, nodes, hpath, hfree⟩
    exact ⟨PathThrough.target_mem hpath, nodes, hpath, hfree⟩
  · rintro ⟨-, nodes, hpath, hfree⟩
    exact ⟨PathThrough.source_mem hpath, nodes, hpath, hfree⟩

/-- A walk ends and is exact in both directions: from outside the graph it finds nothing, from a
node of the graph it finds what it has to find. The loop with a stack and a set of tracked nodes
takes finitely many turns from there and ends with what the walk finds, the nodes that stop it
included. So, between nodes that stop no walk, the one is found forward exactly if the other is
found backward. -/
theorem walks_are_exact (g : FlowGraph) (loopbackOk : Bool) (stop : Node → Bool) :
    (∀ origin direction, origin ∉ g.nodeIds →
      g.walk origin direction loopbackOk stop = ⟨.empty, .empty⟩) ∧
    (∀ origin direction, origin ∈ g.nodeIds →
      g.Explores origin direction loopbackOk stop (g.walk origin direction loopbackOk stop)) ∧
    (∀ origin direction, origin ∈ g.nodeIds →
      Acc (fun later earlier => g.Turns direction loopbackOk stop earlier later)
        (tourFrom origin) ∧
      ∃ track, Relation.ReflTransGen (g.Turns direction loopbackOk stop) (tourFrom origin)
        ⟨[], [], track, g.walk origin direction loopbackOk stop⟩) ∧
    ∀ m n, g.stopsAt stop m = false → g.stopsAt stop n = false →
      (n ∈ g.forwardReachable m loopbackOk stop ↔ m ∈ g.backwardReachable n loopbackOk stop) := by
  refine ⟨fun _ _ => walk_of_not_mem, fun _ _ => explores_walk, ?_,
    fun _ _ => mem_forward_iff_mem_backward⟩
  intro origin direction ha
  exact ⟨(Tour.Complete.start origin).ends stop, Tour.completes (.start ha) (.start origin)⟩

def nestedLoop : FlowGraph where
  qualifiedName := "A.f"
  start := 1
  finish := 5
  graph :=
    { nodes := [1, 2, 3, 4, 5].map fun id => { id, data := .dummy, link := ⟨id.val⟩ }
      edges :=
        [⟨1, 2, .fallThrough, none⟩, ⟨2, 3, .onTrue, none⟩, ⟨3, 4, .onTrue, none⟩,
          ⟨4, 3, .fallThrough, none⟩, ⟨3, 2, .onFalse, some 2⟩, ⟨2, 5, .onFalse, none⟩] }

/-- The outer loop's head is left although the test names it, and it is not among the nodes that
stop the walk although the back edge leads to it. -/
theorem walks_are_exact_around_loops :
    let stop : Node → Bool := fun n => n.id = 2 || n.id = 5
    nestedLoop.walk 9 .backward true stop = ⟨.empty, .empty⟩ ∧
      (∃ nodes, nestedLoop.PathAlong true nodes .forward 2 4 ∧
        ∀ y ∈ nodes, y ≠ 2 → nestedLoop.stopsAt stop y = false) ∧
      5 ∈ (nestedLoop.walk 2 .forward true stop).stopped ∧
      2 ∉ (nestedLoop.walk 2 .forward true stop).stopped ∧
      3 ∈ nestedLoop.backwardReachable 4 true stop := by
  intro stop
  obtain ⟨hout, hin, -, hdual⟩ := walks_are_exact nestedLoop true stop
  have hwalk := hin 2 .forward (by decide)
  have hreached : 4 ∈ (nestedLoop.walk 2 .forward true stop).reached := by decide +kernel
  have hhead : 2 ∈ (nestedLoop.walk 2 .forward true stop).reached := by decide +kernel
  refine ⟨hout 9 .backward (by decide), ((hwalk.reached 4).1 hreached).resolve_left (by decide),
    (hwalk.stopped 5).2 ⟨by decide, by decide +kernel, 2, hhead, ⟨2, 5, .onFalse, none⟩, by decide,
      ⟨rfl, rfl⟩, rfl⟩,
    fun h => ((hwalk.stopped 2).1 h).1 rfl, ?_⟩
  exact (hdual 3 4 (by decide +kernel) (by decide +kernel)).1 (by decide +kernel)

end ProgramFlow.FlowGraph
