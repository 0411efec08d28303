import Mathlib.Data.List.Nodup
import Mathlib.Data.Set.Insert
import Mathlib.Logic.Relation
import ProgramFlow.FlowGraph.Walk

/-! What walks reach. The search is specified by routes: sequences of steps inside the graph,
none of which ends in a set of nodes to be avoided. A route may start in that set, as a walk may
start at a node that would stop it. -/
namespace ProgramFlow

section Closure

variable {next : NodeId → List NodeId} {domain frontier : List NodeId} {seen : NodeSet}

def Enters (next : NodeId → List NodeId) (domain : List NodeId) (x y : NodeId) : Prop :=
  y ∈ next x ∧ y ∈ domain

theorem mem_seen_of_isEmpty {x : NodeId} (h : (freshNodes domain frontier seen).isEmpty = true)
    (hf : x ∈ frontier) (hd : x ∈ domain) : x ∈ seen := by
  by_contra hs
  have hx : x ∈ freshNodes domain frontier seen := mem_freshNodes.2 ⟨hf, hd, hs⟩
  rw [NodeSet.mem_def, List.isEmpty_iff.1 h] at hx
  cases hx

theorem mem_closure_of_seen {x : NodeId} (h : x ∈ seen) :
    x ∈ closure next domain frontier seen := by
  fun_induction closure next domain frontier seen with
  | case1 => exact h
  | case2 frontier seen fresh _ ih => exact ih (NodeSet.mem_union.2 (.inl h))

theorem mem_closure_of_frontier {x : NodeId} (h : x ∈ frontier) (hd : x ∈ domain) :
    x ∈ closure next domain frontier seen := by
  rw [closure]
  split
  · next he => exact mem_seen_of_isEmpty he h hd
  · refine mem_closure_of_seen (NodeSet.mem_union.2 ?_)
    by_cases hs : x ∈ seen
    · exact .inl hs
    · exact .inr (mem_freshNodes.2 ⟨h, hd, hs⟩)

/-- What holds of the nodes seen and of the frontier and is kept by steps holds of the result. -/
theorem closure_induction {motive : NodeId → Prop} (hs : ∀ x ∈ seen, motive x)
    (hf : ∀ x ∈ frontier, x ∈ domain → motive x)
    (hstep : ∀ x y, motive x → Enters next domain x y → motive y) :
    ∀ x ∈ closure next domain frontier seen, motive x := by
  fun_induction closure next domain frontier seen with
  | case1 => exact hs
  | case2 frontier seen fresh _ ih =>
    have hfresh : ∀ x ∈ fresh, motive x := fun x hx =>
      have hx := mem_freshNodes.1 hx
      hf x hx.1 hx.2.1
    refine ih (fun x hx => ?_) fun y hy hd => ?_
    · rcases NodeSet.mem_union.1 hx with hx | hx
      · exact hs x hx
      · exact hfresh x hx
    · obtain ⟨x, hx, hxy⟩ := List.mem_flatMap.1 hy
      exact hstep x y (hfresh x hx) ⟨hxy, hd⟩

/-- The invariant of the search: a step from a node seen leads to one seen or to the frontier. -/
theorem closure_closed
    (h : ∀ x ∈ seen, ∀ y, Enters next domain x y → y ∈ seen ∨ y ∈ frontier) :
    ∀ x ∈ closure next domain frontier seen, ∀ y, Enters next domain x y →
      y ∈ closure next domain frontier seen := by
  fun_induction closure next domain frontier seen with
  | case1 frontier seen fresh he =>
    intro x hx y hxy
    rcases h x hx y hxy with hy | hy
    · exact hy
    · exact mem_seen_of_isEmpty he hy hxy.2
  | case2 frontier seen fresh _ ih =>
    refine ih fun x hx y hxy => ?_
    rcases NodeSet.mem_union.1 hx with hx | hx
    · left
      rw [NodeSet.mem_union]
      by_cases hs : y ∈ seen
      · exact .inl hs
      · have hy := (h x hx y hxy).resolve_left hs
        exact .inr (mem_freshNodes.2 ⟨hy, hxy.2, hs⟩)
    · exact .inr (List.mem_flatMap.2 ⟨x, hx, hxy.1⟩)

/-- The search from one node finds what steps lead to from it. -/
theorem mem_closure {origin x : NodeId} :
    x ∈ closure next domain [origin] .empty ↔
      origin ∈ domain ∧ Relation.ReflTransGen (Enters next domain) origin x := by
  constructor
  · intro h
    refine closure_induction (motive := fun x => _ ∧ Relation.ReflTransGen _ origin x)
      (fun x hx => absurd hx NodeSet.not_mem_empty) ?_ ?_ x h
    · intro x hx hd
      obtain rfl := List.mem_singleton.1 hx
      exact ⟨hd, .refl⟩
    · rintro x y ⟨ho, hx⟩ hxy
      exact ⟨ho, hx.tail hxy⟩
  · rintro ⟨ho, hx⟩
    have hclosed : ∀ x ∈ closure next domain [origin] .empty, ∀ y, Enters next domain x y →
        y ∈ closure next domain [origin] .empty :=
      closure_closed fun x hx => absurd hx NodeSet.not_mem_empty
    induction hx with
    | refl => exact mem_closure_of_frontier (List.mem_singleton.2 rfl) ho
    | tail _ hxy ih => exact hclosed _ ih _ hxy

end Closure

namespace Flow

def Leads (e : Flow) : Direction → NodeId → NodeId → Prop
  | .forward, u, v => e.source = u ∧ e.target = v
  | .backward, u, v => e.target = u ∧ e.source = v

theorem Leads.of_key {e x : Flow} {direction : Direction} {u v : NodeId}
    (h : e.Leads direction u v) (hkey : Arc.key x = Arc.key e) : x.Leads direction u v := by
  have hsource : x.source = e.source := congrArg (·.1) hkey
  have htarget : x.target = e.target := congrArg (·.2.1) hkey
  cases direction with
  | forward => exact ⟨hsource.trans h.1, htarget.trans h.2⟩
  | backward => exact ⟨htarget.trans h.1, hsource.trans h.2⟩

end Flow

namespace FlowGraph

variable {g : FlowGraph} {direction : Direction} {loopbackOk : Bool}

def Step (g : FlowGraph) (direction : Direction) (loopbackOk : Bool) (u v : NodeId) : Prop :=
  v ∈ g.neighbours direction loopbackOk u ∧ v ∈ g.nodeIds

theorem step_iff {u v : NodeId} : g.Step direction loopbackOk u v ↔
    (∃ e ∈ g.edges, e.Leads direction u v ∧ (loopbackOk || !e.isLoopback) = true) ∧
      v ∈ g.nodeIds := by
  unfold Step
  refine and_congr_left fun _ => ?_
  cases direction with
  | forward =>
    simp only [neighbours, outgoing, Graph.outgoing, List.mem_map, List.mem_filter,
      List.mem_reverse, decide_eq_true_eq, edges, Flow.Leads]
    constructor
    · rintro ⟨e, ⟨⟨he, hu⟩, hloop⟩, hv⟩
      exact ⟨e, he, ⟨hu, hv⟩, hloop⟩
    · rintro ⟨e, he, ⟨hu, hv⟩, hloop⟩
      exact ⟨e, ⟨⟨he, hu⟩, hloop⟩, hv⟩
  | backward =>
    simp only [neighbours, incoming, Graph.incoming, List.mem_map, List.mem_filter,
      List.mem_reverse, decide_eq_true_eq, edges, Flow.Leads]
    constructor
    · rintro ⟨e, ⟨⟨he, hu⟩, hloop⟩, hv⟩
      exact ⟨e, he, ⟨hu, hv⟩, hloop⟩
    · rintro ⟨e, he, ⟨hu, hv⟩, hloop⟩
      exact ⟨e, ⟨⟨he, hu⟩, hloop⟩, hv⟩

/-- Steps one after the other, none of which ends in `avoid`. -/
def Route (g : FlowGraph) (direction : Direction) (loopbackOk : Bool) (avoid : Set NodeId) :
    NodeId → NodeId → Prop :=
  Relation.ReflTransGen fun u v => g.Step direction loopbackOk u v ∧ v ∉ avoid

namespace Route

variable {s t : Set NodeId} {a b x : NodeId}

theorem mono (hst : t ⊆ s) (h : g.Route direction loopbackOk s a x) :
    g.Route direction loopbackOk t a x :=
  Relation.ReflTransGen.mono (fun _ _ hstep => ⟨hstep.1, fun hv => hstep.2 (hst hv)⟩) _ _ h

theorem trans (h : g.Route direction loopbackOk s a b) (h' : g.Route direction loopbackOk s b x) :
    g.Route direction loopbackOk s a x :=
  Relation.ReflTransGen.trans h h'

theorem mem_nodeIds (h : g.Route direction loopbackOk s a x) (ha : a ∈ g.nodeIds) :
    x ∈ g.nodeIds := by
  induction h with
  | refl => exact ha
  | tail _ hstep _ => exact hstep.1.2

theorem eq_or_not_mem (h : g.Route direction loopbackOk s a x) : x = a ∨ x ∉ s := by
  cases h with
  | refl => exact .inl rfl
  | tail _ hstep => exact .inr hstep.2

/-- A route avoids a node or comes to it a first time and goes on from there. -/
theorem split_first (p : NodeId) (h : g.Route direction loopbackOk s a x) :
    g.Route direction loopbackOk (insert p s) a x ∨
      (∃ r, g.Route direction loopbackOk (insert p s) a r ∧ g.Step direction loopbackOk r p) ∧
        g.Route direction loopbackOk s p x := by
  induction h with
  | refl => exact .inl .refl
  | @tail b c _ hstep ih =>
    rcases ih with ih | ⟨hr, ih⟩
    · by_cases hc : c = p
      · subst hc
        exact .inr ⟨⟨b, ih, hstep.1⟩, .refl⟩
      · exact .inl (ih.tail ⟨hstep.1, by simp [hc, hstep.2]⟩)
    · exact .inr ⟨hr, ih.tail hstep⟩

/-- A route avoids a node or leaves it a last time. -/
theorem split_last (p : NodeId) (h : g.Route direction loopbackOk s a x) :
    g.Route direction loopbackOk (insert p s) a x ∨
      g.Route direction loopbackOk s a p ∧ g.Route direction loopbackOk (insert p s) p x := by
  induction h with
  | refl => exact .inl .refl
  | @tail b c hb hstep ih =>
    by_cases hc : c = p
    · subst hc
      exact .inr ⟨Relation.ReflTransGen.tail hb hstep, .refl⟩
    · have hstep' : g.Step direction loopbackOk b c ∧ c ∉ insert p s := by
        simp [hc, hstep]
      rcases ih with ih | ⟨hp, ih⟩
      · exact .inl (ih.tail hstep')
      · exact .inr ⟨hp, ih.tail hstep'⟩

end Route

/-- A walk reaches what routes lead to that avoid the nodes it stops at. -/
theorem mem_reached {origin x : NodeId} {stop : Node → Bool} {avoid : Set NodeId}
    (h : ∀ v ∈ g.nodeIds, g.stopsAt stop v = true ↔ v ∈ avoid) :
    x ∈ g.reached origin direction loopbackOk stop ↔
      origin ∈ g.nodeIds ∧ g.Route direction loopbackOk avoid origin x := by
  have hstep : Enters (fun id => (g.neighbours direction loopbackOk id).filter fun m =>
      !g.stopsAt stop m) g.nodeIds =
        fun u v => g.Step direction loopbackOk u v ∧ v ∉ avoid := by
    funext u v
    by_cases hv : v ∈ g.nodeIds
    · simp [Enters, Step, hv, ← h v hv]
    · simp [Enters, Step, hv]
  simp only [reached]
  split
  · rw [mem_closure, hstep]
    rfl
  · next hc =>
    rw [contains_iff] at hc
    simp [hc]

theorem stopsAt_iff {stop : Node → Bool} {v : NodeId} :
    g.stopsAt stop v = true ↔ ∃ n, g.node? v = some n ∧ stop n = true := by
  simp [stopsAt, Option.any_eq_true]

theorem id_of_node? {v : NodeId} {n : Node} (h : g.node? v = some n) : n.id = v := by
  have hid := List.find?_some h
  exact of_decide_eq_true hid

theorem exists_node? {v : NodeId} : (∃ n, g.node? v = some n) ↔ v ∈ g.nodeIds := by
  rw [← Option.isSome_iff_exists]
  simp [node?, Graph.node?, nodeIds, Graph.nodeIds]

theorem node?_of_mem (h : g.nodeIds.Nodup) {n : Node}
    (hn : n ∈ g.nodes) : g.node? n.id = some n := by
  have hid : n.id ∈ g.nodeIds := List.mem_map_of_mem hn
  obtain ⟨n', hn'⟩ := exists_node?.2 hid
  have hmem : n' ∈ g.nodes := List.mem_of_find?_eq_some hn'
  rw [hn', List.inj_on_of_nodup_map h hmem hn (id_of_node? hn')]

theorem stopsAt_node {c v : NodeId} :
    g.stopsAt (fun n => decide (n.id = c)) v = true ↔ v = c ∧ v ∈ g.nodeIds := by
  rw [stopsAt_iff, ← exists_node?]
  constructor
  · rintro ⟨n, hn, hc⟩
    exact ⟨(id_of_node? hn).symm.trans (by simpa using hc), n, hn⟩
  · rintro ⟨rfl, n, hn⟩
    exact ⟨n, hn, by simpa using id_of_node? hn⟩

theorem mem_reached_stop_at {origin x c : NodeId} :
    x ∈ g.reached origin direction loopbackOk (fun n => decide (n.id = c)) ↔
      origin ∈ g.nodeIds ∧ g.Route direction loopbackOk {c} origin x :=
  mem_reached fun v hv => by simp [stopsAt_node, hv]

theorem mem_reached_free {origin x : NodeId} :
    x ∈ g.reached origin direction loopbackOk (fun _ => false) ↔
      origin ∈ g.nodeIds ∧ g.Route direction loopbackOk ∅ origin x :=
  mem_reached fun v _ => by simp [stopsAt_iff]

theorem mem_stopped {origin x : NodeId} {stop : Node → Bool} {reached : NodeSet} :
    x ∈ g.stopped origin direction loopbackOk stop reached ↔
      (∃ r ∈ reached, x ∈ g.neighbours direction loopbackOk r) ∧ x ≠ origin ∧
        g.stopsAt stop x = true := by
  simp only [stopped, NodeSet.mem_ofList, List.mem_filter, List.mem_flatMap, Bool.and_eq_true,
    decide_eq_true_eq]
  rfl

end FlowGraph

end ProgramFlow
