import ProgramFlow.FlowGraph.Block
import ProgramFlow.Proofs.Reachability

/-! The walk of a flow graph as a loop. A node is taken from a stack and its neighbours are looked
at one after the other; whatever has come up once is tracked and passed over from then on. The loop
takes finitely many turns, and at the end it has found what `FlowGraph.walk` says, the nodes it
reached as well as those that stopped it. -/
namespace ProgramFlow.FlowGraph

/-- The neighbours still to be looked at are those of the node last taken from the stack. -/
structure Tour where
  pending : List NodeId
  stack : List NodeId
  track : NodeSet
  walk : Walk

/-- Whatever comes up is tracked at once, also a node that stops the walk or is not in the graph. -/
inductive Turns (g : FlowGraph) (direction : Direction) (loopbackOk : Bool) (stop : Node → Bool) :
    Tour → Tour → Prop where
  | take {id stack track walk} :
      Turns g direction loopbackOk stop ⟨[], id :: stack, track, walk⟩
        ⟨g.neighbours direction loopbackOk id, stack, track, walk⟩
  | again {id pending stack track walk} (h : id ∈ track) :
      Turns g direction loopbackOk stop ⟨id :: pending, stack, track, walk⟩
        ⟨pending, stack, track, walk⟩
  | outside {id pending stack track walk} (h : ¬ id ∈ track) (hnode : g.node? id = none) :
      Turns g direction loopbackOk stop ⟨id :: pending, stack, track, walk⟩
        ⟨pending, stack, track.insert id, walk⟩
  | halt {id pending stack track walk node} (h : ¬ id ∈ track) (hnode : g.node? id = some node)
      (hstop : stop node = true) :
      Turns g direction loopbackOk stop ⟨id :: pending, stack, track, walk⟩
        ⟨pending, stack, track.insert id, { walk with stopped := walk.stopped.insert id }⟩
  | enter {id pending stack track walk node} (h : ¬ id ∈ track) (hnode : g.node? id = some node)
      (hpass : stop node = false) :
      Turns g direction loopbackOk stop ⟨id :: pending, stack, track, walk⟩
        ⟨pending, id :: stack, track.insert id, { walk with reached := walk.reached.insert id }⟩

def tourFrom (origin : NodeId) : Tour :=
  ⟨[], [origin], .singleton origin, ⟨.singleton origin, .empty⟩⟩

variable {g : FlowGraph} {direction : Direction} {loopbackOk : Bool} {stop : Node → Bool}
  {origin : NodeId} {t next : Tour}

theorem stopsAt_of_node? {id : NodeId} {node : Node} (h : g.node? id = some node) :
    g.stopsAt stop id = stop node := by
  rw [stopsAt, h, Option.any_some]

theorem mem_reached_iff_route {x : NodeId} : x ∈ g.reached origin direction loopbackOk stop ↔
    origin ∈ g.nodeIds ∧ g.Route direction loopbackOk {v | g.stopsAt stop v = true} origin x :=
  mem_reached fun _ _ => Iff.rfl

theorem reached_closed {x y : NodeId} (hx : x ∈ g.reached origin direction loopbackOk stop)
    (hy : y ∈ g.neighbours direction loopbackOk x) (hnode : y ∈ g.nodeIds)
    (hpass : g.stopsAt stop y = false) : y ∈ g.reached origin direction loopbackOk stop := by
  rw [mem_reached_iff_route] at hx ⊢
  refine ⟨hx.1, hx.2.tail ⟨⟨hy, hnode⟩, ?_⟩⟩
  simp [hpass]

theorem origin_mem_reached (h : origin ∈ g.nodeIds) :
    origin ∈ g.reached origin direction loopbackOk stop :=
  mem_reached_iff_route.2 ⟨h, .refl⟩

theorem not_stopsAt_of_mem_reached {x : NodeId}
    (h : x ∈ g.reached origin direction loopbackOk stop) (hne : x ≠ origin) :
    g.stopsAt stop x = false := by
  rw [mem_reached_iff_route] at h
  simpa using h.2.eq_or_not_mem.resolve_left hne

namespace Tour

structure Sound (g : FlowGraph) (origin : NodeId) (direction : Direction) (loopbackOk : Bool)
    (stop : Node → Bool) (t : Tour) : Prop where
  tracked : origin ∈ t.track
  stacked : ∀ x ∈ t.stack, x ∈ g.reached origin direction loopbackOk stop
  near : ∀ x ∈ t.pending, ∃ r ∈ g.reached origin direction loopbackOk stop,
    x ∈ g.neighbours direction loopbackOk r
  reached : ∀ x ∈ t.walk.reached, x ∈ g.reached origin direction loopbackOk stop
  stopped : ∀ x ∈ t.walk.stopped, x ∈ (g.walk origin direction loopbackOk stop).stopped

/-- Nothing is lost: what has been tracked is found if it is in the graph, and the neighbours of
what is reached are tracked or will come up. -/
structure Complete (g : FlowGraph) (origin : NodeId) (direction : Direction) (loopbackOk : Bool)
    (t : Tour) : Prop where
  origin_reached : origin ∈ t.walk.reached
  tracked : ∀ x ∈ t.walk.reached, x ∈ t.track
  found : ∀ x ∈ t.track, x ∈ g.nodeIds → x ∈ t.walk.reached ∨ x ∈ t.walk.stopped
  closed : ∀ x ∈ t.walk.reached, x ∈ t.stack ∨
    ∀ y ∈ g.neighbours direction loopbackOk x, y ∈ t.track ∨ y ∈ t.pending

namespace Sound

theorem start (h : origin ∈ g.nodeIds) :
    (tourFrom origin).Sound g origin direction loopbackOk stop := by
  have horigin : origin ∈ g.reached origin direction loopbackOk stop := origin_mem_reached h
  constructor
  · exact NodeSet.mem_singleton.2 rfl
  · intro x hx
    rwa [List.mem_singleton.1 hx]
  · intro x hx
    cases hx
  · intro x hx
    rwa [NodeSet.mem_singleton.1 hx]
  · intro x hx
    exact absurd hx NodeSet.not_mem_empty

theorem step (h : t.Sound g origin direction loopbackOk stop)
    (hstep : g.Turns direction loopbackOk stop t next) :
    next.Sound g origin direction loopbackOk stop := by
  cases hstep with
  | @take id stack track walk =>
    have hid := h.stacked id List.mem_cons_self
    exact ⟨h.tracked, fun x hx => h.stacked x (List.mem_cons_of_mem id hx),
      fun x hx => ⟨id, hid, hx⟩, h.reached, h.stopped⟩
  | @again id pending =>
    exact ⟨h.tracked, h.stacked, fun x hx => h.near x (List.mem_cons_of_mem id hx), h.reached,
      h.stopped⟩
  | @outside id pending =>
    exact ⟨NodeSet.mem_insert.2 (.inr h.tracked), h.stacked,
      fun x hx => h.near x (List.mem_cons_of_mem id hx), h.reached, h.stopped⟩
  | @halt id pending stack track walk node hnew hnode hstop =>
    refine ⟨NodeSet.mem_insert.2 (.inr h.tracked), h.stacked,
      fun x hx => h.near x (List.mem_cons_of_mem id hx), h.reached, ?_⟩
    intro x hx
    rcases NodeSet.mem_insert.1 hx with rfl | hx
    · -- the origin has been tracked from the start, so it is not the node that stops the walk
      refine mem_stopped.2 ⟨h.near x List.mem_cons_self, ?_, ?_⟩
      · rintro rfl
        exact hnew h.tracked
      · rw [stopsAt_of_node? hnode, hstop]
    · exact h.stopped x hx
  | @enter id pending stack track walk node hnew hnode hpass =>
    have hid : id ∈ g.reached origin direction loopbackOk stop := by
      obtain ⟨r, hr, hnext⟩ := h.near id List.mem_cons_self
      refine reached_closed hr hnext (exists_node?.1 ⟨node, hnode⟩) ?_
      rw [stopsAt_of_node? hnode, hpass]
    refine ⟨NodeSet.mem_insert.2 (.inr h.tracked), List.forall_mem_cons.2 ⟨hid, h.stacked⟩,
      fun x hx => h.near x (List.mem_cons_of_mem id hx), ?_, h.stopped⟩
    intro x hx
    rcases NodeSet.mem_insert.1 hx with rfl | hx
    · exact hid
    · exact h.reached x hx

end Sound

namespace Complete

theorem start (origin : NodeId) : (tourFrom origin).Complete g origin direction loopbackOk := by
  constructor
  · exact NodeSet.mem_singleton.2 rfl
  · exact fun _ hx => hx
  · exact fun _ hx _ => .inl hx
  · intro x hx
    left
    rw [NodeSet.mem_singleton.1 hx]
    exact List.mem_cons_self

theorem step (h : t.Complete g origin direction loopbackOk)
    (hstep : g.Turns direction loopbackOk stop t next) :
    next.Complete g origin direction loopbackOk := by
  -- a neighbour that was pending has been tracked since
  have hmore : ∀ {id : NodeId} {pending : List NodeId} {track : NodeSet} {y : NodeId},
      y ∈ track ∨ y ∈ id :: pending → y ∈ track.insert id ∨ y ∈ pending := by
    intro id pending track y hy
    rw [NodeSet.mem_insert]
    rcases hy with hy | hy
    · exact .inl (.inr hy)
    · rcases List.mem_cons.1 hy with rfl | hy
      · exact .inl (.inl rfl)
      · exact .inr hy
  cases hstep with
  | @take id stack track walk =>
    refine ⟨h.origin_reached, h.tracked, h.found, ?_⟩
    intro x hx
    rcases h.closed x hx with hstack | hnext
    · rcases List.mem_cons.1 hstack with rfl | hstack
      · exact .inr fun y hy => .inr hy
      · exact .inl hstack
    · exact .inr fun y hy => .inl ((hnext y hy).resolve_right List.not_mem_nil)
  | @again id pending stack track walk hid =>
    refine ⟨h.origin_reached, h.tracked, h.found, ?_⟩
    intro x hx
    refine (h.closed x hx).imp_right fun hnext y hy => ?_
    rcases hnext y hy with hy | hy
    · exact .inl hy
    · rcases List.mem_cons.1 hy with rfl | hy
      · exact .inl hid
      · exact .inr hy
  | @outside id pending stack track walk hnew hnode =>
    refine ⟨h.origin_reached, fun x hx => NodeSet.mem_insert.2 (.inr (h.tracked x hx)), ?_, ?_⟩
    · intro x hx hin
      rcases NodeSet.mem_insert.1 hx with rfl | hx
      · obtain ⟨node, hsome⟩ := exists_node?.2 hin
        rw [hnode] at hsome
        cases hsome
      · exact h.found x hx hin
    · intro x hx
      exact (h.closed x hx).imp_right fun hnext y hy => hmore (hnext y hy)
  | @halt id pending stack track walk node hnew hnode hstop =>
    refine ⟨h.origin_reached, fun x hx => NodeSet.mem_insert.2 (.inr (h.tracked x hx)), ?_, ?_⟩
    · intro x hx hin
      rw [NodeSet.mem_insert]
      rcases NodeSet.mem_insert.1 hx with rfl | hx
      · exact .inr (.inl rfl)
      · exact (h.found x hx hin).imp_right .inr
    · intro x hx
      exact (h.closed x hx).imp_right fun hnext y hy => hmore (hnext y hy)
  | @enter id pending stack track walk node hnew hnode hpass =>
    refine ⟨NodeSet.mem_insert.2 (.inr h.origin_reached), ?_, ?_, ?_⟩
    · intro x hx
      rw [NodeSet.mem_insert] at hx ⊢
      exact hx.imp_right (h.tracked x)
    · intro x hx hin
      rw [NodeSet.mem_insert]
      rcases NodeSet.mem_insert.1 hx with rfl | hx
      · exact .inl (.inl rfl)
      · exact (h.found x hx hin).imp_left .inr
    · intro x hx
      rcases NodeSet.mem_insert.1 hx with rfl | hx
      · exact .inl List.mem_cons_self
      · exact (h.closed x hx).imp (List.mem_cons_of_mem id) fun hnext y hy => hmore (hnext y hy)

/-- Each turn reaches a new node of the graph, or shortens the stack, or else leaves fewer
neighbours to be looked at. -/
theorem ends (h : t.Complete g origin direction loopbackOk) (stop : Node → Bool) :
    Acc (fun later earlier => g.Turns direction loopbackOk stop earlier later) t := by
  let size : Tour → Nat × Nat × Nat := fun t =>
    ((unseen g.nodeIds t.walk.reached).length, t.stack.length, t.pending.length)
  have hwf : WellFounded (InvImage (Prod.Lex (· < ·) (Prod.Lex (· < ·) (· < ·))) size) :=
    InvImage.wf size (WellFounded.prod_lex wellFounded_lt
      (WellFounded.prod_lex wellFounded_lt wellFounded_lt))
  induction t using hwf.induction with
  | _ t ih =>
    refine Acc.intro _ fun next hstep => ih next ?_ (h.step hstep)
    cases hstep with
    | take => exact .right _ (.left _ _ (Nat.lt_succ_self _))
    | again => exact .right _ (.right _ (Nat.lt_succ_self _))
    | outside => exact .right _ (.right _ (Nat.lt_succ_self _))
    | halt => exact .right _ (.right _ (Nat.lt_succ_self _))
    | @enter id pending stack track walk node hnew hnode =>
      have hin : id ∈ g.nodeIds := exists_node?.1 ⟨node, hnode⟩
      exact .left _ _ (unseen_insert_lt hin fun hid => hnew (h.tracked id hid))

end Complete

/-- With nothing left to be looked at, the loop has found what the walk is to find. -/
theorem walk_eq {track : NodeSet} {walk : Walk}
    (hsound : Sound g origin direction loopbackOk stop ⟨[], [], track, walk⟩)
    (hcomplete : Complete g origin direction loopbackOk ⟨[], [], track, walk⟩) :
    walk = g.walk origin direction loopbackOk stop := by
  have hnext : ∀ {x y}, x ∈ walk.reached → y ∈ g.neighbours direction loopbackOk x →
      y ∈ g.nodeIds → y ∈ walk.reached ∨ y ∈ walk.stopped := by
    intro x y hx hy hin
    have hall := (hcomplete.closed x hx).resolve_left List.not_mem_nil
    exact hcomplete.found y ((hall y hy).resolve_right List.not_mem_nil) hin
  have hstops : ∀ x ∈ walk.stopped, x ≠ origin ∧ g.stopsAt stop x = true :=
    fun x hx => (mem_stopped.1 (hsound.stopped x hx)).2
  have hreached : walk.reached = g.reached origin direction loopbackOk stop := by
    refine NodeSet.ext fun x => ⟨hsound.reached x, fun hx => ?_⟩
    rw [mem_reached_iff_route] at hx
    induction hx.2 with
    | refl => exact hcomplete.origin_reached
    | @tail y z hroute hyz ih =>
      rcases hnext (ih ⟨hx.1, hroute⟩) hyz.1.1 hyz.1.2 with hz | hz
      · exact hz
      · exact absurd (hstops z hz).2 hyz.2
  have hstopped : walk.stopped = (g.walk origin direction loopbackOk stop).stopped := by
    refine NodeSet.ext fun x => ⟨hsound.stopped x, fun hx => ?_⟩
    obtain ⟨⟨r, hr, hnear⟩, hne, hstop⟩ := mem_stopped.1 hx
    obtain ⟨node, hnode, -⟩ := stopsAt_iff.1 hstop
    rw [← hreached] at hr
    refine (hnext hr hnear (exists_node?.1 ⟨node, hnode⟩)).resolve_left fun hx => ?_
    rw [not_stopsAt_of_mem_reached (hsound.reached x hx) hne] at hstop
    cases hstop
  cases walk
  cases hreached
  cases hstopped
  rfl

theorem completes (hsound : t.Sound g origin direction loopbackOk stop)
    (hcomplete : t.Complete g origin direction loopbackOk) :
    ∃ track, Relation.ReflTransGen (g.Turns direction loopbackOk stop) t
      ⟨[], [], track, g.walk origin direction loopbackOk stop⟩ := by
  induction hcomplete.ends stop with
  | intro t _ ih =>
    have hturn : ∀ next, g.Turns direction loopbackOk stop t next →
        ∃ track, Relation.ReflTransGen (g.Turns direction loopbackOk stop) t
          ⟨[], [], track, g.walk origin direction loopbackOk stop⟩ := by
      intro next hstep
      obtain ⟨track, hrest⟩ := ih next hstep (hsound.step hstep) (hcomplete.step hstep)
      exact ⟨track, .head hstep hrest⟩
    rcases t with ⟨pending, stack, track, walk⟩
    cases pending with
    | nil =>
      cases stack with
      | nil =>
        rw [← walk_eq hsound hcomplete]
        exact ⟨track, .refl⟩
      | cons id stack => exact hturn _ .take
    | cons id pending =>
      by_cases hid : id ∈ track
      · exact hturn _ (.again hid)
      · cases hnode : g.node? id with
        | none => exact hturn _ (.outside hid hnode)
        | some node =>
          cases hstop : stop node with
          | true => exact hturn _ (.halt hid hnode hstop)
          | false => exact hturn _ (.enter hid hnode hstop)

end Tour

end ProgramFlow.FlowGraph
