import Mathlib.Data.List.Nodup
import ProgramFlow.Proofs.BlockDominance

/-! The blocks of a graph, told without the order in which they are found. A node that leads no block
has one node before it, so the lines behind two leaders do not meet and no line comes back to itself.
What is taken when a line is followed therefore never cuts it short: each leader has its whole line,
and what is left over lies on no line. -/
namespace ProgramFlow

section LineFrom

inductive LineFrom {α : Type} (next : α → α → Prop) : α → List α → Prop where
  | last {x} (h : ∀ y, ¬ next x y) : LineFrom next x [x]
  | step {x y run} (h : next x y) (hrun : LineFrom next y run) : LineFrom next x (x :: run)

variable {α : Type} {next : α → α → Prop} {x y z : α} {run run' : List α}

namespace LineFrom

theorem head_mem (h : LineFrom next x run) : x ∈ run := by
  cases h <;> exact List.mem_cons_self

theorem unique (hnext : ∀ x y z, next x y → next x z → y = z) (h : LineFrom next x run)
    (h' : LineFrom next x run') : run = run' := by
  induction h generalizing run' with
  | @last x hlast =>
    cases h' with
    | last => rfl
    | step hxy => exact absurd hxy (hlast _)
  | @step x y run hxy _ ih =>
    cases h' with
    | last hlast => exact absurd hxy (hlast _)
    | @step _ z run' hxz hrun' =>
      obtain rfl := hnext x y z hxy hxz
      rw [ih hrun']

theorem closed (hnext : ∀ x y z, next x y → next x z → y = z) (h : LineFrom next x run)
    (hy : y ∈ run) (hyz : next y z) : z ∈ run := by
  induction h with
  | @last x hlast =>
    obtain rfl := List.mem_singleton.1 hy
    exact absurd hyz (hlast z)
  | @step x w run hxw hrun ih =>
    rcases List.mem_cons.1 hy with rfl | hy
    · obtain rfl := hnext y z w hyz hxw
      exact List.mem_cons_of_mem _ hrun.head_mem
    · exact List.mem_cons_of_mem _ (ih hy)

theorem eq_or_prev (h : LineFrom next x run) (hz : z ∈ run) : z = x ∨ ∃ y ∈ run, next y z := by
  induction h with
  | last => exact .inl (List.mem_singleton.1 hz)
  | @step x w run hxw hrun ih =>
    rcases List.mem_cons.1 hz with rfl | hz
    · exact .inl rfl
    · right
      rcases ih hz with rfl | ⟨y, hy, hyz⟩
      · exact ⟨x, List.mem_cons_self, hxw⟩
      · exact ⟨y, List.mem_cons_of_mem _ hy, hyz⟩

/-- What holds of the first element and is kept from one to the next holds all along the line. -/
theorem forall_mem {motive : α → Prop} (h : LineFrom next x run) (hx : motive x)
    (hstep : ∀ y z, motive y → next y z → motive z) : ∀ y ∈ run, motive y := by
  induction h with
  | last => simpa using hx
  | @step x w run hxw _ ih => exact List.forall_mem_cons.2 ⟨hx, ih (hstep x w hx hxw)⟩

end LineFrom

end LineFrom

namespace FlowGraph

variable {g : FlowGraph} {taken : NodeSet} {a b x y : NodeId} {run : List NodeId}

structure Continues (g : FlowGraph) (a b : NodeId) : Prop where
  next : g.controlSuccessors a = [b]
  not_leader : g.isLeader b = false
  inside : b ∈ g.nodeIds

theorem nextInLine?_eq_some_iff : g.nextInLine? taken a = some b ↔ g.Continues a b ∧ ¬ b ∈ taken := by
  constructor
  · intro h
    have hnext := nextInLine?_controlSuccessors h
    obtain ⟨htaken, hinside⟩ := nextInLine?_eq_some h
    have hleader : g.isLeader b = false := by
      by_contra hleader
      simp [nextInLine?, hnext, hleader] at h
    exact ⟨⟨hnext, hleader, hinside⟩, htaken⟩
  · rintro ⟨h, htaken⟩
    simp [nextInLine?, h.next, h.not_leader, h.inside, htaken]

theorem mem_controlPredecessors : a ∈ g.controlPredecessors b ↔ b ∈ g.controlSuccessors a := by
  simp only [controlPredecessors, controlSuccessors, incoming, outgoing, Graph.incoming,
    Graph.outgoing, List.mem_map, List.mem_filter, List.mem_reverse, decide_eq_true_eq]
  constructor
  · rintro ⟨e, ⟨⟨he, ht⟩, hcontrol⟩, hs⟩
    exact ⟨e, ⟨⟨he, hs⟩, hcontrol⟩, ht⟩
  · rintro ⟨e, ⟨⟨he, hs⟩, hcontrol⟩, ht⟩
    exact ⟨e, ⟨⟨he, ht⟩, hcontrol⟩, hs⟩

theorem length_controlPredecessors (h : g.isLeader a = false) :
    (g.controlPredecessors a).length = 1 := by
  by_contra hlength
  simp [isLeader, hlength] at h

namespace Continues

theorem next_unique (a x y : NodeId) (hx : g.Continues a x) (hy : g.Continues a y) : x = y := by
  have heq := hx.next.symm.trans hy.next
  exact (List.cons.inj heq).1

theorem prev_unique (hx : g.Continues x a) (hy : g.Continues y a) : x = y := by
  obtain ⟨p, hp⟩ := List.length_eq_one_iff.1 (length_controlPredecessors hx.not_leader)
  have hprev : ∀ {z}, g.Continues z a → z = p := by
    intro z hz
    have hmem : z ∈ g.controlPredecessors a := mem_controlPredecessors.2 (by simp [hz.next])
    rw [hp] at hmem
    exact List.mem_singleton.1 hmem
  rw [hprev hx, hprev hy]

end Continues

def Settled (g : FlowGraph) (taken : NodeSet) : Prop :=
  ∀ x y, g.Continues x y → (x ∈ taken ↔ y ∈ taken)

/-- The line that is being followed has come to a node, and what is taken has been entered from its
beginning: the node before one that is taken is taken as well, and is not the one come to. -/
structure Following (g : FlowGraph) (taken : NodeSet) (id : NodeId) : Prop where
  here : id ∈ taken
  prev : ∀ x y, g.Continues x y → y ∈ taken → x ∈ taken ∧ x ≠ id

theorem Settled.following (h : g.Settled taken) (hleader : g.isLeader a = true)
    (hnew : ¬ a ∈ taken) : g.Following (taken.insert a) a := by
  refine ⟨NodeSet.mem_insert.2 (.inl rfl), fun x y hxy hy => ?_⟩
  rcases NodeSet.mem_insert.1 hy with rfl | hy
  · rw [hxy.not_leader] at hleader
    cases hleader
  · have hx := (h x y hxy).2 hy
    refine ⟨NodeSet.mem_insert.2 (.inr hx), ?_⟩
    rintro rfl
    exact hnew hx

theorem Following.step (h : g.Following taken a) (hab : g.Continues a b) (hnew : ¬ b ∈ taken) :
    g.Following (taken.insert b) b := by
  refine ⟨NodeSet.mem_insert.2 (.inl rfl), fun x y hxy hy => ?_⟩
  have hx : x ∈ taken := by
    rcases NodeSet.mem_insert.1 hy with rfl | hy
    · rw [hxy.prev_unique hab]
      exact h.here
    · exact (h.prev x y hxy hy).1
  refine ⟨NodeSet.mem_insert.2 (.inr hx), ?_⟩
  rintro rfl
  exact hnew hx

/-- A line is not cut short by what is taken. -/
theorem Following.lineFrom (h : g.Following taken a) :
    LineFrom g.Continues a (a :: g.line taken a) := by
  fun_induction line g taken a with
  | case1 taken a b hb ih =>
    obtain ⟨hab, hnew⟩ := nextInLine?_eq_some_iff.1 hb
    exact .step hab (ih (h.step hab hnew))
  | case2 taken a hnone =>
    apply LineFrom.last
    intro b hab
    by_cases htaken : b ∈ taken
    · exact (h.prev a b hab htaken).2 rfl
    · rw [nextInLine?_eq_some_iff.2 ⟨hab, htaken⟩] at hnone
      cases hnone

theorem Settled.union (h : g.Settled taken) (hleader : g.isLeader a = true)
    (hrun : LineFrom g.Continues a run) : g.Settled (taken.union (NodeSet.ofList run)) := by
  intro x y hxy
  simp only [NodeSet.mem_union, NodeSet.mem_ofList]
  have hback : y ∈ run → x ∈ run := by
    intro hy
    rcases hrun.eq_or_prev hy with rfl | ⟨z, hz, hzy⟩
    · rw [hxy.not_leader] at hleader
      cases hleader
    · rw [hxy.prev_unique hzy]
      exact hz
  constructor
  · exact .imp (h x y hxy).1 fun hx => hrun.closed Continues.next_unique hx hxy
  · exact .imp (h x y hxy).2 hback

theorem Settled.line_subset (h : g.Settled taken) (hrun : LineFrom g.Continues a run)
    (ha : a ∈ taken) : ∀ x ∈ run, x ∈ taken :=
  hrun.forall_mem ha fun x y hx hxy => (h x y hxy).1 hx

theorem eq_of_leader_mem (hrun : LineFrom g.Continues a run) (hx : x ∈ run)
    (hleader : g.isLeader x = true) : x = a := by
  rcases hrun.eq_or_prev hx with hxa | ⟨y, -, hyx⟩
  · exact hxa
  · rw [hyx.not_leader] at hleader
    cases hleader

/-- The blocks of a graph: the whole line behind each leader, and each node by itself that lies on no
such line. -/
inductive IsBlock (g : FlowGraph) : List NodeId → Prop where
  | line {a : NodeId} {run : List NodeId} (ha : a ∈ g.nodeIds) (hleader : g.isLeader a = true)
      (hrun : LineFrom g.Continues a run) : IsBlock g run
  | single {a : NodeId} (ha : a ∈ g.nodeIds)
      (hoff : ∀ l ∈ g.nodeIds, g.isLeader l = true → ∀ run, LineFrom g.Continues l run → a ∉ run) :
      IsBlock g [a]

section Runs

variable {l : NodeId} {leaders rest : List NodeId}

theorem runs_cons_of_free (hl : l ∈ g.nodeIds) (hnew : ¬ l ∈ taken) :
    g.runs (l :: rest) taken = (l :: g.line (taken.insert l) l) ::
      g.runs rest (taken.union (NodeSet.ofList (l :: g.line (taken.insert l) l))) := by
  rw [runs, if_pos]
  simpa [contains_iff] using ⟨hl, hnew⟩

theorem runs_cons_of_not_free (h : ¬ (l ∈ g.nodeIds ∧ ¬ l ∈ taken)) :
    g.runs (l :: rest) taken = g.runs rest taken := by
  rw [runs, if_neg]
  simpa [contains_iff] using h

theorem mem_flatten_runs :
    x ∈ (g.runs leaders taken).flatten ↔ x ∈ g.nodeIds ∧ ¬ x ∈ taken := by
  induction leaders generalizing taken with
  | nil => simp [runs]
  | cons l rest ih =>
    by_cases hfree : l ∈ g.nodeIds ∧ ¬ l ∈ taken
    · have hfirst : ∀ y ∈ l :: g.line (taken.insert l) l, y ∈ g.nodeIds ∧ ¬ y ∈ taken := by
        refine List.forall_mem_cons.2 ⟨hfree, fun y hy => ?_⟩
        obtain ⟨hnew, hinside⟩ := line_fresh _ _ y hy
        exact ⟨hinside, fun htaken => hnew (NodeSet.mem_insert.2 (.inr htaken))⟩
      rw [runs_cons_of_free hfree.1 hfree.2, List.flatten_cons, List.mem_append, ih,
        NodeSet.mem_union, NodeSet.mem_ofList, not_or]
      by_cases hx : x ∈ l :: g.line (taken.insert l) l
      · simp only [hx, true_or, true_iff]
        exact hfirst x hx
      · simp only [hx, false_or, not_false_eq_true, and_true]
    · rw [runs_cons_of_not_free hfree, ih]

theorem nodup_flatten_runs (hids : g.nodeIds.Nodup) : (g.runs leaders taken).flatten.Nodup := by
  induction leaders generalizing taken with
  | nil =>
    have hleft : (g.runs [] taken).flatten = g.nodeIds.filter fun id => ¬ id ∈ taken := by
      simp [runs, ← List.flatMap_def]
    rw [hleft]
    exact hids.filter _
  | cons l rest ih =>
    by_cases hfree : l ∈ g.nodeIds ∧ ¬ l ∈ taken
    · rw [runs_cons_of_free hfree.1 hfree.2, List.flatten_cons, List.nodup_append']
      refine ⟨(IsRun.line taken hfree.1).nodup, ih, fun y hy hlater => ?_⟩
      have hnew := (mem_flatten_runs.1 hlater).2
      exact hnew (NodeSet.mem_union.2 (.inr (NodeSet.mem_ofList.2 hy)))
    · rw [runs_cons_of_not_free hfree]
      exact ih

/-- What is found are whole lines of leaders, and nodes on none of them. -/
theorem line_or_single_of_mem_runs (h : g.Settled taken)
    (hleaders : ∀ l ∈ leaders, g.isLeader l = true) (hrun : run ∈ g.runs leaders taken) :
    (∃ l ∈ leaders, l ∈ g.nodeIds ∧ LineFrom g.Continues l run) ∨
      ∃ id ∈ g.nodeIds, run = [id] ∧ ¬ id ∈ taken ∧
        ∀ l ∈ leaders, l ∈ g.nodeIds → ∀ line, LineFrom g.Continues l line → id ∉ line := by
  induction leaders generalizing taken with
  | nil =>
    simp only [runs, List.mem_map, List.mem_filter, decide_eq_true_eq] at hrun
    obtain ⟨id, ⟨hid, hnew⟩, rfl⟩ := hrun
    exact .inr ⟨id, hid, rfl, hnew, by simp⟩
  | cons l rest ih =>
    obtain ⟨hl, hrest⟩ := List.forall_mem_cons.1 hleaders
    by_cases hfree : l ∈ g.nodeIds ∧ ¬ l ∈ taken
    · have hfirst := (h.following hl hfree.2).lineFrom
      rw [runs_cons_of_free hfree.1 hfree.2] at hrun
      rcases List.mem_cons.1 hrun with rfl | hrun
      · exact .inl ⟨l, List.mem_cons_self, hfree.1, hfirst⟩
      rcases ih (h.union hl hfirst) hrest hrun with ⟨l', hl', hin⟩ | ⟨id, hid, rfl, hnew, hoff⟩
      · exact .inl ⟨l', List.mem_cons_of_mem l hl', hin⟩
      · rw [NodeSet.mem_union, NodeSet.mem_ofList, not_or] at hnew
        refine .inr ⟨id, hid, rfl, hnew.1, List.forall_mem_cons.2 ⟨fun _ line hline => ?_, hoff⟩⟩
        rw [← hfirst.unique Continues.next_unique hline]
        exact hnew.2
    · -- `l` is not in the graph, or its line has been taken up before
      rw [runs_cons_of_not_free hfree] at hrun
      rcases ih h hrest hrun with ⟨l', hl', hin⟩ | ⟨id, hid, rfl, hnew, hoff⟩
      · exact .inl ⟨l', List.mem_cons_of_mem l hl', hin⟩
      · refine .inr ⟨id, hid, rfl, hnew, List.forall_mem_cons.2 ⟨fun hin line hline => ?_, hoff⟩⟩
        have htaken : l ∈ taken := by
          by_contra hnot
          exact hfree ⟨hin, hnot⟩
        exact fun hmem => hnew (h.line_subset hline htaken id hmem)

end Runs

theorem isLeader_of_mem_leaders : ∀ l ∈ g.leaders, g.isLeader l = true := by
  intro l hl
  rcases List.mem_cons.1 hl with rfl | hl
  · simp [isLeader]
  · have hleader := (List.mem_filter.1 hl).2
    rw [Bool.and_eq_true] at hleader
    exact hleader.2

theorem mem_leaders_of_isLeader (ha : a ∈ g.nodeIds) (hleader : g.isLeader a = true) :
    a ∈ g.leaders := by
  by_cases hstart : a = g.start
  · exact hstart ▸ List.mem_cons_self
  · exact List.mem_cons_of_mem _ (List.mem_filter.2 ⟨ha, by simp [hstart, hleader]⟩)

/-- The blocks that are found are the blocks of the graph. Since every node is in one of those that
are found, none is missed. -/
theorem mem_runs_leaders : run ∈ g.runs g.leaders .empty ↔ g.IsBlock run := by
  have hfound : ∀ run ∈ g.runs g.leaders .empty, g.IsBlock run := by
    intro run hrun
    have hsettled : g.Settled .empty := fun x y _ => by simp
    rcases line_or_single_of_mem_runs hsettled isLeader_of_mem_leaders hrun with
      ⟨l, hl, hin, hline⟩ | ⟨id, hid, rfl, -, hoff⟩
    · exact .line hin (isLeader_of_mem_leaders l hl) hline
    · exact .single hid fun l hin hl => hoff l (mem_leaders_of_isLeader hin hl) hin
  refine ⟨hfound run, fun h => ?_⟩
  have hcover : ∀ x ∈ g.nodeIds, ∃ found ∈ g.runs g.leaders .empty, x ∈ found := fun x hx =>
    List.mem_flatten.1 (mem_flatten_runs.2 ⟨hx, NodeSet.not_mem_empty⟩)
  cases h with
  | @line a run ha hleader hrun =>
    obtain ⟨found, hmem, hin⟩ := hcover a ha
    cases hfound found hmem with
    | line _ _ hline =>
      obtain rfl := eq_of_leader_mem hline hin hleader
      rw [hrun.unique Continues.next_unique hline]
      exact hmem
    | single _ hoff =>
      obtain rfl := List.mem_singleton.1 hin
      exact absurd hrun.head_mem (hoff a ha hleader run hrun)
  | @single a ha hoff =>
    obtain ⟨found, hmem, hin⟩ := hcover a ha
    cases hfound found hmem with
    | line hl hleader hline => exact absurd hin (hoff _ hl hleader _ hline)
    | single =>
      rw [List.mem_singleton.1 hin]
      exact hmem

theorem nodup_runs (hids : g.nodeIds.Nodup) : (g.runs g.leaders .empty).Nodup := by
  have hflatten : (g.runs g.leaders .empty).flatten.Nodup := nodup_flatten_runs hids
  have hdisjoint := (List.nodup_flatten.1 hflatten).2
  refine hdisjoint.imp_of_mem fun {run run'} hrun _ hapart => ?_
  rintro rfl
  obtain ⟨x, hx⟩ := List.exists_mem_of_ne_nil _ (isRun_of_mem_runs hrun).ne_nil
  exact hapart hx hx

theorem map_partition : (g.partition.map fun block => (block.leader, block.nodes)) =
    (g.runs g.leaders .empty).filterMap fun run => run.head?.map fun leader => (leader, run) := by
  rw [partition, List.map_filterMap]
  conv_rhs => rw [← List.zipIdx_map_fst 0 (g.runs g.leaders .empty), List.filterMap_map]
  apply List.filterMap_congr
  rintro ⟨run, index⟩ -
  exact Option.map_map ..

end FlowGraph

end ProgramFlow
