import Mathlib.Dynamics.PeriodicPts.Lemmas
import ProgramFlow.Proofs.BlockMembership

/-! How far blocks go. A block that is opened where it has to be runs on until control branches,
ends or comes to a node that opens a block. A node on no such line has one node before it, which is
on no such line either; going back from node to node among finitely many, one comes to where one
was, and since control does not branch there, that is a circle through the first node. -/
namespace ProgramFlow

namespace LineFrom

variable {α : Type} {next : α → α → Prop} {x y : α} {run : List α}

theorem head?_eq (h : LineFrom next x run) : run.head? = some x := by
  cases h <;> rfl

theorem isChain (h : LineFrom next x run) : run.IsChain next := by
  induction h with
  | last => exact .singleton _
  | @step x y run hxy hrun ih =>
    obtain ⟨rest, rfl⟩ := List.head?_eq_some_iff.1 hrun.head?_eq
    exact .cons_cons hxy ih

theorem ends (h : LineFrom next x run) (hy : run.getLast? = some y) : ∀ z, ¬ next y z := by
  induction h with
  | last hlast =>
    obtain rfl : _ = y := Option.some.inj hy
    exact hlast
  | @step x w run _ hrun ih =>
    obtain ⟨rest, rfl⟩ := List.head?_eq_some_iff.1 hrun.head?_eq
    exact ih (by rwa [List.getLast?_cons_cons] at hy)

theorem exists_from (h : LineFrom next x run) (hy : y ∈ run) : ∃ rest, LineFrom next y rest := by
  induction h with
  | last hlast =>
    obtain rfl := List.mem_singleton.1 hy
    exact ⟨_, .last hlast⟩
  | step hxy hrun ih =>
    rcases List.mem_cons.1 hy with rfl | hy
    · exact ⟨_, .step hxy hrun⟩
    · exact ih hy

/-- A line has an end, so it does not come to a place from where one can always go on. -/
theorem not_forever {stays : α → Prop} (hnext : ∀ x y z, next x y → next x z → y = z)
    (hstays : ∀ x, stays x → ∃ y, next x y ∧ stays y) (h : LineFrom next x run) : ¬ stays x := by
  induction h with
  | last hlast =>
    intro hx
    obtain ⟨y, hxy, -⟩ := hstays _ hx
    exact hlast y hxy
  | @step x y run hxy _ ih =>
    intro hx
    obtain ⟨z, hxz, hz⟩ := hstays _ hx
    obtain rfl := hnext x y z hxy hxz
    exact ih hz

end LineFrom

/-- Among finitely many, where everything has something before it and at most one thing after it,
going back leads round. -/
theorem transGen_self_of_finite {α : Type} [Finite α] {next : α → α → Prop}
    (hprev : ∀ x, ∃ y, next y x) (hnext : ∀ x y z, next x y → next x z → y = z) (a : α) :
    Relation.TransGen next a a := by
  choose prev hprev using hprev
  -- two things with the same one before them are both the one thing after it
  have hinjective : Function.Injective prev := by
    intro x y hxy
    exact hnext (prev x) x y (hprev x) (hxy ▸ hprev y)
  have hback : ∀ n, Relation.TransGen next (prev^[n + 1] a) a := by
    intro n
    induction n with
    | zero => exact .single (hprev a)
    | succ n ih =>
      rw [Function.iterate_succ_apply']
      exact .head (hprev _) ih
  obtain ⟨n, hpos, hperiod⟩ := hinjective.mem_periodicPts a
  obtain ⟨m, rfl⟩ := Nat.exists_eq_add_of_lt hpos
  have hround := hback m
  rw [← Nat.zero_add m, hperiod.eq] at hround
  exact hround

namespace FlowGraph

variable {g : FlowGraph} {a b x y : NodeId} {run : List NodeId} {block : BasicBlock}

/-- The nodes where a block has to begin: the start, where control comes in by no edge or by
several, what is next to a branch, the target of a back edge or of an exception, and what the method
lists as exception target. -/
inductive Opens (g : FlowGraph) (id : NodeId) : Prop where
  | start (h : id = g.start)
  | entries (h : (g.controlPredecessors id).length ≠ 1)
  | branch {p} (hp : p ∈ g.nodeIds) (hbranch : 1 < (g.controlSuccessors p).length)
      (h : id ∈ g.controlSuccessors p)
  | target {e} (he : e ∈ g.edges) (ht : e.target = id)
      (h : e.isLoopback = true ∨ e.kind = .exceptionCatch)
  | exception {m} (hm : g.methodEntry? = some m) (h : id ∈ m.exceptions)

theorem mem_incoming {e : Flow} : e ∈ g.incoming a ↔ e ∈ g.edges ∧ e.target = a := by
  simp only [incoming, Graph.incoming, List.mem_reverse, List.mem_filter, decide_eq_true_eq]
  rfl

theorem controlSuccessors_inside (hg : g.graph.WellFormed) (h : b ∈ g.controlSuccessors a) :
    a ∈ g.nodeIds ∧ b ∈ g.nodeIds := by
  simp only [controlSuccessors, outgoing, Graph.outgoing, List.mem_map, List.mem_filter,
    List.mem_reverse, decide_eq_true_eq] at h
  obtain ⟨e, ⟨⟨he, hs⟩, -⟩, ht⟩ := h
  rw [← hs, ← ht]
  exact hg.ends e he

theorem isLeader_iff_opens (hg : g.graph.WellFormed) : g.isLeader a = true ↔ g.Opens a := by
  simp only [isLeader, isNextToBranch, isBranch, Bool.or_eq_true, decide_eq_true_eq,
    List.any_eq_true, Option.any_eq_true, mem_incoming, mem_controlPredecessors]
  constructor
  · rintro ((((h | h) | ⟨p, hp, hbranch⟩) | ⟨e, ⟨he, ht⟩, h⟩) | ⟨m, hm, h⟩)
    · exact .start h
    · exact .entries h
    · exact .branch (controlSuccessors_inside hg hp).1 hbranch hp
    · exact .target he ht h
    · exact .exception hm h
  · rintro (h | h | ⟨-, hbranch, h⟩ | ⟨he, ht, h⟩ | ⟨hm, h⟩)
    · exact .inl (.inl (.inl (.inl h)))
    · exact .inl (.inl (.inl (.inr h)))
    · exact .inl (.inl (.inr ⟨_, h, hbranch⟩))
    · exact .inl (.inr ⟨_, ⟨he, ht⟩, h⟩)
    · exact .inr ⟨_, hm, h⟩

def OnFreeCircle (g : FlowGraph) (a : NodeId) : Prop :=
  Relation.TransGen (fun x y => y ∈ g.controlSuccessors x ∧ ¬ g.Opens x ∧ ¬ g.Opens y) a a

section Circle

theorem Continues.of_not_opens (hg : g.graph.WellFormed) (hab : b ∈ g.controlSuccessors a)
    (hb : ¬ g.Opens b) : g.Continues a b := by
  obtain ⟨ha, hinside⟩ := controlSuccessors_inside hg hab
  have hsingle : (g.controlSuccessors a).length = 1 := by
    have hpos := List.length_pos_of_mem hab
    have hnot : ¬ 1 < (g.controlSuccessors a).length := fun hbranch => hb (.branch ha hbranch hab)
    omega
  obtain ⟨c, hc⟩ := List.length_eq_one_iff.1 hsingle
  rw [hc, List.mem_singleton] at hab
  refine ⟨hab ▸ hc, Bool.eq_false_iff.2 fun hleader => hb ?_, hinside⟩
  exact (isLeader_iff_opens hg).1 hleader

theorem Continues.controlPredecessors_eq (h : g.Continues a b) : g.controlPredecessors b = [a] := by
  obtain ⟨p, hp⟩ := List.length_eq_one_iff.1 (length_controlPredecessors h.not_leader)
  have hmem : a ∈ g.controlPredecessors b := mem_controlPredecessors.2 (by simp [h.next])
  rw [hp, List.mem_singleton] at hmem
  rw [hp, hmem]

theorem exists_continues (hg : g.graph.WellFormed) (ha : ¬ g.Opens a) : ∃ p, g.Continues p a := by
  have hsingle : (g.controlPredecessors a).length = 1 := by
    by_contra hentries
    exact ha (.entries hentries)
  obtain ⟨p, hp⟩ := List.length_eq_one_iff.1 hsingle
  have hmem : p ∈ g.controlPredecessors a := by simp [hp]
  exact ⟨p, .of_not_opens hg (mem_controlPredecessors.1 hmem) ha⟩

def OffLines (g : FlowGraph) (a : NodeId) : Prop :=
  ∀ l ∈ g.nodeIds, g.isLeader l = true → ∀ run, LineFrom g.Continues l run → a ∉ run

theorem exists_line (ha : g.isLeader a = true) : ∃ run, LineFrom g.Continues a run := by
  have hsettled : g.Settled .empty := fun x y _ => by simp
  exact ⟨_, (hsettled.following ha NodeSet.not_mem_empty).lineFrom⟩

theorem OffLines.not_opens (h : g.OffLines a) (hg : g.graph.WellFormed) (ha : a ∈ g.nodeIds) :
    ¬ g.Opens a := by
  intro hopens
  have hleader := (isLeader_iff_opens hg).2 hopens
  obtain ⟨run, hrun⟩ := exists_line hleader
  exact h a ha hleader run hrun hrun.head_mem

theorem OffLines.prev (h : g.OffLines b) (hab : g.Continues a b) : g.OffLines a :=
  fun l hl hleader run hrun ha => h l hl hleader run hrun (hrun.closed Continues.next_unique ha hab)

/-- The nodes that are left over lie on circles. -/
theorem OffLines.onFreeCircle (h : g.OffLines a) (hg : g.graph.WellFormed) (ha : a ∈ g.nodeIds) :
    g.OnFreeCircle a := by
  let Left := {x // x ∈ g.nodeIds ∧ g.OffLines x}
  have hfinite : Finite Left := (g.nodeIds.finite_toSet.subset fun x hx => hx.1).to_subtype
  have hprev : ∀ x : Left, ∃ y : Left, g.Continues y x := by
    rintro ⟨x, hx, hoff⟩
    obtain ⟨p, hp⟩ := exists_continues hg (hoff.not_opens hg hx)
    have hinside := controlSuccessors_inside hg (a := p) (b := x) (by simp [hp.next])
    exact ⟨⟨p, hinside.1, hoff.prev hp⟩, hp⟩
  have hround : Relation.TransGen (fun x y : Left => g.Continues x y) ⟨a, ha, h⟩ ⟨a, ha, h⟩ :=
    transGen_self_of_finite hprev
      (fun x y z hy hz => Subtype.ext (Continues.next_unique x.1 y z hy hz)) _
  refine hround.lift Subtype.val (fun x y hxy => ?_)
  exact ⟨by simp [hxy.next], x.2.2.not_opens hg x.2.1, y.2.2.not_opens hg y.2.1⟩

/-- A line that came onto a circle would not end. -/
theorem OnFreeCircle.offLines (h : g.OnFreeCircle a) (hg : g.graph.WellFormed) :
    a ∈ g.nodeIds ∧ g.OffLines a := by
  have hstays : ∀ x, g.OnFreeCircle x → ∃ y, g.Continues x y ∧ g.OnFreeCircle y := by
    intro x hx
    obtain ⟨y, hxy, hyx⟩ := Relation.TransGen.head'_iff.1 hx
    exact ⟨y, .of_not_opens hg hxy.1 hxy.2.2, .tail' hyx hxy⟩
  constructor
  · obtain ⟨y, hay, -⟩ := Relation.TransGen.head'_iff.1 h
    exact (controlSuccessors_inside hg hay.1).1
  · intro l hl hleader run hrun ha
    obtain ⟨rest, hrest⟩ := hrun.exists_from ha
    exact hrest.not_forever Continues.next_unique hstays h

end Circle

section Extent

theorem isBlock_of_mem_partition (hb : block ∈ g.partition) : g.IsBlock block.nodes :=
  mem_runs_leaders.1 (mem_partition hb).1

theorem IsBlock.exists_block (h : g.IsBlock run) : ∃ block ∈ g.partition, block.nodes = run := by
  have hrun := mem_runs_leaders.2 h
  rw [← map_nodes_partition] at hrun
  exact List.mem_map.1 hrun

theorem leader_mem (hb : block ∈ g.partition) : block.leader ∈ block.nodes :=
  List.mem_of_head? (mem_partition hb).2

theorem IsBlock.isChain (h : g.IsBlock run) : run.IsChain fun x y =>
    g.controlSuccessors x = [y] ∧ g.controlPredecessors y = [x] := by
  cases h with
  | line _ _ hrun => exact hrun.isChain.imp fun x y hxy => ⟨hxy.next, hxy.controlPredecessors_eq⟩
  | single => exact .singleton _

theorem line_or_left_over (hb : block ∈ g.partition) :
    g.isLeader block.leader = true ∧ LineFrom g.Continues block.leader block.nodes ∨
      g.OffLines block.leader ∧ block.nodes = [block.leader] := by
  have hhead := (mem_partition hb).2
  have hblock := isBlock_of_mem_partition hb
  generalize block.nodes = run at hhead hblock
  cases hblock with
  | @line a run _ hleader hrun =>
    obtain rfl : a = block.leader := Option.some.inj (hrun.head?_eq.symm.trans hhead)
    exact .inl ⟨hleader, hrun⟩
  | @single a _ hoff =>
    obtain rfl : a = block.leader := Option.some.inj hhead
    exact .inr ⟨hoff, rfl⟩

theorem exists_block_of_opens (hg : g.graph.WellFormed) (ha : a ∈ g.nodeIds) (hopens : g.Opens a) :
    ∃ block ∈ g.partition, block.leader = a := by
  have hleader := (isLeader_iff_opens hg).2 hopens
  obtain ⟨run, hrun⟩ := exists_line hleader
  obtain ⟨block, hb, rfl⟩ := (IsBlock.line ha hleader hrun).exists_block
  exact ⟨block, hb, Option.some.inj ((mem_partition hb).2.symm.trans hrun.head?_eq)⟩

theorem end_of_line (hg : g.graph.WellFormed) (h : ∀ y, ¬ g.Continues x y) :
    (g.controlSuccessors x).length ≠ 1 ∨ ∃ y, g.controlSuccessors x = [y] ∧ g.Opens y := by
  by_cases hlength : (g.controlSuccessors x).length = 1
  · obtain ⟨y, hy⟩ := List.length_eq_one_iff.1 hlength
    refine .inr ⟨y, hy, ?_⟩
    by_contra hopens
    exact h y (.of_not_opens hg (by simp [hy]) hopens)
  · exact .inl hlength

end Extent

end FlowGraph

namespace Cfg

/-- Blocks are the longest straight lines with one way in. Every node where a block has to begin
leads one. In each block control goes from each node to the next by the only edge that leaves the
one and the only edge that enters the other, and a block that began where it had to ends only where
it has to. The blocks that are left consist of one node each, and they are the nodes on circles
where no block has to begin. -/
theorem blocks_are_longest_lines {c : Cfg} (hc : c.flow.graph.Made) :
    (∀ id ∈ c.flow.nodeIds, c.flow.Opens id →
      ∃! block, block ∈ c.computeBlocks.blocks ∧ block.leader = id) ∧
    (∀ block ∈ c.computeBlocks.blocks,
      (block.nodes.IsChain fun a b =>
        c.flow.controlSuccessors a = [b] ∧ c.flow.controlPredecessors b = [a]) ∧
      (c.flow.Opens block.leader → ∀ last, block.nodes.getLast? = some last →
        (c.flow.controlSuccessors last).length ≠ 1 ∨
          ∃ next, c.flow.controlSuccessors last = [next] ∧ c.flow.Opens next) ∧
      (¬ c.flow.Opens block.leader →
        block.nodes = [block.leader] ∧ c.flow.OnFreeCircle block.leader)) ∧
    ∀ id, c.flow.OnFreeCircle id →
      ∃! block, block ∈ c.computeBlocks.blocks ∧ block.nodes = [id] := by
  have hg := hc.wellFormed
  have hunique : ∀ id {block other : BasicBlock}, block ∈ c.flow.partition →
      other ∈ c.flow.partition → id ∈ block.nodes → id ∈ other.nodes → other = block :=
    fun _ => FlowGraph.eq_of_listed hc.nodup_nodeIds
  refine ⟨fun id hid hopens => ?_,
    fun block hb => ⟨?_, fun hopens last hlast => ?_, fun hopens => ?_⟩, fun id hcircle => ?_⟩
  · obtain ⟨block, hb, rfl⟩ := FlowGraph.exists_block_of_opens hg hid hopens
    refine ⟨block, ⟨hb, rfl⟩, fun other ⟨ho, heq⟩ => ?_⟩
    exact hunique _ hb ho (FlowGraph.leader_mem hb) (heq ▸ FlowGraph.leader_mem ho)
  · exact (FlowGraph.isBlock_of_mem_partition hb).isChain
  · rcases FlowGraph.line_or_left_over hb with ⟨-, hline⟩ | ⟨hoff, -⟩
    · exact FlowGraph.end_of_line hg (hline.ends hlast)
    · have hin := FlowGraph.exists_listing_iff.1 ⟨block, hb, FlowGraph.leader_mem hb⟩
      exact absurd hopens (hoff.not_opens hg hin)
  · rcases FlowGraph.line_or_left_over hb with ⟨hleader, -⟩ | ⟨hoff, hnodes⟩
    · exact absurd ((FlowGraph.isLeader_iff_opens hg).1 hleader) hopens
    · have hin := FlowGraph.exists_listing_iff.1 ⟨block, hb, FlowGraph.leader_mem hb⟩
      exact ⟨hnodes, hoff.onFreeCircle hg hin⟩
  · obtain ⟨hin, hoff⟩ := hcircle.offLines hg
    obtain ⟨block, hb, hnodes⟩ := (FlowGraph.IsBlock.single hin hoff).exists_block
    refine ⟨block, ⟨hb, hnodes⟩, fun other ⟨ho, hnodes'⟩ => ?_⟩
    exact hunique id hb ho (by simp [hnodes]) (by simp [hnodes'])

def caughtBesideCircle : Cfg where
  flow :=
    { qualifiedName := "A.f"
      start := 1
      finish := 5
      graph := .ofLists
        ({ id := 1
           data := .entry ⟨.method, "f", "f()", "A.f",
             .method { returnType := "void", exceptions := [4, 9] }⟩
           link := ⟨1⟩ } ::
          [2, 3, 4, 5, 6, 7].map fun id => { id, data := .dummy, link := ⟨id.val⟩ })
        ({ source := 5, target := 6, kind := .methodCall } ::
          [(1, 2), (2, 3), (3, 4), (4, 5), (6, 7), (7, 6)].map fun (source, target) =>
            { source, target, kind := .fallThrough }) }

theorem blocks_are_longest_lines_beside_circle :
    caughtBesideCircle.computeBlocks.blocks =
        [⟨⟨0⟩, 1, [1, 2, 3]⟩, ⟨⟨1⟩, 4, [4, 5]⟩, ⟨⟨2⟩, 6, [6]⟩, ⟨⟨3⟩, 7, [7]⟩] ∧
      (∃! block, block ∈ caughtBesideCircle.computeBlocks.blocks ∧ block.leader = 4) ∧
      ((caughtBesideCircle.flow.controlSuccessors 3).length ≠ 1 ∨
        ∃ next, caughtBesideCircle.flow.controlSuccessors 3 = [next] ∧
          caughtBesideCircle.flow.Opens next) ∧
      caughtBesideCircle.flow.OnFreeCircle 6 ∧
      ∃! block, block ∈ caughtBesideCircle.computeBlocks.blocks ∧ block.nodes = [6] := by
  have hmade : caughtBesideCircle.flow.graph.Made := Graph.Made.ofLists _ _
  have hopens := fun id => FlowGraph.isLeader_iff_opens (a := id) hmade.wellFormed
  have hblocks : caughtBesideCircle.computeBlocks.blocks =
      [⟨⟨0⟩, 1, [1, 2, 3]⟩, ⟨⟨1⟩, 4, [4, 5]⟩, ⟨⟨2⟩, 6, [6]⟩, ⟨⟨3⟩, 7, [7]⟩] := by decide +kernel
  obtain ⟨hleads, hlines, hcircles⟩ := blocks_are_longest_lines hmade
  obtain ⟨-, hends, -⟩ := hlines ⟨⟨0⟩, 1, [1, 2, 3]⟩ (by simp [hblocks])
  obtain ⟨-, -, hsingle⟩ := hlines ⟨⟨2⟩, 6, [6]⟩ (by simp [hblocks])
  have hcircle : caughtBesideCircle.flow.OnFreeCircle 6 := by
    refine (hsingle fun h => ?_).2
    have hleader := (hopens 6).2 h
    revert hleader
    decide +kernel
  refine ⟨hblocks, hleads 4 (by decide +kernel) ((hopens 4).1 (by decide +kernel)), ?_, hcircle,
    hcircles 6 hcircle⟩
  exact hends ((hopens 1).1 (by decide +kernel)) 3 rfl

end Cfg

end ProgramFlow
