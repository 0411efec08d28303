import ProgramFlow.FlowGraph.PostDominance
import ProgramFlow.Proofs.Reachability

/-! Post-dominators of a node that leads to the finish form a chain, and the immediate one is its
head. The arguments are about paths: where one meets a node first and where it leaves it last. -/
namespace ProgramFlow.FlowGraph

variable {g : FlowGraph} {a p q : NodeId}

abbrev Path (g : FlowGraph) (avoid : Set NodeId) : NodeId → NodeId → Prop :=
  g.Route .forward true avoid

/-- A node post-dominates another when it can be reached and every path to the finish meets it. -/
theorem postDominates_iff : g.postDominates a p = true ↔
    p ≠ a ∧ p ≠ g.finish ∧ a ∈ g.nodeIds ∧ g.Path ∅ a p ∧ ¬ g.Path {p} a g.finish := by
  simp only [postDominates]
  split
  · next h =>
    rw [Bool.or_eq_true, decide_eq_true_eq, decide_eq_true_eq] at h
    simp only [Bool.false_eq_true, false_iff]
    rintro ⟨ha, hf, -⟩
    exact h.elim ha hf
  · next h =>
    rw [Bool.or_eq_true, decide_eq_true_eq, decide_eq_true_eq, not_or] at h
    rw [Bool.and_eq_true, Bool.not_eq_true', decide_eq_false_iff_not, decide_eq_true_eq,
      mem_reached_stop_at, mem_stopped, stopsAt_node]
    constructor
    · rintro ⟨hfinish, ⟨r, hr, hrp⟩, -, -, hp⟩
      rw [mem_reached_stop_at] at hr
      have hpath : g.Path ∅ a p :=
        (hr.2.mono (by simp)).tail ⟨⟨hrp, hp⟩, by simp⟩
      exact ⟨h.1, h.2, hr.1, hpath, fun hf => hfinish ⟨hr.1, hf⟩⟩
    · rintro ⟨-, -, ha, hpath, hfinish⟩
      refine ⟨fun hf => hfinish hf.2, ?_, h.1, rfl, hpath.mem_nodeIds ha⟩
      rcases hpath.split_first p with hp | ⟨⟨r, hr, hstep⟩, -⟩
      · rcases hp.eq_or_not_mem with hp | hp
        · exact absurd hp h.1
        · exact absurd (Set.mem_insert p ∅) hp
      · exact ⟨r, mem_reached_stop_at.2 ⟨ha, by simpa using hr⟩, hstep.1⟩

theorem mem_postDominators : p ∈ g.postDominators a ↔ g.postDominates a p = true := by
  simp only [postDominators]
  split
  · rw [NodeSet.mem_ofList, List.mem_filter, and_iff_right_iff_imp]
    intro h
    obtain ⟨-, -, ha, hpath, -⟩ := postDominates_iff.1 h
    exact hpath.mem_nodeIds ha
  · next hc =>
    rw [contains_iff] at hc
    simp only [NodeSet.not_mem_empty, false_iff, postDominates_iff]
    exact fun h => hc h.2.2.1

theorem path_avoiding (h : g.Path ∅ a g.finish) (ha : a ∈ g.nodeIds) (hne : p ≠ a)
    (hf : p ≠ g.finish) (hp : ¬ g.postDominates a p = true) : g.Path {p} a g.finish := by
  rcases h.split_first p with h | ⟨⟨r, hr, hstep⟩, -⟩
  · simpa using h
  · have hpath : g.Path ∅ a p := (hr.mono (by simp)).tail ⟨hstep, by simp⟩
    by_contra havoid
    exact hp (postDominates_iff.2 ⟨hne, hf, ha, hpath, havoid⟩)

theorem path_to_finish (h : g.Path ∅ a g.finish) (hp : g.postDominates a p = true) :
    g.Path ∅ p g.finish := by
  obtain ⟨-, -, -, -, havoid⟩ := postDominates_iff.1 hp
  rcases h.split_first p with h | ⟨-, h⟩
  · exact absurd (by simpa using h) havoid
  · exact h

theorem postDominates_trans (hp : g.postDominates a p = true) (hq : g.postDominates p q = true)
    (hne : q ≠ a) : g.postDominates a q = true := by
  obtain ⟨-, -, ha, hap, hp⟩ := postDominates_iff.1 hp
  obtain ⟨-, hf, -, hpq, hq⟩ := postDominates_iff.1 hq
  refine postDominates_iff.2 ⟨hne, hf, ha, hap.trans hpq, fun h => ?_⟩
  -- a path that avoids `q` meets `p`, and from there it cannot avoid `q`
  rcases h.split_first p with h | ⟨-, h⟩
  · exact hp (h.mono (by simp))
  · exact hq h

theorem postDominates_asymm (h : g.Path ∅ p g.finish) (hq : g.postDominates p q = true) :
    ¬ g.postDominates q p = true := by
  intro hp
  obtain ⟨-, -, -, -, hq⟩ := postDominates_iff.1 hq
  obtain ⟨-, -, -, -, hp⟩ := postDominates_iff.1 hp
  -- behind the last visit to `p` and then the last visit to `q` neither is met again
  have hlast : g.Path {p} p g.finish := by
    rcases h.split_last p with h | ⟨-, h⟩ <;> simpa using h
  rcases hlast.split_last q with h | ⟨-, h⟩
  · exact hq (h.mono (by simp))
  · exact hp (h.mono (by simp))

theorem postDominates_total (h : g.Path ∅ a g.finish) (hp : g.postDominates a p = true)
    (hq : g.postDominates a q = true) (hne : p ≠ q) :
    g.postDominates p q = true ∨ g.postDominates q p = true := by
  by_contra hnot
  rw [not_or] at hnot
  obtain ⟨-, hpf, ha, hap, hp'⟩ := postDominates_iff.1 hp
  obtain ⟨-, hqf, -, haq, hq'⟩ := postDominates_iff.1 hq
  have hpq := path_avoiding (path_to_finish h hp) (hap.mem_nodeIds ha) hne.symm hqf hnot.1
  have hqp := path_avoiding (path_to_finish h hq) (haq.mem_nodeIds ha) hne hpf hnot.2
  -- whichever of the two is met first, the finish is reached without the other
  rcases h.split_first p with h | ⟨⟨r, hr, hrp⟩, -⟩
  · exact hp' (by simpa using h)
  · rcases hr.split_first q with hr | ⟨⟨r', hr', hrq⟩, -⟩
    · have hap : g.Path {q} a p := (hr.mono (by simp)).tail ⟨hrp, by simpa using hne⟩
      exact hq' (hap.trans hpq)
    · have haq : g.Path {p} a q := (hr'.mono (by simp)).tail ⟨hrq, by simpa using hne.symm⟩
      exact hp' (haq.trans hqp)

theorem nearest?_eq_some {dominates : NodeId → NodeId → Bool} {doms : NodeSet}
    (h : g.nearest? dominates doms = some p) :
    p ∈ doms ∧ ∀ q ∈ doms, q ≠ p → dominates p q = true := by
  have hmem := List.mem_of_find?_eq_some h
  have hall := List.find?_some h
  rw [List.mem_filter, decide_eq_true_eq] at hmem
  rw [List.all_eq_true] at hall
  refine ⟨hmem.2, fun q hq hne => ?_⟩
  have := hall q hq
  rw [Bool.or_eq_true, decide_eq_true_eq] at this
  exact this.resolve_left hne

theorem isSome_nearest? {dominates : NodeId → NodeId → Bool} {doms : NodeSet}
    (hp : p ∈ doms) (hin : p ∈ g.nodeIds) (h : ∀ q ∈ doms, q = p ∨ dominates p q = true) :
    (g.nearest? dominates doms).isSome = true := by
  rw [nearest?, List.find?_isSome]
  refine ⟨p, List.mem_filter.2 ⟨hin, by simpa using hp⟩, ?_⟩
  rw [List.all_eq_true]
  intro q hq
  simpa using h q hq

/-- Among some post-dominators of a node there is one that all others of them post-dominate. -/
theorem exists_nearest (h : g.Path ∅ a g.finish) {doms : List NodeId}
    (hdoms : ∀ p ∈ doms, g.postDominates a p = true) (hne : doms ≠ []) :
    ∃ p ∈ doms, ∀ q ∈ doms, q = p ∨ g.postDominates p q = true := by
  induction doms with
  | nil => exact absurd rfl hne
  | cons x rest ih =>
    obtain ⟨hx, hrest⟩ := List.forall_mem_cons.1 hdoms
    by_cases hnil : rest = []
    · subst hnil
      exact ⟨x, by simp, by simp⟩
    · obtain ⟨p, hp, hall⟩ := ih hrest hnil
      by_cases hxp : x = p
      · subst hxp
        exact ⟨x, by simp, List.forall_mem_cons.2 ⟨.inl rfl, hall⟩⟩
      rcases postDominates_total h hx (hrest p hp) hxp with hd | hd
      · refine ⟨x, by simp, List.forall_mem_cons.2 ⟨.inl rfl, fun q hq => ?_⟩⟩
        by_cases hqx : q = x
        · exact .inl hqx
        · rcases hall q hq with rfl | hpq
          · exact .inr hd
          · exact .inr (postDominates_trans hd hpq hqx)
      · exact ⟨p, List.mem_cons_of_mem _ hp, List.forall_mem_cons.2 ⟨.inr hd, hall⟩⟩

theorem immediatePostDominator?_isSome_iff (h : g.Path ∅ a g.finish) :
    (g.immediatePostDominator? a).isSome = true ↔ ∃ p, p ∈ g.postDominators a := by
  constructor
  · intro hs
    obtain ⟨p, hp⟩ := Option.isSome_iff_exists.1 hs
    exact ⟨p, (nearest?_eq_some hp).1⟩
  · rintro ⟨p, hp⟩
    obtain ⟨n, hn, hall⟩ := exists_nearest h (fun p hp => mem_postDominators.1 hp)
      (List.ne_nil_of_mem hp)
    obtain ⟨-, -, ha, hpath, -⟩ := postDominates_iff.1 (mem_postDominators.1 hn)
    exact isSome_nearest? hn (hpath.mem_nodeIds ha) hall

/-- The head of the chain is what all other post-dominators post-dominate. -/
theorem immediatePostDominator?_eq_some_iff (h : g.Path ∅ a g.finish) :
    g.immediatePostDominator? a = some p ↔
      g.postDominates a p = true ∧
        ∀ q, g.postDominates a q = true → q ≠ p → g.postDominates p q = true := by
  have hhead : ∀ {p}, g.immediatePostDominator? a = some p → g.postDominates a p = true ∧
      ∀ q, g.postDominates a q = true → q ≠ p → g.postDominates p q = true := by
    intro p hp
    obtain ⟨hmem, hall⟩ := nearest?_eq_some hp
    exact ⟨mem_postDominators.1 hmem, fun q hq => hall q (mem_postDominators.2 hq)⟩
  refine ⟨hhead, fun ⟨hp, hall⟩ => ?_⟩
  have hs := (immediatePostDominator?_isSome_iff h).2 ⟨p, mem_postDominators.2 hp⟩
  obtain ⟨p', hp'⟩ := Option.isSome_iff_exists.1 hs
  rw [hp', Option.some_inj]
  by_contra hne
  obtain ⟨hpd, hall'⟩ := hhead hp'
  exact postDominates_asymm (path_to_finish h hp) (hall p' hpd hne) (hall' p hp (Ne.symm hne))

theorem postDominators_eq_insert (h : g.Path ∅ a g.finish)
    (hp : g.immediatePostDominator? a = some p) :
    g.postDominators a = (g.postDominators p).insert p := by
  obtain ⟨hpd, hall⟩ := (immediatePostDominator?_eq_some_iff h).1 hp
  refine NodeSet.ext fun q => ?_
  rw [NodeSet.mem_insert, mem_postDominators, mem_postDominators]
  constructor
  · intro hq
    by_cases hne : q = p
    · exact .inl hne
    · exact .inr (hall q hq hne)
  · rintro (rfl | hq)
    · exact hpd
    · refine postDominates_trans hpd hq ?_
      rintro rfl
      exact postDominates_asymm (path_to_finish h hpd) hq hpd

theorem postDominates_self : g.postDominates a a = false := by
  simp [postDominates]

def loopWithBranch : FlowGraph where
  qualifiedName := "A.f"
  start := 1
  finish := 6
  graph :=
    { nodes := [1, 2, 3, 4, 5, 6].map fun id => { id, data := .dummy, link := ⟨id.val⟩ }
      edges := [(1, 2), (2, 3), (2, 4), (3, 5), (4, 5), (5, 2), (5, 6)].map fun (source, target) =>
        { source, target, kind := .fallThrough } }

/-- Where the finish can be reached, the post-dominators form a chain: of two of them exactly one
post-dominates the other. The immediate one exists if there is any, it is the only one that all
others post-dominate, and behind it come its own post-dominators. -/
theorem postDominators_form_a_chain {g : FlowGraph} {anchor : NodeId}
    (h : g.finish ∈ g.forwardReachable anchor true fun _ => false) :
    (∀ p ∈ g.postDominators anchor, ∀ q ∈ g.postDominators anchor, p ≠ q →
      g.postDominates p q = !g.postDominates q p) ∧
    ((g.immediatePostDominator? anchor).isSome = true ↔ ∃ p, p ∈ g.postDominators anchor) ∧
    ∀ p, g.immediatePostDominator? anchor = some p →
      (∀ r, r = p ↔ r ∈ g.postDominators anchor ∧
        ∀ q ∈ g.postDominators anchor, q ≠ r → g.postDominates r q = true) ∧
      g.postDominators anchor = (g.postDominators p).insert p ∧ ¬ p ∈ g.postDominators p := by
  have hpath : g.Path ∅ anchor g.finish := (mem_reached_free.1 h).2
  refine ⟨fun p hp q hq hne => ?_, immediatePostDominator?_isSome_iff hpath, fun p hp => ?_⟩
  · rw [mem_postDominators] at hp hq
    rcases postDominates_total hpath hp hq hne with hpq | hqp
    · have := postDominates_asymm (path_to_finish hpath hp) hpq
      simp [hpq, this]
    · have := postDominates_asymm (path_to_finish hpath hq) hqp
      simp [hqp, this]
  · refine ⟨fun r => ?_, postDominators_eq_insert hpath hp, ?_⟩
    · simp only [mem_postDominators]
      rw [← immediatePostDominator?_eq_some_iff hpath, hp, Option.some_inj, eq_comm]
    · rw [mem_postDominators, postDominates_self]
      exact Bool.false_ne_true

theorem postDominators_form_a_chain_in_loop :
    loopWithBranch.finish ∈ loopWithBranch.forwardReachable 1 true (fun _ => false) ∧
      loopWithBranch.immediatePostDominator? 1 = some 2 ∧
      loopWithBranch.postDominates 2 5 = !loopWithBranch.postDominates 5 2 ∧
      loopWithBranch.postDominators 1 = (loopWithBranch.postDominators 2).insert 2 := by
  have h : loopWithBranch.finish ∈ loopWithBranch.forwardReachable 1 true (fun _ => false) := by
    decide +kernel
  have himmediate : loopWithBranch.immediatePostDominator? 1 = some 2 := by decide +kernel
  obtain ⟨hchain, -, hhead⟩ := postDominators_form_a_chain h
  refine ⟨h, himmediate, hchain 2 ?_ 5 ?_ ?_, (hhead 2 himmediate).2.1⟩
  · decide +kernel
  · decide +kernel
  · decide

end ProgramFlow.FlowGraph
