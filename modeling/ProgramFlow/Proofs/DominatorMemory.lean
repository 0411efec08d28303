import ProgramFlow.FlowGraph.DominatorCache
import ProgramFlow.Proofs.Firsts
import ProgramFlow.Proofs.Memoization

/-! The memory of post-dominator sets does not show in the answers. What it holds is determined by
what has been asked for: the keys are the distinct keys asked for, the latest first, as far as there
is room. A set that is held is that of the graph the store has under the name, since the store never
gives a name to another graph. -/
namespace ProgramFlow

namespace RecentlyUsed

variable {κ α : Type} [DecidableEq κ] {r : RecentlyUsed κ α} {asked : List κ}
  {valid : κ → α → Prop} {key : κ} {value : α}

structure Follows (r : RecentlyUsed κ α) (asked : List κ) (valid : κ → α → Prop) : Prop where
  keys : r.entries.map Prod.fst = (recent asked).take r.capacity
  values : ∀ entry ∈ r.entries, valid entry.1 entry.2

theorem follows_nil (h : r.entries = []) : r.Follows [] valid := by
  constructor
  · rw [h, List.map_nil]
    exact List.take_nil.symm
  · simp [h]

theorem Follows.mono {valid' : κ → α → Prop} (h : r.Follows asked valid)
    (hv : ∀ key value, valid key value → valid' key value) : r.Follows asked valid' :=
  ⟨h.keys, fun entry hentry => hv _ _ (h.values entry hentry)⟩

theorem Follows.isSome_get? (h : r.Follows asked valid) :
    (r.get? key).isSome = true ↔ RecentlyAsked r.capacity key asked := by
  rw [← mem_take_recent, ← h.keys, RecentlyUsed.get?, Option.isSome_map, List.lookup_isSome_iff,
    List.mem_map]
  simp only [beq_iff_eq]
  exact exists_congr fun _ => and_congr_right fun _ => eq_comm

theorem Follows.keys_cons (h : r.Follows asked valid) (key : κ) (value : α) :
    (((key, value) :: r.entries.filter fun entry => entry.1 ≠ key).take r.capacity).map Prod.fst =
      (recent (key :: asked)).take r.capacity := by
  have hfilter : (r.entries.filter fun entry => entry.1 ≠ key).map Prod.fst =
      ((recent asked).take r.capacity).filter (· ≠ key) := by
    rw [← h.keys, List.filter_map]
    rfl
  rw [List.map_take, List.map_cons, hfilter, take_cons_filter_take (nodup_recent asked)]
  rfl

theorem Follows.values_cons (h : r.Follows asked valid) (hvalue : valid key value) :
    ∀ entry ∈ (key, value) :: r.entries.filter fun entry => entry.1 ≠ key,
      valid entry.1 entry.2 := by
  intro entry hentry
  rcases List.mem_cons.1 hentry with rfl | hentry
  · exact hvalue
  · exact h.values entry (List.mem_filter.1 hentry).1

theorem Follows.put (h : r.Follows asked valid) (hvalue : valid key value) :
    (r.put key value).Follows (key :: asked) valid :=
  ⟨h.keys_cons key value, fun entry hentry =>
    h.values_cons hvalue entry (List.mem_of_mem_take hentry)⟩

theorem Follows.get? (h : r.Follows asked valid) {r' : RecentlyUsed κ α}
    (hget : r.get? key = some (value, r')) :
    valid key value ∧ r'.capacity = r.capacity ∧ r'.Follows (key :: asked) valid := by
  obtain ⟨v, hlookup, hr⟩ := Option.map_eq_some_iff.1 hget
  obtain ⟨rfl, rfl⟩ := Prod.mk.inj hr
  have hmem : (key, v) ∈ r.entries := by
    obtain ⟨l₁, l₂, hl, -⟩ := List.lookup_eq_some_iff.1 hlookup
    rw [hl]
    exact List.mem_append_right _ List.mem_cons_self
  have hvalue := h.values _ hmem
  refine ⟨hvalue, rfl, ?_, h.values_cons hvalue⟩
  -- the key was there, so there is still room for all
  rw [← h.keys_cons key v, List.take_of_length_le]
  have hshort : r.entries.length ≤ r.capacity := by
    rw [← List.length_map Prod.fst, h.keys]
    exact List.length_take_le ..
  have hless : (r.entries.filter fun entry => entry.1 ≠ key).length < r.entries.length :=
    List.length_filter_lt_length_iff_exists.2 ⟨(key, v), hmem, by simp⟩
  rw [List.length_cons]
  omega

end RecentlyUsed

namespace DominatorCache

/-- What has been asked for since the memory was last cleared, the latest first, in a run of
requests to a store and of questions about the graphs it holds. -/
inductive Questions (store : StoreConfig) (config : ReachabilityConfig) :
    List (String × NodeId) → Store → DominatorCache → Prop where
  | start : Questions store config [] { config := store } (.ofConfig config)
  | act {asked s c action} : Questions store config asked s c → action.Keeps →
      Questions store config asked (s.act action).1 c
  | ask {asked s c name held} (anchor : NodeId) : Questions store config asked s c →
      s.find? name = some held →
      Questions store config ((name, anchor) :: asked) s (c.postDominators held.flow anchor).2
  | clear {asked s c} : Questions store config asked s c → Questions store config [] s c.clear

def Holds (s : Store) (key : String × NodeId) (set : NodeSet) : Prop :=
  ∃ held, s.find? key.1 = some held ∧ set = held.flow.postDominators key.2

structure Remembers (config : ReachabilityConfig) (asked : List (String × NodeId)) (s : Store)
    (c : DominatorCache) : Prop where
  enabled : c.memo.isSome = config.memoizePostDominators
  memo : ∀ r, c.memo = some r → r.capacity = max config.postDominatorCacheCapacity 1 ∧
    r.Follows asked (Holds s)
  total : c.hits + c.misses = asked.length

variable {config : ReachabilityConfig} {asked : List (String × NodeId)} {s : Store}
  {c : DominatorCache}

structure Answers (config : ReachabilityConfig) (asked : List (String × NodeId))
    (c : DominatorCache) (g : FlowGraph) (key : String × NodeId)
    (reply : NodeSet × DominatorCache) : Prop where
  answer : reply.1 = g.postDominators key.2
  counted : reply.2.hits = c.hits + 1 ∧ reply.2.misses = c.misses ∨
    reply.2.hits = c.hits ∧ reply.2.misses = c.misses + 1
  hit : reply.2.hits = c.hits + 1 ↔ config.memoizePostDominators = true ∧
    RecentlyAsked (max config.postDominatorCacheCapacity 1) key asked

theorem Remembers.start (store : StoreConfig) (config : ReachabilityConfig) :
    Remembers config [] { config := store } (.ofConfig config) := by
  constructor
  · cases h : config.memoizePostDominators <;> simp [ofConfig, h]
  · intro r hr
    simp only [ofConfig, Option.ite_none_right_eq_some] at hr
    obtain ⟨-, hr⟩ := hr
    obtain rfl := Option.some.inj hr
    exact ⟨rfl, RecentlyUsed.follows_nil rfl⟩
  · rfl

theorem Remembers.clear (h : Remembers config asked s c) : Remembers config [] s c.clear := by
  constructor
  · rw [DominatorCache.clear, Option.isSome_map]
    exact h.enabled
  · intro r hr
    obtain ⟨r₀, hr₀, rfl⟩ := Option.map_eq_some_iff.1 hr
    exact ⟨(h.memo r₀ hr₀).1, RecentlyUsed.follows_nil rfl⟩
  · rfl

/-- The store gives no name to another graph. -/
theorem Remembers.act (h : Remembers config asked s c) {action : Action}
    (ha : action.Keeps) : Remembers config asked (s.act action).1 c := by
  have hrun : Store.KeepingRun s ([] ++ (s.act action).2) (s.act action).1 :=
    (Store.Execution.nil s).snoc ha
  refine ⟨h.enabled, fun r hr => ⟨(h.memo r hr).1, (h.memo r hr).2.mono ?_⟩, h.total⟩
  rintro key set ⟨held, hheld, hset⟩
  exact ⟨held, hrun.keeps_held hheld, hset⟩

section

variable {g : FlowGraph} {anchor : NodeId} {r : RecentlyUsed (String × NodeId) NodeSet}

theorem postDominators_of_disabled (hmemo : c.memo = none) :
    c.postDominators g anchor = (g.postDominators anchor, { c with misses := c.misses + 1 }) := by
  simp only [postDominators, hmemo]

theorem postDominators_of_held {set : NodeSet} {r' : RecentlyUsed (String × NodeId) NodeSet}
    (hmemo : c.memo = some r) (hget : r.get? (g.qualifiedName, anchor) = some (set, r')) :
    c.postDominators g anchor = (set, { c with memo := some r', hits := c.hits + 1 }) := by
  simp only [postDominators, hmemo, hget]

theorem postDominators_of_missing (hmemo : c.memo = some r)
    (hget : r.get? (g.qualifiedName, anchor) = none) :
    c.postDominators g anchor = (g.postDominators anchor,
      { c with
        memo := some (r.put (g.qualifiedName, anchor) (g.postDominators anchor))
        misses := c.misses + 1 }) := by
  simp only [postDominators, hmemo, hget]

end

/-- One question: the answer is right, the count tells whether it was remembered, and it is
remembered from now on. -/
theorem Remembers.ask (h : Remembers config asked s c) {held : SharedCfg}
    (hheld : s.find? held.flow.qualifiedName = some held) (anchor : NodeId) :
    let key := (held.flow.qualifiedName, anchor)
    let reply := c.postDominators held.flow anchor
    Answers config asked c held.flow key reply ∧ Remembers config (key :: asked) s reply.2 := by
  intro key reply
  have htotal := h.total
  have henabled := h.enabled
  have hholds : Holds s key (held.flow.postDominators anchor) := ⟨held, hheld, rfl⟩
  cases hmemo : c.memo with
  | none =>
    have hreply : reply = _ := postDominators_of_disabled hmemo
    rw [hmemo] at henabled
    rw [hreply]
    refine ⟨⟨rfl, .inr ⟨rfl, rfl⟩, ?_⟩, ⟨?_, ?_, ?_⟩⟩
    · simp [← henabled]
    · simp [hmemo, ← henabled]
    · simp [hmemo]
    · simp only [List.length_cons]
      omega
  | some r =>
    obtain ⟨hcapacity, hfollows⟩ := h.memo r hmemo
    have hrecent : (r.get? key).isSome = true ↔ RecentlyAsked r.capacity key asked :=
      hfollows.isSome_get?
    rw [hmemo] at henabled
    rw [hcapacity] at hrecent
    cases hget : r.get? key with
    | none =>
      have hreply : reply = _ := postDominators_of_missing hmemo hget
      rw [hget] at hrecent
      rw [hreply]
      refine ⟨⟨rfl, .inr ⟨rfl, rfl⟩, ?_⟩, ⟨henabled, ?_, ?_⟩⟩
      · simp [← hrecent]
      · rintro r' ⟨⟩
        exact ⟨hcapacity, hfollows.put hholds⟩
      · simp only [List.length_cons]
        omega
    | some found =>
      obtain ⟨set, r'⟩ := found
      obtain ⟨⟨held', hheld', hset⟩, hcapacity', hfollows'⟩ := hfollows.get? hget
      have hreply : reply = _ := postDominators_of_held hmemo hget
      rw [hget] at hrecent
      rw [hreply]
      refine ⟨⟨?_, .inl ⟨rfl, rfl⟩, ?_⟩, ⟨henabled, ?_, ?_⟩⟩
      · -- the set was put in for the graph that the store held, and it holds no other
        obtain rfl : held = held' := Option.some.inj (hheld.symm.trans hheld')
        exact hset
      · simp [← hrecent, ← henabled]
      · rintro r'' ⟨⟩
        exact ⟨hcapacity'.trans hcapacity, hfollows'⟩
      · simp only [List.length_cons]
        omega

theorem Questions.remembers {store : StoreConfig} (h : Questions store config asked s c) :
    s.Consistent ∧ Remembers config asked s c := by
  induction h with
  | start => exact ⟨Store.initial_consistent store, .start store config⟩
  | act _ ha ih => exact ⟨Store.act_consistent ih.1 _, ih.2.act ha⟩
  | @ask asked s c name held anchor _ hheld ih =>
    obtain rfl : held.flow.qualifiedName = name := ih.1.keyed name held hheld
    exact ⟨ih.1, (ih.2.ask hheld anchor).2⟩
  | clear _ ih => exact ⟨ih.1, ih.2.clear⟩

/-- Whatever is requested of the store in between, a question about a graph that it holds is answered
as by the graph itself. Each question since the memory was cleared has been counted once, and it is
counted as a hit exactly if the memory is on and has had room for all that was asked for since the
same question. -/
theorem dominator_memory_is_transparent {store : StoreConfig}
    (h : Questions store config asked s c) :
    c.hits + c.misses = asked.length ∧
    ∀ name held anchor, s.find? name = some held →
      Answers config asked c held.flow (name, anchor) (c.postDominators held.flow anchor) := by
  obtain ⟨hconsistent, hremembers⟩ := h.remembers
  refine ⟨hremembers.total, ?_⟩
  intro name held anchor hheld
  obtain rfl : held.flow.qualifiedName = name := hconsistent.keyed name held hheld
  exact (hremembers.ask hheld anchor).1

/-- With no capacity there is room for one set all the same: the later of two questions is
remembered and the earlier is not. -/
theorem dominator_memory_is_transparent_without_capacity :
    ∃ s c held, Questions {} ⟨true, 0⟩ [("A.f", 1), ("A.f", 0)] s c ∧
      s.find? "A.f" = some held ∧ c.hits + c.misses = 2 ∧
      (c.postDominators held.flow 1).1 = held.flow.postDominators 1 ∧
      (c.postDominators held.flow 1).2.hits = c.hits + 1 ∧
      (c.postDominators held.flow 0).1 = held.flow.postDominators 0 ∧
      (c.postDominators held.flow 0).2.misses = c.misses + 1 := by
  obtain ⟨s, hs⟩ : ∃ s, s = (Store.act { config := {} }
    (.request Store.smallFrontEnd ⟨.method, "A.f"⟩)).1 := ⟨_, rfl⟩
  have hfound : (s.find? "A.f").isSome = true := by rw [hs]; decide +kernel
  obtain ⟨held, hheld⟩ := Option.isSome_iff_exists.1 hfound
  have hact : Questions {} ⟨true, 0⟩ [] s (.ofConfig ⟨true, 0⟩) := by
    rw [hs]
    exact .act .start trivial
  have hasked := (hact.ask 0 hheld).ask 1 hheld
  obtain ⟨htotal, hanswers⟩ := dominator_memory_is_transparent hasked
  have hlater := hanswers "A.f" held 1 hheld
  have hearlier := hanswers "A.f" held 0 hheld
  have hforgotten : ¬RecentlyAsked 1 ("A.f", 0) [("A.f", (1 : NodeId)), ("A.f", 0)] := by
    rw [← mem_take_recent]
    decide
  refine ⟨s, _, held, hasked, hheld, htotal, hlater.answer, ?_, hearlier.answer, ?_⟩
  · exact hlater.hit.2 ⟨rfl, [], [("A.f", 0)], rfl, by decide⟩
  · rcases hearlier.counted with hhit | hmiss
    · exact absurd (hearlier.hit.1 hhit.1).2 hforgotten
    · exact hmiss.2

end DominatorCache

end ProgramFlow
