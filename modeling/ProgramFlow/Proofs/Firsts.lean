import Mathlib.Data.Finset.Card

/-! The first elements of a list, one for each key. That is what is left of a list when its elements
are added one after the other and an element whose key is there already is refused. For a list of
keys, the latest first, they are the keys in the order in which they were last used. -/
namespace ProgramFlow

section Firsts

variable {α κ : Type} [DecidableEq κ]

/-- The elements before which no other has the same key, in order. -/
def firsts (key : α → κ) : List α → List α
  | [] => []
  | x :: rest => x :: (firsts key rest).filter fun y => key y ≠ key x

theorem firsts_sublist (key : α → κ) (l : List α) : (firsts key l).Sublist l := by
  induction l with
  | nil => exact List.Sublist.slnil
  | cons x rest ih => exact (List.filter_sublist.trans ih).cons_cons x

theorem mem_map_firsts (key : α → κ) {l : List α} {k : κ} :
    k ∈ (firsts key l).map key ↔ k ∈ l.map key := by
  induction l with
  | nil => exact Iff.rfl
  | cons x rest ih =>
    by_cases hk : k = key x
    · simp [firsts, hk]
    · have hfilter : k ∈ ((firsts key rest).filter fun y => key y ≠ key x).map key ↔
          k ∈ (firsts key rest).map key := by
        simp only [List.mem_map, List.mem_filter, decide_eq_true_eq]
        constructor
        · rintro ⟨y, ⟨hy, -⟩, rfl⟩
          exact ⟨y, hy, rfl⟩
        · rintro ⟨y, hy, rfl⟩
          exact ⟨y, ⟨hy, hk⟩, rfl⟩
      rw [firsts, List.map_cons, List.mem_cons, hfilter, ih, List.map_cons, List.mem_cons]

theorem nodup_map_firsts (key : α → κ) (l : List α) : ((firsts key l).map key).Nodup := by
  induction l with
  | nil => exact List.nodup_nil
  | cons x rest ih =>
    rw [firsts, List.map_cons, List.nodup_cons]
    constructor
    · intro hmem
      obtain ⟨y, hy, hkey⟩ := List.mem_map.1 hmem
      simp [hkey] at hy
    · exact ih.sublist (List.filter_sublist.map key)

theorem firsts_eq_self {key : α → κ} {l : List α} (h : (l.map key).Nodup) : firsts key l = l := by
  induction l with
  | nil => rfl
  | cons x rest ih =>
    obtain ⟨hx, hrest⟩ := List.nodup_cons.1 h
    rw [firsts, ih hrest, List.filter_eq_self.2]
    intro y hy
    rw [decide_eq_true_eq]
    exact fun hkey => hx (hkey ▸ List.mem_map_of_mem hy)

def addNew (key : α → κ) (kept : List α) (x : α) : List α :=
  if key x ∈ kept.map key then kept else kept ++ [x]

theorem mem_addNew {key : α → κ} (hkey : Function.Injective key) {kept : List α} {x y : α} :
    y ∈ addNew key kept x ↔ y ∈ kept ∨ y = x := by
  unfold addNew
  split
  · next hx =>
    rw [List.mem_map_of_injective hkey] at hx
    constructor
    · exact .inl
    · rintro (hy | rfl)
      · exact hy
      · exact hx
  · rw [List.mem_append, List.mem_singleton]

theorem foldl_addNew (key : α → κ) (l kept : List α) :
    l.foldl (addNew key) kept = kept ++ (firsts key l).filter fun x => key x ∉ kept.map key := by
  induction l generalizing kept with
  | nil => simp [firsts]
  | cons x rest ih =>
    rw [List.foldl_cons, ih, firsts, addNew]
    by_cases hx : key x ∈ kept.map key
    · -- what has the key of `x` is refused in any case
      rw [if_pos hx, List.filter_cons_of_neg (by simpa using hx), List.filter_filter]
      congr 1
      apply List.filter_congr
      intro y _
      by_cases hy : key y = key x
      · simp [hy, hx]
      · simp [hy]
    · rw [if_neg hx, List.filter_cons_of_pos (by simpa using hx), List.append_assoc,
        List.singleton_append, List.filter_filter]
      congr 2
      apply List.filter_congr
      intro y _
      rw [Bool.eq_iff_iff, Bool.and_eq_true, decide_eq_true_eq, decide_eq_true_eq, decide_eq_true_eq,
        List.map_append, List.mem_append, not_or, List.map_singleton, List.mem_singleton]

theorem foldl_addNew_nil (key : α → κ) (l : List α) : l.foldl (addNew key) [] = firsts key l := by
  rw [foldl_addNew, List.nil_append, List.filter_eq_self]
  simp

/-- Those that come again are refused anyway. -/
theorem foldl_addNew_firsts (key : α → κ) (l kept : List α) :
    (firsts key l).foldl (addNew key) kept = l.foldl (addNew key) kept := by
  rw [foldl_addNew, foldl_addNew, firsts_eq_self (nodup_map_firsts key l)]

theorem foldl_addNew_of_known {key : α → κ} {l kept : List α}
    (h : ∀ x ∈ l, key x ∈ kept.map key) : l.foldl (addNew key) kept = kept := by
  induction l with
  | nil => rfl
  | cons x rest ih =>
    obtain ⟨hx, hrest⟩ := List.forall_mem_cons.1 h
    rw [List.foldl_cons, addNew, if_pos hx]
    exact ih hrest

theorem foldl_addNew_again (key : α → κ) (l kept : List α) :
    l.foldl (addNew key) (l.foldl (addNew key) kept) = l.foldl (addNew key) kept := by
  apply foldl_addNew_of_known
  intro x hx
  rw [foldl_addNew, List.map_append, List.mem_append]
  by_cases hknown : key x ∈ kept.map key
  · exact .inl hknown
  · right
    obtain ⟨y, hy, hkey⟩ := List.mem_map.1 ((mem_map_firsts key).2 (List.mem_map_of_mem hx))
    refine List.mem_map.2 ⟨y, List.mem_filter.2 ⟨hy, ?_⟩, hkey⟩
    rw [decide_eq_true_eq, hkey]
    exact hknown

/-- Of elements with distinct keys those are added whose key is not known. -/
theorem foldl_addNew_of_nodup {key : α → κ} {l kept : List α} (h : (l.map key).Nodup)
    {known : α → Bool} (hknown : ∀ x, known x = true ↔ key x ∈ kept.map key) :
    l.foldl (addNew key) kept = kept ++ l.filter fun x => !known x := by
  rw [foldl_addNew, firsts_eq_self h]
  congr 1
  apply List.filter_congr
  intro x _
  rw [Bool.eq_iff_iff, decide_eq_true_eq, Bool.not_eq_true', ← hknown, Bool.not_eq_true]

end Firsts

section Recency

variable {κ : Type} [DecidableEq κ]

def recent (asked : List κ) : List κ := firsts id asked

theorem recent_cons (key : κ) (asked : List κ) :
    recent (key :: asked) = key :: (recent asked).filter (· ≠ key) := rfl

theorem mem_recent {key : κ} {asked : List κ} : key ∈ recent asked ↔ key ∈ asked := by
  have hmem : key ∈ (recent asked).map id ↔ key ∈ asked.map id := mem_map_firsts id
  rwa [List.map_id, List.map_id] at hmem

theorem nodup_recent (asked : List κ) : (recent asked).Nodup := by
  have hnodup : ((recent asked).map id).Nodup := nodup_map_firsts id asked
  rwa [List.map_id] at hnodup

theorem length_recent (asked : List κ) : (recent asked).length = asked.toFinset.card := by
  rw [← List.toFinset_card_of_nodup (nodup_recent asked)]
  congr 1
  ext key
  rw [List.mem_toFinset, List.mem_toFinset, mem_recent]

/-- What comes before a key are the keys asked for after it. -/
theorem recent_append_cons {key : κ} {between : List κ} (h : key ∉ between) (before : List κ) :
    ∃ older, recent (between ++ key :: before) = recent between ++ key :: older := by
  induction between with
  | nil => exact ⟨_, rfl⟩
  | cons k rest ih =>
    rw [List.mem_cons, not_or] at h
    obtain ⟨older, hrest⟩ := ih h.2
    refine ⟨older.filter (· ≠ k), ?_⟩
    rw [List.cons_append, recent_cons, hrest, List.filter_append, List.filter_cons_of_pos (by simp [h.1])]
    rfl

/-- The key has been asked for, and fewer than `n` others since. -/
def RecentlyAsked (n : Nat) (key : κ) (asked : List κ) : Prop :=
  ∃ between before, asked = between ++ key :: before ∧ (between.toFinset.erase key).card < n

theorem mem_take_recent {n : Nat} {key : κ} {asked : List κ} :
    key ∈ (recent asked).take n ↔ RecentlyAsked n key asked := by
  -- both are told by the last time the key was asked for
  have hlast : ∀ between before, key ∉ between →
      (key ∈ (recent (between ++ key :: before)).take n ↔ between.toFinset.card < n) := by
    intro between before hnot
    obtain ⟨older, hrecent⟩ := recent_append_cons hnot before
    rw [hrecent, ← length_recent]
    constructor
    · intro hmem
      by_contra hle
      rw [List.take_append_of_le_length (Nat.le_of_not_lt hle)] at hmem
      exact hnot (mem_recent.1 (List.mem_of_mem_take hmem))
    · intro hlt
      obtain ⟨k, rfl⟩ : ∃ k, n = (recent between).length + (k + 1) :=
        ⟨n - (recent between).length - 1, by omega⟩
      rw [List.take_length_add_append, List.take_succ_cons]
      exact List.mem_append_right _ List.mem_cons_self
  constructor
  · intro hmem
    obtain ⟨between, before, rfl, hnot⟩ :=
      List.eq_append_cons_of_mem (mem_recent.1 (List.mem_of_mem_take hmem))
    refine ⟨between, before, rfl, ?_⟩
    exact Nat.lt_of_le_of_lt (Finset.card_erase_le) ((hlast between before hnot).1 hmem)
  · rintro ⟨between, before, rfl, hlt⟩
    by_cases hin : key ∈ between
    · obtain ⟨later, earlier, rfl, hnot⟩ := List.eq_append_cons_of_mem hin
      rw [List.append_assoc, List.cons_append]
      refine (hlast later _ hnot).2 (Nat.lt_of_le_of_lt (Finset.card_le_card ?_) hlt)
      intro k hk
      rw [List.mem_toFinset] at hk
      rw [Finset.mem_erase, List.mem_toFinset]
      exact ⟨fun h => hnot (h ▸ hk), List.mem_append_left _ hk⟩
    · rw [Finset.erase_eq_of_notMem (by simpa using hin)] at hlt
      exact (hlast between before hin).2 hlt

/-- To forget what there is no room for early makes no difference. -/
theorem take_cons_filter_take {key : κ} {l : List κ} (h : l.Nodup) (n : Nat) :
    (key :: (l.take n).filter (· ≠ key)).take n = (key :: l.filter (· ≠ key)).take n := by
  have hsplit : l.filter (· ≠ key) = (l.take n).filter (· ≠ key) ++ (l.drop n).filter (· ≠ key) := by
    rw [← List.filter_append, List.take_append_drop]
  by_cases hn : l.length ≤ n
  · rw [List.take_of_length_le hn]
  · have hlength : n ≤ (key :: (l.take n).filter (· ≠ key)).length := by
      -- at most one of the first `n` is the key
      have herase : (l.take n).erase key = (l.take n).filter (· ≠ key) := by
        rw [(h.sublist (List.take_sublist n l)).erase_eq_filter]
        exact List.filter_congr fun k _ => by rw [decide_not]; rfl
      have hle := List.le_length_erase (l := l.take n) (a := key)
      rw [herase, List.length_take] at hle
      rw [List.length_cons]
      omega
    rw [hsplit, ← List.cons_append, List.take_append_of_le_length hlength]

end Recency

end ProgramFlow
