import Mathlib.Data.List.Nodup
import ProgramFlow.FlowGraph.Position
import ProgramFlow.Proofs.GraphAppend

/-! The nodes at a position and the order in which they are listed. Of two nested spans the inner
one touches fewer lines, or the same lines; in the latter case the columns decide, as long as the
outer span ends further right than it starts. If it does not, the columns of both count for nothing,
and the two nodes keep the order of the graph, whichever is the narrower. -/
namespace ProgramFlow

namespace Location

theorem le_iff {a b : Location} : a ≤ b ↔ a.line.toNat < b.line.toNat ∨
    a.line.toNat = b.line.toNat ∧ a.column.toNat ≤ b.column.toNat := by
  change cmp a b ≠ .gt ↔ _
  simp only [cmp, UInt32.lt_iff_toNat_lt]
  split_ifs <;> simp <;> omega

theorem lt_iff {a b : Location} : a < b ↔ a.line.toNat < b.line.toNat ∨
    a.line.toNat = b.line.toNat ∧ a.column.toNat < b.column.toNat := by
  change cmp a b = .lt ↔ _
  simp only [cmp, UInt32.lt_iff_toNat_lt]
  split_ifs <;> simp <;> omega

end Location

theorem FlowGraph.narrower_iff {a b : Nat × Nat} :
    narrower a b = true ↔ a.1 < b.1 ∨ a.1 = b.1 ∧ a.2 ≤ b.2 := by
  simp only [narrower, Bool.or_eq_true, Bool.and_eq_true, decide_eq_true_eq]

namespace Span

variable {s t : Span} {here : Location}

/-- How wide a span is when its lines can be counted: in lines, then in columns. -/
def width (s : Span) : Nat × Nat :=
  (if s.startLine ≤ s.endLine then s.endLine.toNat - s.startLine.toNat + 1 else 0, s.columnCount)

theorem breadth_eq (h : 1 ≤ s.startLine) : FlowGraph.breadth s = .ok s.width := by
  have hfirst : 1 ≤ s.startLine.toNat := UInt32.le_iff_toNat_le.1 h
  have hlast := s.endLine.toNat_lt
  unfold FlowGraph.breadth lineCount width
  split
  · have hcount : s.endLine.toNat - s.startLine.toNat + 1 < 0x100000000 := by omega
    simp only [if_pos hcount]
    rfl
  · rfl

/-- Two spans over the same lines, of which the outer one ends no further right than it starts. -/
structure Tied (inner outer : Span) : Prop where
  startLine : inner.startLine = outer.startLine
  endLine : inner.endLine = outer.endLine
  folded : outer.endCol ≤ outer.startCol

theorem start_lt_stop (h : s.containsPosition here = true) :
    s.startLine.toNat < s.endLine.toNat ∨
      s.startLine.toNat = s.endLine.toNat ∧ s.startCol.toNat < s.endCol.toNat := by
  simp only [containsPosition, Bool.and_eq_true, decide_eq_true_eq, Location.le_iff,
    Location.lt_iff, start, stop] at h
  omega

theorem contains_iff : t.contains s = true ↔
    (t.startLine.toNat < s.startLine.toNat ∨
      t.startLine.toNat = s.startLine.toNat ∧ t.startCol.toNat ≤ s.startCol.toNat) ∧
    (s.endLine.toNat < t.endLine.toNat ∨
      s.endLine.toNat = t.endLine.toNat ∧ s.endCol.toNat ≤ t.endCol.toNat) := by
  simp only [contains, Bool.and_eq_true, decide_eq_true_eq, Location.le_iff, start, stop]

theorem tied_iff : s.Tied t ↔ s.startLine.toNat = t.startLine.toNat ∧
    s.endLine.toNat = t.endLine.toNat ∧ t.endCol.toNat ≤ t.startCol.toNat := by
  rw [UInt32.toNat_inj, UInt32.toNat_inj, ← UInt32.le_iff_toNat_le]
  exact ⟨fun h => ⟨h.startLine, h.endLine, h.folded⟩, fun h => ⟨h.1, h.2.1, h.2.2⟩⟩

section Nested

variable (hs : s.containsPosition here = true) (ht : t.containsPosition here = true)
  (hin : t.contains s = true)

include hs ht hin

/-- The outer span does not pass for the narrower one, unless the two are tied. -/
theorem not_narrower_of_contains (hout : s.contains t = false) (htied : ¬ s.Tied t) :
    FlowGraph.narrower t.width s.width = false := by
  have hs := start_lt_stop hs
  have ht := start_lt_stop ht
  rw [contains_iff] at hin
  rw [Bool.eq_false_iff, ne_eq, contains_iff] at hout
  rw [tied_iff] at htied
  rw [Bool.eq_false_iff, ne_eq, FlowGraph.narrower_iff]
  simp only [width, columnCount, UInt32.le_iff_toNat_le]
  split_ifs <;> omega

theorem narrower_of_tied (htied : s.Tied t) :
    FlowGraph.narrower s.width t.width = true ∧ FlowGraph.narrower t.width s.width = true := by
  have hs := start_lt_stop hs
  have ht := start_lt_stop ht
  rw [contains_iff] at hin
  rw [tied_iff] at htied
  rw [FlowGraph.narrower_iff, FlowGraph.narrower_iff]
  simp only [width, columnCount, UInt32.le_iff_toNat_le]
  split_ifs <;> omega

end Nested

end Span

section Order

variable {α : Type} {a b : α} {l : List α}

theorem idxOf_lt_of_sublist [DecidableEq α] (hl : l.Nodup) (h : [a, b].Sublist l) :
    l.idxOf a < l.idxOf b := by
  obtain ⟨front, back, rfl, ha, hb⟩ := List.cons_sublist_iff.1 h
  have hb : b ∈ back := List.singleton_sublist.1 hb
  have hfront : b ∉ front := fun hmem => (List.nodup_append.1 hl).2.2 b hmem b hb rfl
  have hlt : front.idxOf a < front.length := List.idxOf_lt_length_of_mem ha
  rw [List.idxOf_append_of_mem ha, List.idxOf_append_of_notMem hfront]
  omega

theorem pair_sublist_or_pair_sublist (ha : a ∈ l) (hb : b ∈ l) (hne : a ≠ b) :
    [a, b].Sublist l ∨ [b, a].Sublist l := by
  obtain ⟨front, back, rfl⟩ := List.append_of_mem ha
  rcases List.mem_append.1 hb with hb | hb
  · right
    exact (List.singleton_sublist.2 hb).append (List.singleton_sublist.2 List.mem_cons_self)
  · left
    have hb : b ∈ back := (List.mem_cons.1 hb).resolve_left hne.symm
    exact ((List.singleton_sublist.2 hb).cons_cons a).trans (List.sublist_append_right ..)

end Order

namespace FlowGraph

variable {g : FlowGraph} {here : Location}

structure Covers (g : FlowGraph) (here : Location) (n : Node) (s : Span) : Prop where
  mem : n ∈ g.nodes
  span : n.span = some s
  contains : s.containsPosition here = true

theorem mem_covering {hit : NodeId × Span} :
    hit ∈ g.covering here ↔ ∃ n, g.Covers here n hit.2 ∧ n.id = hit.1 := by
  rw [covering, List.mem_filterMap]
  constructor
  · rintro ⟨n, hn, hhit⟩
    split at hhit
    · next s hs =>
      split at hhit
      · next hcontains =>
        cases hhit
        exact ⟨n, ⟨hn, hs, hcontains⟩, rfl⟩
      · cases hhit
    · cases hhit
  · rintro ⟨n, ⟨hn, hs, hcontains⟩, hid⟩
    refine ⟨n, hn, ?_⟩
    rw [hs, hid]
    exact if_pos hcontains

theorem map_covering_sublist : ((g.covering here).map Prod.fst).Sublist g.nodeIds := by
  change ((g.nodes.filterMap _).map Prod.fst).Sublist (g.nodes.map Node.id)
  induction g.nodes with
  | nil => exact .slnil
  | cons n rest ih =>
    rw [List.filterMap_cons]
    split
    · exact ih.cons n.id
    · next hit hhit =>
      have hid : hit.1 = n.id := by
        split at hhit
        · split at hhit
          · cases hhit
            rfl
          · cases hhit
        · cases hhit
      rw [List.map_cons, List.map_cons, hid]
      exact ih.cons_cons n.id

def firstBy (a b : NodeId × Span) : Bool := narrower a.2.width b.2.width

theorem firstBy_trans (a b c : NodeId × Span) (hab : firstBy a b = true)
    (hbc : firstBy b c = true) : firstBy a c = true := by
  simp only [firstBy, narrower_iff] at *
  omega

theorem firstBy_total (a b : NodeId × Span) : (firstBy a b || firstBy b a) = true := by
  simp only [firstBy, Bool.or_eq_true, narrower_iff]
  omega

def ranked (g : FlowGraph) (here : Location) : List (NodeId × Span) :=
  (g.covering here).mergeSort firstBy

theorem mapM_breadth {hits : List (NodeId × Span)} (h : ∀ hit ∈ hits, 1 ≤ hit.2.startLine) :
    (hits.mapM fun hit => do
      let width ← breadth hit.2
      return (width, hit.1)) = .ok (hits.map fun hit => (hit.2.width, hit.1)) := by
  induction hits with
  | nil => rfl
  | cons hit rest ih =>
    rw [List.mapM_cons, Span.breadth_eq (h hit List.mem_cons_self),
      ih fun hit hmem => h hit (List.mem_cons_of_mem _ hmem)]
    rfl

/-- Where all lines can be counted, the answer is what a sort gives. -/
theorem nodesAt_eq (h : ∀ hit ∈ g.covering here, 1 ≤ hit.2.startLine) :
    g.nodesAt here = .ok ((g.ranked here).map Prod.fst) := by
  unfold nodesAt ranked
  split
  · next hnone => rw [hnone, List.mergeSort_nil, List.map_nil]
  · next hit hone => rw [hone, List.mergeSort_singleton, List.map_singleton]
  · let rank : NodeId × Span → (Nat × Nat) × NodeId := fun hit => (hit.2.width, hit.1)
    have hsort : ((g.covering here).mergeSort firstBy).map rank =
        ((g.covering here).map rank).mergeSort fun a b => narrower a.1 b.1 :=
      List.map_mergeSort fun _ _ _ _ => rfl
    rw [mapM_breadth h]
    change Except.ok ((((g.covering here).map rank).mergeSort _).map _) = _
    rw [← hsort, List.map_map]
    rfl

theorem mem_ranked {hit : NodeId × Span} : hit ∈ g.ranked here ↔ hit ∈ g.covering here :=
  List.mem_mergeSort

def Precedes (l : List NodeId) (a b : NodeId) : Prop := l.idxOf a < l.idxOf b

theorem ne_of_strictly_inside {inner outer : NodeId × Span} (hin : outer.2.contains inner.2 = true)
    (hout : inner.2.contains outer.2 = false) : inner ≠ outer := by
  rintro rfl
  exact Bool.false_ne_true (hout.symm.trans hin)

section Ranked

variable {inner outer : NodeId × Span} (hnodup : g.nodeIds.Nodup)

include hnodup

theorem nodup_ranked : ((g.ranked here).map Prod.fst).Nodup :=
  ((List.mergeSort_perm _ _).map _).nodup_iff.2 (hnodup.sublist map_covering_sublist)

variable (hinner : inner ∈ g.covering here) (houter : outer ∈ g.covering here)
  (hin : outer.2.contains inner.2 = true) (hout : inner.2.contains outer.2 = false)

include hinner houter hin hout

theorem inner_precedes (htied : ¬ inner.2.Tied outer.2) :
    Precedes ((g.ranked here).map Prod.fst) inner.1 outer.1 := by
  have hne := ne_of_strictly_inside hin hout
  rcases pair_sublist_or_pair_sublist (mem_ranked.2 hinner) (mem_ranked.2 houter) hne with h | h
  · exact idxOf_lt_of_sublist (nodup_ranked hnodup) (h.map Prod.fst)
  · -- the sort would have taken the outer span for the narrower one
    have hsorted := List.pairwise_mergeSort firstBy_trans firstBy_total (g.covering here)
    have hle : firstBy outer inner = true := List.pairwise_iff_forall_sublist.1 hsorted h
    obtain ⟨n, hn, -⟩ := mem_covering.1 hinner
    obtain ⟨m, hm, -⟩ := mem_covering.1 houter
    rw [firstBy, Span.not_narrower_of_contains hn.contains hm.contains hin hout htied] at hle
    cases hle

theorem precedes_iff_of_tied (htied : inner.2.Tied outer.2) :
    Precedes ((g.ranked here).map Prod.fst) inner.1 outer.1 ↔
      Precedes g.nodeIds inner.1 outer.1 := by
  have hne := ne_of_strictly_inside hin hout
  obtain ⟨n, hn, -⟩ := mem_covering.1 hinner
  obtain ⟨m, hm, -⟩ := mem_covering.1 houter
  obtain ⟨hle, hge⟩ := Span.narrower_of_tied hn.contains hm.contains hin htied
  have hkeeps : ∀ {a b : NodeId × Span}, firstBy a b = true → [a, b].Sublist (g.covering here) →
      Precedes ((g.ranked here).map Prod.fst) a.1 b.1 ∧ Precedes g.nodeIds a.1 b.1 := by
    intro a b hab h
    have hranked : [a, b].Sublist (g.ranked here) :=
      List.pair_sublist_mergeSort firstBy_trans firstBy_total hab h
    exact ⟨idxOf_lt_of_sublist (nodup_ranked hnodup) (hranked.map Prod.fst),
      idxOf_lt_of_sublist hnodup ((h.map Prod.fst).trans map_covering_sublist)⟩
  rcases pair_sublist_or_pair_sublist hinner houter hne with h | h
  · obtain ⟨hhits, hids⟩ := hkeeps hle h
    exact iff_of_true hhits hids
  · obtain ⟨hhits, hids⟩ := hkeeps hge h
    exact iff_of_false (Nat.lt_asymm hhits) (Nat.lt_asymm hids)

end Ranked

/-- If every span of a graph starts at line 1 or below, then the nodes at a position are those whose
spans cover it, each listed once. Of two of them whose spans lie strictly one inside the other, the
inner one comes first, unless the two are tied; tied ones keep the order of the graph. -/
theorem nodesAt_lists_inner_first {g : FlowGraph} (hg : g.graph.Made)
    (hspans : ∀ n ∈ g.nodes, ∀ s, n.span = some s → 1 ≤ s.startLine) (here : Location) :
    ∃ hits, g.nodesAt here = .ok hits ∧ hits.Nodup ∧
      (∀ id, id ∈ hits ↔ ∃ n s, g.Covers here n s ∧ n.id = id) ∧
      ∀ n s m t, g.Covers here n s → g.Covers here m t →
        t.contains s = true → s.contains t = false →
        (¬ s.Tied t → Precedes hits n.id m.id) ∧
        (s.Tied t → (Precedes hits n.id m.id ↔ Precedes g.nodeIds n.id m.id)) := by
  have hnodup := hg.nodup_nodeIds
  refine ⟨(g.ranked here).map Prod.fst, nodesAt_eq fun hit hhit => ?_, nodup_ranked hnodup,
    fun id => ?_, fun n s m t hn hm hin hout => ?_⟩
  · obtain ⟨n, hn, -⟩ := mem_covering.1 hhit
    exact hspans n hn.mem hit.2 hn.span
  · constructor
    · intro hid
      obtain ⟨hit, hhit, rfl⟩ := List.mem_map.1 hid
      obtain ⟨n, hn, heq⟩ := mem_covering.1 (mem_ranked.1 hhit)
      exact ⟨n, hit.2, hn, heq⟩
    · rintro ⟨n, s, hn, rfl⟩
      exact List.mem_map.2 ⟨(n.id, s), mem_ranked.2 (mem_covering.2 ⟨n, hn, rfl⟩), rfl⟩
  · have hinner : (n.id, s) ∈ g.covering here := mem_covering.2 ⟨n, hn, rfl⟩
    have houter : (m.id, t) ∈ g.covering here := mem_covering.2 ⟨m, hm, rfl⟩
    exact ⟨inner_precedes hnodup hinner houter hin hout,
      precedes_iff_of_tied hnodup hinner houter hin hout⟩

def spanned (id : NodeId) (span : Span) : Node :=
  { id, data := .dummy, span := some span, link := ⟨id.val⟩ }

def foldedStatement : FlowGraph where
  qualifiedName := "A.f"
  start := 1
  finish := 3
  graph := .ofLists
    [spanned 1 ⟨1, 10, 2, 5⟩, spanned 2 ⟨1, 10, 2, 4⟩, spanned 3 ⟨1, 10, 1, 20⟩] []

/-- What stands on one line comes first. The wider of the other two comes before the narrower one,
since it was added first. -/
theorem nodesAt_lists_inner_first_unless_tied :
    (Span.contains ⟨1, 10, 2, 5⟩ ⟨1, 10, 2, 4⟩ = true ∧
      Span.contains ⟨1, 10, 2, 4⟩ ⟨1, 10, 2, 5⟩ = false) ∧
    ∃ hits, foldedStatement.nodesAt ⟨1, 11⟩ = .ok hits ∧ Precedes hits 3 2 ∧
      ¬ Precedes hits 2 1 := by
  have hmade : foldedStatement.graph.Made := Graph.Made.ofLists _ _
  have hnodes : foldedStatement.nodes =
      [spanned 1 ⟨1, 10, 2, 5⟩, spanned 2 ⟨1, 10, 2, 4⟩, spanned 3 ⟨1, 10, 1, 20⟩] := by
    decide +kernel
  have hspans : ∀ n ∈ foldedStatement.nodes, ∀ s, n.span = some s → 1 ≤ s.startLine := by
    rw [hnodes]
    simp [spanned]
  have hcovers : ∀ id span, spanned id span ∈ foldedStatement.nodes →
      Span.containsPosition span ⟨1, 11⟩ = true →
      foldedStatement.Covers ⟨1, 11⟩ (spanned id span) span :=
    fun _ _ hmem hcontains => ⟨hmem, rfl, hcontains⟩
  have hwide := hcovers 1 ⟨1, 10, 2, 5⟩ (by simp [hnodes]) (by decide)
  have hnarrow := hcovers 2 ⟨1, 10, 2, 4⟩ (by simp [hnodes]) (by decide)
  have hline := hcovers 3 ⟨1, 10, 1, 20⟩ (by simp [hnodes]) (by decide)
  obtain ⟨hits, hanswer, -, -, horder⟩ := nodesAt_lists_inner_first hmade hspans ⟨1, 11⟩
  refine ⟨by decide, hits, hanswer, ?_, ?_⟩
  · exact (horder _ _ _ _ hline hnarrow (by decide) (by decide)).1 fun h => by cases h.endLine
  · refine ((horder _ _ _ _ hnarrow hwide (by decide) (by decide)).2 ⟨rfl, rfl, ?_⟩).not.2 ?_
    · decide
    · unfold Precedes
      decide +kernel

end FlowGraph

end ProgramFlow
