import ProgramFlow.NodeSet

/-! The set of nodes that steps reach from given ones. Nodes outside a finite domain are never
entered, so the search ends: each round that goes on takes a node of the domain away from
those not seen. -/
namespace ProgramFlow

def freshNodes (domain frontier : List NodeId) (seen : NodeSet) : NodeSet :=
  (NodeSet.ofList frontier).filter fun x => decide (x ∈ domain) && decide (¬ x ∈ seen)

theorem mem_freshNodes {domain frontier : List NodeId} {seen : NodeSet} {x : NodeId} :
    x ∈ freshNodes domain frontier seen ↔ x ∈ frontier ∧ x ∈ domain ∧ ¬ x ∈ seen := by
  simp [freshNodes]

def unseen (domain : List NodeId) (seen : NodeSet) : List NodeId :=
  domain.filter fun x => ¬ x ∈ seen

/-- A stronger test that refuses one more member keeps a shorter list. -/
theorem length_filter_lt {p q : NodeId → Bool} {l : List NodeId} {x : NodeId} (hx : x ∈ l)
    (hp : p x = true) (hq : q x = false) (h : ∀ y, q y = true → p y = true) :
    (l.filter q).length < (l.filter p).length := by
  have hfilter : l.filter q = (l.filter p).filter q := by
    rw [List.filter_filter]
    refine List.filter_congr fun y _ => ?_
    cases hy : q y with
    | true => rw [h y hy, Bool.and_true]
    | false => rw [Bool.false_and]
  rw [hfilter, List.length_filter_lt_length_iff_exists]
  exact ⟨x, List.mem_filter.2 ⟨hx, hp⟩, by simp [hq]⟩

theorem unseen_union_lt {domain frontier : List NodeId} {seen : NodeSet}
    (h : (freshNodes domain frontier seen).isEmpty = false) :
    (unseen domain (seen.union (freshNodes domain frontier seen))).length <
      (unseen domain seen).length := by
  obtain ⟨x, hx⟩ : ∃ x, x ∈ freshNodes domain frontier seen := by
    cases hl : (freshNodes domain frontier seen).toList with
    | nil => simp [NodeSet.isEmpty, hl] at h
    | cons x xs => exact ⟨x, by simp [NodeSet.mem_def, hl]⟩
  obtain ⟨-, hu, hs⟩ := mem_freshNodes.1 hx
  refine length_filter_lt hu (by simpa using hs) (by simp [hx]) fun y hy => ?_
  simp only [NodeSet.mem_union, not_or, decide_eq_true_eq] at hy
  simpa using hy.1

/-- Everything seen, and everything that steps from the frontier reach through unseen nodes. -/
def closure (next : NodeId → List NodeId) (domain frontier : List NodeId) (seen : NodeSet) :
    NodeSet :=
  let fresh := freshNodes domain frontier seen
  if _h : fresh.isEmpty then seen
  else closure next domain (fresh.toList.flatMap next) (seen.union fresh)
termination_by (unseen domain seen).length
decreasing_by exact unseen_union_lt (Bool.eq_false_iff.2 _h)

end ProgramFlow
