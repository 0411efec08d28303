import Mathlib.Data.List.Nodup
import ProgramFlow.Linkage
import ProgramFlow.Proofs.Offering

/-! The methods and fields that a store holds, listed by name. The list does not depend on the order
in which the table keeps them, and it has each name once: a table that requests fill has one entry
for each name, and each entry lies under the name of its graph. -/
namespace ProgramFlow

namespace NameMap

variable {α : Type} {m : NameMap α}

def Distinct (m : NameMap α) : Prop := (m.entries.map Prod.fst).Nodup

theorem Distinct.erase (h : m.Distinct) (name : String) : (m.erase name).Distinct :=
  h.sublist (List.filter_sublist.map Prod.fst)

theorem Distinct.insert (h : m.Distinct) (name : String) (value : α) :
    (m.insert name value).Distinct := by
  refine List.nodup_cons.2 ⟨?_, h.erase name⟩
  intro hmem
  obtain ⟨entry, hentry, hname⟩ := List.mem_map.1 hmem
  have hne := (List.mem_filter.1 hentry).2
  rw [hname, bne_self_eq_false] at hne
  cases hne

theorem Distinct.mem_entries (h : m.Distinct) {name : String} {value : α} :
    (name, value) ∈ m.entries ↔ m.find? name = some value := by
  rw [find?, List.lookup_eq_some_iff]
  constructor
  · intro hmem
    obtain ⟨before, after, hsplit⟩ := List.append_of_mem hmem
    refine ⟨before, after, hsplit, fun entry hentry => ?_⟩
    rw [Distinct, hsplit, List.map_append, List.map_cons, List.nodup_append] at h
    rw [bne_iff_ne]
    intro heq
    exact h.2.2 entry.1 (List.mem_map_of_mem hentry) name List.mem_cons_self heq.symm
  · rintro ⟨before, after, hsplit, -⟩
    rw [hsplit]
    exact List.mem_append_right _ List.mem_cons_self

theorem Distinct.of_perm {m' : NameMap α} (h : m.Distinct) (hp : m'.entries.Perm m.entries) :
    m'.Distinct :=
  (hp.map Prod.fst).nodup_iff.2 h

/-- Tables with the same entries answer alike. -/
theorem Distinct.find?_of_perm {m' : NameMap α} (h : m.Distinct)
    (hp : m'.entries.Perm m.entries) (name : String) : m'.find? name = m.find? name := by
  apply Option.ext
  intro value
  rw [← (h.of_perm hp).mem_entries, ← h.mem_entries, hp.mem_iff]

end NameMap

namespace Store

variable {s : Store}

theorem distinct_registerMembers (h : s.cache.Distinct) (cfg : ClassCfg) :
    (s.registerMembers cfg).cache.Distinct := by
  unfold registerMembers
  generalize cfg.descendants = forest
  induction forest generalizing s with
  | nil => exact h
  | cons m rest ih =>
    apply ih
    unfold registerMember
    split
    · exact h
    · exact h.insert _ _

theorem Served.distinct {b : Builder} {d : Declaration} {reply : Reply}
    (hs : Served s b d reply) (h : s.cache.Distinct) : reply.store.cache.Distinct := by
  cases hs with
  | held | remembered | failed => exact h
  | builtMethod => exact NameMap.Distinct.insert h _ _
  | builtClass ref supply'' =>
    exact (distinct_registerMembers (s := { s with supply := supply'' }) h _).insert _ _

theorem Execution.distinct {allowed : Store → Action → Prop} {config : StoreConfig}
    {events : List Event} (h : Execution allowed { config } events s) : s.cache.Distinct := by
  induction h with
  | nil => exact List.nodup_nil
  | @snoc t _ action _ _ ih =>
    cases action with
    | request b d => exact (request_served t b d).distinct ih
    | allocate => exact ih
    | resetIds | destroy => exact List.nodup_nil

structure Tabulated (s : Store) : Prop where
  distinct : s.cache.Distinct
  keyed : Lookup.Keyed s.find?

theorem Execution.tabulated {allowed : Store → Action → Prop} {config : StoreConfig}
    {events : List Event} (h : Execution allowed { config } events s) : s.Tabulated :=
  ⟨h.distinct, (h.consistent (initial_consistent config)).keyed⟩

namespace Tabulated

variable (h : s.Tabulated)

include h

theorem name_of_method? {name : String} {f : Cfg} (hf : s.method? name = some f) :
    f.qualifiedName = name := by
  obtain ⟨ref, hh⟩ := method?_eq_some hf
  exact h.keyed name _ hh

theorem of_perm {t : Store} (hp : t.cache.entries.Perm s.cache.entries) : t.Tabulated := by
  refine ⟨h.distinct.of_perm hp, fun name held hh => h.keyed name held ?_⟩
  rw [find?, ← h.distinct.find?_of_perm hp]
  exact hh

theorem method?_of_perm {t : Store} (hp : t.cache.entries.Perm s.cache.entries) (name : String) :
    t.method? name = s.method? name := by
  rw [method?, find?, h.distinct.find?_of_perm hp]
  rfl

theorem mem_heldMethods {f : Cfg} :
    f ∈ s.cache.entries.filterMap (fun entry => entry.2.method?) ↔
      s.method? f.qualifiedName = some f := by
  rw [List.mem_filterMap]
  constructor
  · rintro ⟨⟨name, held⟩, hmem, hf⟩
    have hfind : s.method? name = some f := by
      rw [method?, find?, h.distinct.mem_entries.1 hmem]
      exact hf
    rw [h.name_of_method? hfind]
    exact hfind
  · intro hf
    obtain ⟨ref, hh⟩ := method?_eq_some hf
    exact ⟨(f.qualifiedName, .method ref f), h.distinct.mem_entries.2 hh, rfl⟩

theorem mem_methods {f : Cfg} : f ∈ s.methods ↔ s.method? f.qualifiedName = some f := by
  rw [methods, List.mem_mergeSort]
  exact h.mem_heldMethods

theorem names_ne : (s.cache.entries.filterMap fun entry => entry.2.method?).Pairwise
    fun f g => f.qualifiedName ≠ g.qualifiedName := by
  rw [List.pairwise_filterMap]
  have hkeys : s.cache.entries.Pairwise fun entry entry' => entry.1 ≠ entry'.1 :=
    List.pairwise_map.1 h.distinct
  refine hkeys.imp_of_mem ?_
  rintro ⟨name, held⟩ ⟨name', held'⟩ hmem hmem' hne f hf g hg heq
  have hname : held.qualifiedName = name := h.keyed _ _ (h.distinct.mem_entries.1 hmem)
  have hname' : held'.qualifiedName = name' := h.keyed _ _ (h.distinct.mem_entries.1 hmem')
  apply hne
  cases held with
  | classType => cases hf
  | method =>
    cases held' with
    | classType => cases hg
    | method =>
      cases hf
      cases hg
      exact hname.symm.trans (heq.trans hname')

omit h in
theorem methods_sorted (s : Store) :
    s.methods.Pairwise fun f g => f.qualifiedName ≤ g.qualifiedName := by
  have hsorted : s.methods.Pairwise
      fun f g => decide (f.qualifiedName ≤ g.qualifiedName) = true := by
    apply List.pairwise_mergeSort
    · intro f g k hfg hgk
      rw [decide_eq_true_eq] at hfg hgk ⊢
      exact String.le_trans hfg hgk
    · intro f g
      rw [Bool.or_eq_true, decide_eq_true_eq, decide_eq_true_eq]
      exact String.le_total ..
  exact hsorted.imp fun hle => of_decide_eq_true hle

theorem methods_ascending :
    s.methods.Pairwise fun f g => f.qualifiedName < g.qualifiedName := by
  have hne : s.methods.Pairwise fun f g => f.qualifiedName ≠ g.qualifiedName :=
    (List.mergeSort_perm _ _).pairwise_iff (fun h => h.symm) |>.2 h.names_ne
  refine (methods_sorted s).imp₂ ?_ hne
  intro f g hle hne
  by_cases hlt : f.qualifiedName < g.qualifiedName
  · exact hlt
  · exact absurd (String.le_antisymm hle hlt) hne

theorem methods_of_perm {t : Store} (hp : t.cache.entries.Perm s.cache.entries) :
    t.methods = s.methods := by
  have hperm : t.methods.Perm s.methods :=
    (List.mergeSort_perm _ _).trans ((hp.filterMap _).trans (List.mergeSort_perm _ _).symm)
  refine List.Perm.eq_of_pairwise ?_ (methods_sorted t) (methods_sorted s) hperm
  intro f g hf hg hfg hgf
  have hname := String.le_antisymm hfg hgf
  have hf' := h.mem_methods.1 (hperm.mem_iff.1 hf)
  rw [hname, h.mem_methods.1 hg] at hf'
  exact (Option.some.inj hf').symm

end Tabulated

/-- No two methods or fields that are held have a node in common. -/
def Apart (s : Store) : Prop :=
  ∀ name name' f g, s.method? name = some f → s.method? name' = some g → name ≠ name' →
    ∀ id ∈ f.flow.nodeIds, id ∉ g.flow.nodeIds

namespace Traced

variable {os : List Origin}

theorem assembled (h : s.Traced os) {name : String} {f : Cfg} (hf : s.method? name = some f) :
    f.Assembled := by
  obtain ⟨ref, hh⟩ := method?_eq_some hf
  have hgenuine : f.Genuine os := (h.genuine _ (comesFrom_of_held hh)).1
  exact hgenuine.assembled

theorem exists_origin (h : s.Traced os) {name : String} {f : Cfg} (hf : s.method? name = some f)
    {id : NodeId} (hid : id ∈ f.flow.nodeIds) :
    ∃ o ∈ os, o.name = name ∧ ∃ link, (id, link) ∈ o.identities := by
  obtain ⟨ref, hh⟩ := method?_eq_some hf
  obtain ⟨n, hn⟩ := FlowGraph.exists_node?.2 hid
  obtain ⟨d, o, hsource⟩ := h.exists_source (comesFrom_of_held hh) hn
  obtain rfl := hsource.eq_of_method
  refine ⟨o, hsource.origin, ?_, n.link, hsource.mem_identities⟩
  rw [← hsource.stems.name]
  exact h.keyed name _ hh

theorem apart (h : s.Traced os) : s.Apart := by
  intro name name' f g hf hg hne id hid hid'
  obtain ⟨o, ho, hname, link, hm⟩ := h.exists_origin hf hid
  obtain ⟨o', ho', hname', link', hm'⟩ := h.exists_origin hg hid'
  apply hne
  rw [← hname, ← hname', h.separate.origin_eq ho ho' hm hm' (.inl rfl)]

end Traced

end Store

end ProgramFlow
