import ProgramFlow.Proofs.CallLinks

/-! What becomes of call nodes when methods are linked. A call node of a held method or field gives
one link or counts as one unresolved call, but for those whose callee is held as a graph without
method entry, such as that of a field: they are passed over and appear nowhere. -/
namespace ProgramFlow

namespace Store

def heldCalls (s : Store) : List (Cfg × Node) :=
  (s.cache.entries.filterMap fun entry => entry.2.method?).flatMap fun f =>
    f.flow.callNodes.map fun n => (f, n)

/-- The callee of a node is held, but as a graph without method entry. -/
def passesOver (s : Store) (n : Node) : Bool :=
  (n.call?.bind fun call => s.method? call.callee.qualifiedName).any fun callee =>
    callee.flow.methodEntry?.isNone

end Store

theorem countP_add_countP_add_countP {α : Type} {p q r : α → Bool} {l : List α}
    (h : ∀ x ∈ l, (p x).toNat + (q x).toNat + (r x).toNat = 1) :
    l.countP p + l.countP q + l.countP r = l.length := by
  induction l with
  | nil => rfl
  | cons x rest ih =>
    obtain ⟨hx, hrest⟩ := List.forall_mem_cons.1 h
    have hcount : ∀ t : α → Bool, (x :: rest).countP t = rest.countP t + (t x).toNat := by
      intro t
      rw [List.countP_cons]
      cases t x <;> rfl
    have hsum := ih hrest
    rw [hcount, hcount, hcount, List.length_cons]
    omega

namespace InterproceduralGraph

variable {s : Store}

def isUnresolved (s : Store) (site : Site) : Bool := (s.method? (calleeName site)).isNone

def isPassed (s : Store) (site : Site) : Bool :=
  (s.method? (calleeName site)).any fun callee => callee.flow.methodEntry?.isNone

theorem isUnresolved_of_held {site : Site} {callee : Cfg}
    (h : s.method? (calleeName site) = some callee) : ¬isUnresolved s site = true := by
  rw [isUnresolved, h]
  exact Bool.false_ne_true

theorem isUnresolved_of_linked {site : Site} {l : CallLink} (h : siteLink? s site = some l) :
    ¬isUnresolved s site = true := by
  obtain ⟨callee, hcallee, -⟩ := Option.bind_eq_some_iff.1 h
  exact isUnresolved_of_held hcallee

section Build

variable (s) (config : LinkageConfig)

theorem unresolvedCount_build :
    (build s config).1.unresolvedCount = (callSites s).countP (isUnresolved s) := by
  apply build_induction
    (motive := fun sites g => g.unresolvedCount = sites.countP (isUnresolved s)) rfl
  intro sites site g g' htakes ih
  rw [List.countP_append, ← ih]
  cases htakes with
  | unresolved h =>
    have hsite : isUnresolved s site = true := by rw [isUnresolved, h]; rfl
    rw [List.countP_cons_of_pos hsite]
    rfl
  | linked h =>
    rw [List.countP_cons_of_neg (isUnresolved_of_linked h)]
    rfl
  | passed h =>
    rw [List.countP_cons_of_neg (isUnresolved_of_held h)]
    rfl

theorem unresolved_build : (build s config).1.unresolved =
    if config.linkUnresolved then ((callSites s).filter (isUnresolved s)).map unresolvedAt
    else [] := by
  apply build_induction (motive := fun sites g => g.unresolved =
    if config.linkUnresolved then (sites.filter (isUnresolved s)).map unresolvedAt else [])
  · split <;> rfl
  intro sites site g g' htakes ih
  rw [List.filter_append]
  cases htakes with
  | unresolved h =>
    have hsite : isUnresolved s site = true := by rw [isUnresolved, h]; rfl
    rw [List.filter_cons_of_pos hsite, List.map_append]
    by_cases hlist : config.linkUnresolved = true
    · rw [if_pos hlist] at ih ⊢
      rw [if_pos hlist, ← ih]
      rfl
    · rw [if_neg hlist] at ih ⊢
      rw [if_neg hlist, ih]
      rfl
  | linked h =>
    rw [List.filter_cons_of_neg (isUnresolved_of_linked h), List.filter_nil, List.append_nil]
    exact ih
  | passed h =>
    rw [List.filter_cons_of_neg (isUnresolved_of_held h), List.filter_nil, List.append_nil]
    exact ih

theorem length_unresolved_build : (build s config).1.unresolved.length =
    if config.linkUnresolved then (build s config).1.unresolvedCount else 0 := by
  rw [unresolved_build, unresolvedCount_build]
  split
  · rw [List.length_map, List.countP_eq_length_filter]
  · rfl

theorem countP_links (name : String) (id : NodeId) :
    (build s config).1.links.countP (fun l => l.caller = name ∧ l.callSite = id) =
      ((callSites s).filter fun site => site.1.qualifiedName = name ∧ site.2.1 = id).countP
        fun site => (siteLink? s site).isSome := by
  rw [links_build, List.countP_filterMap, List.countP_filter]
  apply List.countP_congr
  intro site _
  cases hl : siteLink? s site with
  | none => simp
  | some l =>
    obtain ⟨hcaller, hsite⟩ := siteLink?_source hl
    simp [hcaller, hsite]

theorem countP_unresolved (hlist : config.linkUnresolved = true) (name : String) (id : NodeId) :
    (build s config).1.unresolved.countP (fun u => u.caller = name ∧ u.callSite = id) =
      ((callSites s).filter fun site => site.1.qualifiedName = name ∧ site.2.1 = id).countP
        (isUnresolved s) := by
  rw [unresolved_build, if_pos hlist, List.countP_map, List.countP_filter, List.countP_filter]
  apply List.countP_congr
  intro site _
  rw [Bool.and_comm]
  exact Iff.rfl

end Build

/-- A call node gives a link, is unresolved, or is passed over. -/
theorem site_cases (h : s.Linkable) : ∀ site ∈ callSites s,
    (siteLink? s site).isSome.toNat + (isUnresolved s site).toNat +
      (isPassed s site).toNat = 1 := by
  intro site hsite
  obtain ⟨f, n, call, hf, hn, hcall, rfl⟩ := (mem_callSites h.toTabulated).1 hsite
  rw [siteLink?_of_call h hf hn hcall, isUnresolved, isPassed, calleeName]
  cases s.method? call.callee.qualifiedName with
  | none => rfl
  | some callee => cases hentry : callee.flow.methodEntry? <;> simp [hentry]

def site? (c : Cfg × Node) : Option Site := c.2.call?.map fun call => (c.1.flow, c.2.id, call)

theorem callSites_perm (s : Store) : (callSites s).Perm (s.heldCalls.filterMap site?) := by
  unfold callSites Store.heldCalls
  rw [List.filterMap_flatMap]
  refine ((List.mergeSort_perm _ _).flatMap_right _).trans (List.Perm.of_eq ?_)
  refine List.flatMap_congr fun f _ => ?_
  rw [List.filterMap_map, FlowGraph.callNodes, List.filterMap_filter]
  refine List.filterMap_congr fun n _ => ?_
  cases hcall : n.call? <;> simp [Node.isCall, site?, hcall]

theorem mem_heldCalls (h : s.Tabulated) {c : Cfg × Node} : c ∈ s.heldCalls ↔
    s.method? c.1.qualifiedName = some c.1 ∧ c.2 ∈ c.1.flow.nodes ∧ c.2.isCall = true := by
  rcases c with ⟨f, n⟩
  simp only [Store.heldCalls, List.mem_flatMap, List.mem_map, h.mem_heldMethods,
    FlowGraph.callNodes, List.mem_filter, Prod.mk.injEq]
  constructor
  · rintro ⟨f', hf, n', hn, rfl, rfl⟩
    exact ⟨hf, hn⟩
  · rintro ⟨hf, hn⟩
    exact ⟨f, hf, n, hn, rfl, rfl⟩

theorem length_heldCalls (h : s.Tabulated) : s.heldCalls.length = (callSites s).length := by
  rw [(callSites_perm s).length_eq, List.length_filterMap_eq_countP, eq_comm,
    List.countP_eq_length]
  intro c hc
  obtain ⟨-, -, hcall⟩ := (mem_heldCalls h).1 hc
  rw [site?, Option.isSome_map]
  exact hcall

theorem countP_passesOver (s : Store) :
    s.heldCalls.countP (fun c => s.passesOver c.2) = (callSites s).countP (isPassed s) := by
  rw [(callSites_perm s).countP_eq, List.countP_filterMap]
  refine List.countP_congr fun c _ => ?_
  cases hcall : c.2.call? <;> simp [site?, Store.passesOver, isPassed, calleeName, hcall]

theorem accounts_for_all (h : s.Linkable) (config : LinkageConfig) :
    (build s config).1.linkCount + (build s config).1.unresolvedCount +
      s.heldCalls.countP (fun c => s.passesOver c.2) = s.heldCalls.length := by
  rw [linkCount, links_build, List.length_filterMap_eq_countP, unresolvedCount_build,
    countP_passesOver, length_heldCalls h.toTabulated]
  exact countP_add_countP_add_countP (site_cases h)

theorem accounts_for_each (h : s.Linkable) {config : LinkageConfig}
    (hlist : config.linkUnresolved = true) {c : Cfg × Node} (hc : c ∈ s.heldCalls) :
    (build s config).1.links.countP
        (fun l => l.caller = c.1.qualifiedName ∧ l.callSite = c.2.id) +
      (build s config).1.unresolved.countP
        (fun u => u.caller = c.1.qualifiedName ∧ u.callSite = c.2.id) =
      if s.passesOver c.2 then 0 else 1 := by
  obtain ⟨hf, hn, hcall⟩ := (mem_heldCalls h.toTabulated).1 hc
  obtain ⟨call, hcall⟩ := Option.isSome_iff_exists.1 hcall
  have hsite : (c.1.flow, c.2.id, call) ∈ callSites s :=
    (mem_callSites h.toTabulated).2 ⟨c.1, c.2, call, hf, hn, hcall, rfl⟩
  have hone : (callSites s).filter (fun site => site.1.qualifiedName = c.1.qualifiedName ∧
      site.2.1 = c.2.id) = [(c.1.flow, c.2.id, call)] := by
    apply filter_eq_singleton hsite (decide_eq_true ⟨rfl, rfl⟩)
    refine (sites_distinct h).imp ?_
    rintro a b hne ⟨ha, hb⟩
    rw [decide_eq_true_eq] at ha hb
    exact hne ⟨ha.1.trans hb.1.symm, ha.2.trans hb.2.symm⟩
  have hpassed : s.passesOver c.2 = isPassed s (c.1.flow, c.2.id, call) := by
    rw [Store.passesOver, hcall]
    rfl
  have hcases := site_cases h _ hsite
  rw [countP_links, countP_unresolved s config hlist, hone, hpassed, List.countP_singleton,
    List.countP_singleton]
  generalize (siteLink? s _).isSome = linked at hcases ⊢
  generalize isUnresolved s _ = unresolved at hcases ⊢
  generalize isPassed s _ = passed at hcases ⊢
  decide +revert

/-- Each call node of each held method and field gives one link or counts as one unresolved call,
which is listed if the configuration asks for it, unless its callee is held without a method
entry. Such a call node is accounted for nowhere. -/
theorem call_nodes_are_accounted_for {config : StoreConfig} {s : Store} {events : List Event}
    (h : Store.Execution Store.Admits { config } events s) (linkage : LinkageConfig) :
    let g := (build s linkage).1
    g.linkCount + g.unresolvedCount + s.heldCalls.countP (fun c => s.passesOver c.2) =
      s.heldCalls.length ∧
    g.unresolved.length = (if linkage.linkUnresolved then g.unresolvedCount else 0) ∧
    (linkage.linkUnresolved = true → ∀ c ∈ s.heldCalls,
      g.links.countP (fun l => l.caller = c.1.qualifiedName ∧ l.callSite = c.2.id) +
        g.unresolved.countP (fun u => u.caller = c.1.qualifiedName ∧ u.callSite = c.2.id) =
        if s.passesOver c.2 then 0 else 1) := by
  intro g
  have hl : s.Linkable := Store.linkable_of_admitted h
  exact ⟨accounts_for_all hl linkage, length_unresolved_build s linkage,
    fun hlist c hc => accounts_for_each hl hlist hc⟩

/-- Of four call nodes two are linked, one is unresolved, and the one that names a field is lost. -/
theorem call_nodes_are_accounted_for_beside_field :
    ∃ events s, Store.Execution Store.Admits { config := {} } events s ∧
      s.heldCalls.length = 4 ∧ s.heldCalls.countP (fun c => s.passesOver c.2) = 1 ∧
      (build s { linkUnresolved := true }).1.linkCount +
        (build s { linkUnresolved := true }).1.unresolvedCount = 3 := by
  obtain ⟨events, h⟩ : ∃ events,
      Store.Execution Store.Admits { config := {} } events callStore :=
    callStore_reached fun s d => Store.plannedFrontEnd_offers callPlan s d
  have hlength : callStore.heldCalls.length = 4 := by decide +kernel
  have hpassed : callStore.heldCalls.countP (fun c => callStore.passesOver c.2) = 1 := by
    decide +kernel
  refine ⟨events, callStore, h, hlength, hpassed, ?_⟩
  obtain ⟨hall, -, -⟩ := call_nodes_are_accounted_for h { linkUnresolved := true }
  rw [hlength, hpassed] at hall
  omega

end InterproceduralGraph

end ProgramFlow
