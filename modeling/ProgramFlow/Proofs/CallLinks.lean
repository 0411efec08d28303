import ProgramFlow.Proofs.ByteOrder
import ProgramFlow.Proofs.HeldMethods

/-! Links between methods. Call sites are taken up one after the other, by the name of the caller
and then in the order of its graph, and each ends in one of three ways, which `Takes` lists. What
the finished graph holds follows by induction on the sites taken up so far: the links are those of
the sites, in their order, and the two indexes point at the links of a node. -/
namespace ProgramFlow

theorem length_filter_le_one {α : Type} {p : α → Bool} {l : List α}
    (h : l.Pairwise fun x y => ¬(p x = true ∧ p y = true)) : (l.filter p).length ≤ 1 := by
  have hpass : ∀ x ∈ l.filter p, p x = true := fun x hx => (List.mem_filter.1 hx).2
  have hpair := h.filter p
  cases hl : l.filter p with
  | nil => exact Nat.zero_le 1
  | cons x rest =>
    cases rest with
    | nil => exact Nat.le_refl 1
    | cons y rest =>
      rw [hl] at hpair hpass
      simp only [List.forall_mem_cons] at hpass
      exact absurd ⟨hpass.1, hpass.2.1⟩ (List.rel_of_pairwise_cons hpair List.mem_cons_self)

theorem filter_eq_singleton {α : Type} {p : α → Bool} {l : List α} {a : α} (ha : a ∈ l)
    (hp : p a = true) (h : l.Pairwise fun x y => ¬(p x = true ∧ p y = true)) :
    l.filter p = [a] := by
  have hmem : a ∈ l.filter p := List.mem_filter.2 ⟨ha, hp⟩
  have hlen := length_filter_le_one h
  have hpos := List.length_pos_of_mem hmem
  obtain ⟨b, hb⟩ := List.length_eq_one_iff.1 (show (l.filter p).length = 1 by omega)
  rw [hb, List.mem_singleton] at hmem
  rw [hb, hmem]

namespace LinkIndex

theorem positions_note (index : LinkIndex) (id : NodeId) (position : Nat) (other : NodeId) :
    (index.note id position).positions other =
      if other = id then index.positions id ++ [position] else index.positions other := by
  by_cases h : other = id
  · simp [note, positions, h]
  · rw [if_neg h, positions, note, List.lookup_cons, beq_false_of_ne h,
      NameMap.lookup_filter_of_ne _ h]
    rfl

structure Tracks (index : LinkIndex) (key : CallLink → NodeId) (links : List CallLink) : Prop where
  bounded : ∀ id, ∀ position ∈ index.positions id, position < links.length
  reads : ∀ id, (index.positions id).filterMap (fun position => links[position]?) =
    links.filter fun l => key l = id

theorem Tracks.empty (key : CallLink → NodeId) : Tracks {} key [] :=
  ⟨fun _ _ h => (List.not_mem_nil h).elim, fun _ => rfl⟩

theorem Tracks.push {index : LinkIndex} {key : CallLink → NodeId} {links : List CallLink}
    (h : index.Tracks key links) (link : CallLink) :
    (index.note (key link) links.length).Tracks key (links ++ [link]) := by
  have hold : ∀ id, (index.positions id).filterMap (fun position => (links ++ [link])[position]?) =
      links.filter fun l => key l = id := by
    intro id
    rw [← h.reads id]
    apply List.filterMap_congr
    intro position hposition
    exact List.getElem?_append_left (h.bounded id position hposition)
  constructor
  · intro id position hposition
    rw [List.length_append, List.length_singleton]
    rw [positions_note] at hposition
    split at hposition
    · rcases List.mem_append.1 hposition with hposition | hposition
      · have := h.bounded _ position hposition
        omega
      · rw [List.mem_singleton.1 hposition]
        omega
    · have := h.bounded id position hposition
      omega
  · intro id
    rw [positions_note, List.filter_append]
    by_cases hid : id = key link
    · subst hid
      rw [if_pos rfl, List.filterMap_append, hold]
      simp
    · rw [if_neg hid, hold]
      have hne : ¬key link = id := fun heq => hid heq.symm
      simp [hne]

end LinkIndex

def CallLink.between (caller : FlowGraph) (site : NodeId) (call : Call) (callee : FlowGraph)
    (formals : MethodEntry) : CallLink where
  caller := caller.qualifiedName
  callerEntry := caller.start
  callSite := site
  callee := callee.qualifiedName
  calleeEntry := callee.start
  callEdge := ⟨site, callee.start, .methodCall, none⟩
  parameterEdges := ProgramFlow.parameterEdges call formals
  arityMismatch :=
    if call.actualIns.length = formals.formalIns.length then none
    else some (call.actualIns.length, formals.formalIns.length)

theorem linkCall?_eq (caller : FlowGraph) (site : NodeId) (callee : FlowGraph) :
    linkCall? caller site callee = ((caller.node? site).bind Node.call?).bind fun call =>
      callee.methodEntry?.map (CallLink.between caller site call callee) := by
  unfold linkCall?
  cases caller.node? site with
  | none => rfl
  | some n =>
    cases hcall : n.call? with
    | none => simp [hcall]
    | some call =>
      cases hentry : callee.methodEntry? with
      | none => simp [hcall]
      | some formals => simp [hcall, CallLink.between]

namespace InterproceduralGraph

abbrev Site := FlowGraph × NodeId × Call

def calleeName (site : Site) : String := site.2.2.callee.qualifiedName

def siteLink? (s : Store) (site : Site) : Option CallLink :=
  (s.method? (calleeName site)).bind fun callee => linkCall? site.1 site.2.1 callee.flow

def unresolvedAt (site : Site) : UnresolvedCall := ⟨site.1.qualifiedName, site.2.1, calleeName site⟩

inductive Takes (s : Store) (config : LinkageConfig) (site : Site) (g : InterproceduralGraph) :
    InterproceduralGraph → Prop where
  | unresolved (h : s.method? (calleeName site) = none) :
      Takes s config site g
        { g with
          unresolved := g.unresolved ++ if config.linkUnresolved then [unresolvedAt site] else []
          unresolvedCount := g.unresolvedCount + 1 }
  | linked {link} (h : siteLink? s site = some link) : Takes s config site g (g.push link)
  | passed {callee} (h : s.method? (calleeName site) = some callee)
      (hl : siteLink? s site = none) : Takes s config site g g

theorem addSite_takes (s : Store) (config : LinkageConfig)
    (state : InterproceduralGraph × List Event) (site : Site) :
    Takes s config site state.1 (addSite s config state site).1 := by
  rcases state with ⟨g, events⟩
  rcases site with ⟨caller, id, call⟩
  simp only [addSite]
  split
  · next hnone => exact .unresolved hnone
  · next callee hcallee =>
    have hlink : siteLink? s (caller, id, call) = linkCall? caller id callee.flow := by
      rw [siteLink?, calleeName, hcallee]
      rfl
    split
    · next link hl => exact .linked (hlink.trans hl)
    · next hl => exact .passed hcallee (hlink.trans hl)

/-- What holds at the start and is kept when a site is taken up holds of the finished graph. -/
theorem build_induction {s : Store} {config : LinkageConfig}
    {motive : List Site → InterproceduralGraph → Prop} (nil : motive [] {})
    (take : ∀ sites site g g', Takes s config site g g' → motive sites g →
      motive (sites ++ [site]) g') :
    motive (callSites s) (build s config).1 := by
  change motive (callSites s) ((callSites s).foldl (addSite s config) ({}, [])).1
  induction callSites s using List.reverseRecOn with
  | nil => exact nil
  | append_singleton sites site ih =>
    rw [List.foldl_append]
    exact take sites site _ _ (addSite_takes s config _ site) ih

section Build

variable (s : Store) (config : LinkageConfig)

theorem links_build : (build s config).1.links = (callSites s).filterMap (siteLink? s) := by
  apply build_induction (motive := fun sites g => g.links = sites.filterMap (siteLink? s)) rfl
  intro sites site g g' htakes ih
  rw [List.filterMap_append, ← ih]
  cases htakes with
  | unresolved h =>
    have hlink : siteLink? s site = none := by rw [siteLink?, h]; rfl
    rw [List.filterMap_cons_none hlink]
    exact (List.append_nil _).symm
  | linked h =>
    rw [List.filterMap_cons_some h]
    rfl
  | passed h hl =>
    rw [List.filterMap_cons_none hl]
    exact (List.append_nil _).symm

structure InStep (g : InterproceduralGraph) : Prop where
  byCallSite : g.byCallSite.Tracks CallLink.callSite g.links
  byCalleeEntry : g.byCalleeEntry.Tracks CallLink.calleeEntry g.links

theorem InStep.push {g : InterproceduralGraph} (h : g.InStep) (link : CallLink) :
    (g.push link).InStep :=
  ⟨h.byCallSite.push link, h.byCalleeEntry.push link⟩

theorem build_inStep : (build s config).1.InStep := by
  apply build_induction (motive := fun _ g => g.InStep)
  · exact ⟨.empty _, .empty _⟩
  · intro sites site g g' htakes ih
    cases htakes with
    | unresolved => exact ⟨ih.byCallSite, ih.byCalleeEntry⟩
    | linked => exact ih.push _
    | passed => exact ih

theorem calleesOf_build (site : NodeId) : (build s config).1.calleesOf site =
    (build s config).1.links.filter fun l => l.callSite = site :=
  (build_inStep s config).byCallSite.reads site

theorem callersOf_build (entry : NodeId) : (build s config).1.callersOf entry =
    (build s config).1.links.filter fun l => l.calleeEntry = entry :=
  (build_inStep s config).byCalleeEntry.reads entry

end Build

end InterproceduralGraph

namespace Store

/-- What linking relies on: the table is in order, and no identity stands twice in a graph. -/
structure Linkable (s : Store) : Prop extends Tabulated s where
  nodup : ∀ name f, s.method? name = some f → f.flow.nodeIds.Nodup

/-- A call node of a held method or field whose callee is held with a method entry. -/
structure Resolves (s : Store) (f : Cfg) (n : Node) (call : Call) (callee : Cfg)
    (formals : MethodEntry) : Prop where
  caller : s.method? f.qualifiedName = some f
  node : n ∈ f.flow.nodes
  calls : n.call? = some call
  target : s.method? call.callee.qualifiedName = some callee
  entry : callee.flow.methodEntry? = some formals

theorem linkable_of_assembled {allowed : Store → Action → Prop} {config : StoreConfig} {s : Store}
    {events : List Event} (h : Execution allowed { config } events s)
    (hassembled : ∀ name f, s.method? name = some f → f.Assembled) : s.Linkable :=
  ⟨h.tabulated, fun name f hf => (hassembled name f hf).made.nodup_nodeIds⟩

theorem linkable_of_admitted {config : StoreConfig} {s : Store} {events : List Event}
    (h : Execution Admits { config } events s) : s.Linkable := by
  refine ⟨h.tabulated, fun name f hf => ?_⟩
  obtain ⟨ref, hh⟩ := method?_eq_some hf
  exact (h.regular _ (comesFrom_of_held hh)).made.nodup_nodeIds

end Store

namespace InterproceduralGraph

variable {s : Store} {config : LinkageConfig}

theorem mem_callSites (h : s.Tabulated) {site : Site} : site ∈ callSites s ↔
    ∃ f n call, s.method? f.qualifiedName = some f ∧ n ∈ f.flow.nodes ∧ n.call? = some call ∧
      site = (f.flow, n.id, call) := by
  simp only [callSites, List.mem_flatMap, List.mem_filterMap, Option.map_eq_some_iff, h.mem_methods]
  constructor
  · rintro ⟨f, hf, n, hn, call, hcall, rfl⟩
    exact ⟨f, n, call, hf, hn, hcall, rfl⟩
  · rintro ⟨f, n, call, hf, hn, hcall, rfl⟩
    exact ⟨f, hf, n, hn, call, hcall, rfl⟩

/-- Sites come by the name of the caller, and then in the order of its nodes. -/
theorem callSites_ordered (h : s.Tabulated) : (callSites s).Pairwise fun a b =>
    a.1.qualifiedName < b.1.qualifiedName ∨ a.1 = b.1 ∧ [a.2.1, b.2.1].Sublist a.1.nodeIds := by
  rw [callSites, List.pairwise_flatMap]
  constructor
  · intro f _
    rw [List.pairwise_filterMap]
    apply List.pairwise_of_forall_sublist
    intro n n' hsub a ha b hb
    obtain ⟨call, -, rfl⟩ := Option.map_eq_some_iff.1 ha
    obtain ⟨call', -, rfl⟩ := Option.map_eq_some_iff.1 hb
    exact .inr ⟨rfl, hsub.map Node.id⟩
  · refine h.methods_ascending.imp fun {f g} hlt a ha b hb => .inl ?_
    obtain ⟨n, -, ha⟩ := List.mem_filterMap.1 ha
    obtain ⟨n', -, hb⟩ := List.mem_filterMap.1 hb
    obtain ⟨call, -, rfl⟩ := Option.map_eq_some_iff.1 ha
    obtain ⟨call', -, rfl⟩ := Option.map_eq_some_iff.1 hb
    exact hlt

theorem siteLink?_of_call (h : s.Linkable) {f : Cfg} {n : Node} {call : Call}
    (hf : s.method? f.qualifiedName = some f) (hn : n ∈ f.flow.nodes)
    (hcall : n.call? = some call) :
    siteLink? s (f.flow, n.id, call) = (s.method? call.callee.qualifiedName).bind fun callee =>
      callee.flow.methodEntry?.map (CallLink.between f.flow n.id call callee.flow) := by
  have hnode : (f.flow.node? n.id).bind Node.call? = some call := by
    rw [FlowGraph.node?_of_mem (h.nodup _ f hf) hn]
    exact hcall
  refine congrArg (Option.bind _) (funext fun callee => ?_)
  rw [linkCall?_eq, hnode]
  rfl

theorem siteLink?_source {site : Site} {l : CallLink} (h : siteLink? s site = some l) :
    l.caller = site.1.qualifiedName ∧ l.callSite = site.2.1 := by
  obtain ⟨callee, -, hl⟩ := Option.bind_eq_some_iff.1 h
  rw [linkCall?_eq] at hl
  obtain ⟨call, -, hl⟩ := Option.bind_eq_some_iff.1 hl
  obtain ⟨formals, -, rfl⟩ := Option.map_eq_some_iff.1 hl
  exact ⟨rfl, rfl⟩

/-- The links are those of the call nodes that resolve. -/
theorem mem_links (h : s.Linkable) {l : CallLink} : l ∈ (build s config).1.links ↔
    ∃ f n call callee formals, s.Resolves f n call callee formals ∧
      l = .between f.flow n.id call callee.flow formals := by
  rw [links_build, List.mem_filterMap]
  constructor
  · rintro ⟨site, hsite, hl⟩
    obtain ⟨f, n, call, hf, hn, hcall, rfl⟩ := (mem_callSites h.toTabulated).1 hsite
    rw [siteLink?_of_call h hf hn hcall] at hl
    obtain ⟨callee, hcallee, hl⟩ := Option.bind_eq_some_iff.1 hl
    obtain ⟨formals, hformals, rfl⟩ := Option.map_eq_some_iff.1 hl
    exact ⟨f, n, call, callee, formals, ⟨hf, hn, hcall, hcallee, hformals⟩, rfl⟩
  · rintro ⟨f, n, call, callee, formals, hr, rfl⟩
    refine ⟨_, (mem_callSites h.toTabulated).2 ⟨f, n, call, hr.caller, hr.node, hr.calls, rfl⟩, ?_⟩
    rw [siteLink?_of_call h hr.caller hr.node hr.calls, hr.target, Option.bind_some, hr.entry]
    rfl

theorem links_ordered (h : s.Tabulated) : (build s config).1.links.Pairwise fun l l' =>
    l.caller < l'.caller ∨ l.caller = l'.caller ∧ ∃ f, s.method? l.caller = some f ∧
      [l.callSite, l'.callSite].Sublist f.flow.nodeIds := by
  rw [links_build, List.pairwise_filterMap]
  refine (callSites_ordered h).imp_of_mem ?_
  intro a b ha _ hab l hl l' hl'
  obtain ⟨hcaller, hsite⟩ := siteLink?_source hl
  obtain ⟨hcaller', hsite'⟩ := siteLink?_source hl'
  rw [hcaller, hsite, hcaller', hsite']
  obtain ⟨f, n, call, hf, -, -, rfl⟩ := (mem_callSites h).1 ha
  refine hab.imp_right ?_
  rintro ⟨heq, hsub⟩
  exact ⟨congrArg FlowGraph.qualifiedName heq, f, hf, hsub⟩

theorem sites_distinct (h : s.Linkable) : (callSites s).Pairwise fun a b =>
    ¬(a.1.qualifiedName = b.1.qualifiedName ∧ a.2.1 = b.2.1) := by
  refine (callSites_ordered h.toTabulated).imp_of_mem ?_
  rintro a b ha - (hlt | ⟨-, hsub⟩) ⟨hname, hid⟩
  · rw [hname] at hlt
    exact String.lt_irrefl _ hlt
  · obtain ⟨f, n, call, hf, -, -, rfl⟩ := (mem_callSites h.toTabulated).1 ha
    rw [hid] at hsub
    have hnodup := (h.nodup _ f hf).sublist hsub
    simp at hnodup

theorem links_distinct (h : s.Linkable) : (build s config).1.links.Pairwise fun l l' =>
    ¬(l.caller = l'.caller ∧ l.callSite = l'.callSite) := by
  rw [links_build, List.pairwise_filterMap]
  refine (sites_distinct h).imp ?_
  intro a b hne l hl l' hl'
  obtain ⟨hcaller, hsite⟩ := siteLink?_source hl
  obtain ⟨hcaller', hsite'⟩ := siteLink?_source hl'
  rw [hcaller, hsite, hcaller', hsite']
  exact hne

/-- Where no two graphs have a node in common, a node identity is the site of at most one link. -/
theorem callSites_distinct (h : s.Linkable) (hapart : s.Apart) :
    (build s config).1.links.Pairwise fun l l' => l.callSite ≠ l'.callSite := by
  refine (links_distinct h).imp_of_mem ?_
  intro l l' hl hl' hne hsite
  obtain ⟨f, n, call, callee, formals, hr, rfl⟩ := (mem_links h).1 hl
  obtain ⟨f', n', call', callee', formals', hr', rfl⟩ := (mem_links h).1 hl'
  have hid : n.id ∈ f.flow.nodeIds := List.mem_map_of_mem hr.node
  have hid' : n'.id ∈ f'.flow.nodeIds := List.mem_map_of_mem hr'.node
  refine hapart _ _ f f' hr.caller hr'.caller (fun hname => hne ⟨hname, hsite⟩) n.id hid ?_
  rw [show n.id = n'.id from hsite]
  exact hid'

theorem build_of_perm (h : s.Tabulated) {t : Store} (hp : t.cache.entries.Perm s.cache.entries)
    (config : LinkageConfig) : build t config = build s config := by
  have hsites : callSites t = callSites s := by
    unfold callSites
    rw [h.methods_of_perm hp]
  have hadd : addSite t config = addSite s config := by
    funext state site
    simp only [addSite, h.method?_of_perm hp]
  unfold build
  rw [hsites, hadd]

/-- Linking makes one link for each call node whose callee is held with a method entry, and no
other. Links come by the bytes of the caller's name and then in the order of its nodes, however the
table keeps its entries. The two indexes answer with the links of a call site, at most one, and
with those of an entry. -/
theorem links_match_call_nodes {allowed : Store → Action → Prop} {config : StoreConfig} {s : Store}
    {events : List Event} (h : Store.Execution allowed { config } events s)
    (hassembled : ∀ name f, s.method? name = some f → f.Assembled) (hapart : s.Apart)
    (linkage : LinkageConfig) :
    let g := (build s linkage).1
    (∀ f n call callee formals, s.Resolves f n call callee formals →
      g.links.filter (fun l => l.caller = f.qualifiedName ∧ l.callSite = n.id) =
        [.between f.flow n.id call callee.flow formals]) ∧
    (∀ l ∈ g.links, ∃ f n call callee formals, s.Resolves f n call callee formals ∧
      l = .between f.flow n.id call callee.flow formals) ∧
    (g.links.Pairwise fun l l' => ByteOrder.bytes l.caller < ByteOrder.bytes l'.caller ∨
      l.caller = l'.caller ∧ ∃ f, s.method? l.caller = some f ∧
        [l.callSite, l'.callSite].Sublist f.flow.nodeIds) ∧
    (∀ t : Store, t.cache.entries.Perm s.cache.entries → build t linkage = build s linkage) ∧
    (∀ site, g.calleesOf site = g.links.filter (fun l => l.callSite = site) ∧
      (g.calleesOf site).length ≤ 1) ∧
    ∀ entry, g.callersOf entry = g.links.filter fun l => l.calleeEntry = entry := by
  intro g
  have hl : s.Linkable := Store.linkable_of_assembled h hassembled
  refine ⟨?_, fun l => (mem_links hl).1, ?_, ?_, ?_, ?_⟩
  · intro f n call callee formals hr
    apply filter_eq_singleton
    · exact (mem_links hl).2 ⟨f, n, call, callee, formals, hr, rfl⟩
    · exact decide_eq_true ⟨rfl, rfl⟩
    · refine (links_distinct hl).imp ?_
      rintro l l' hne ⟨hp, hp'⟩
      rw [decide_eq_true_eq] at hp hp'
      exact hne ⟨hp.1.trans hp'.1.symm, hp.2.trans hp'.2.symm⟩
  · refine (links_ordered h.tabulated).imp fun {l l'} hordered => ?_
    rw [ByteOrder.bytes_lt_iff]
    exact hordered
  · exact fun t hp => build_of_perm h.tabulated hp linkage
  · intro site
    have hcallees := calleesOf_build s linkage site
    refine ⟨hcallees, ?_⟩
    rw [hcallees]
    apply length_filter_le_one
    refine (callSites_distinct hl hapart).imp ?_
    rintro l l' hne ⟨hp, hp'⟩
    rw [decide_eq_true_eq] at hp hp'
    exact hne (hp.trans hp'.symm)
  · exact callersOf_build s linkage

def callTo (name : String) : AssemblerOp NodeId :=
  .call .methodCall ⟨name, name, "void", "A", [], .empty⟩ {}

def callPlan (name : String) : List (AssemblerOp NodeId) :=
  if name = "A.f" then [callTo "A.g", callTo "A.x", callTo "B.h"]
  else if name = "A.g" then [callTo "A.f"]
  else []

def callStore : Store :=
  let s : Store := {}
  let frontEnd := Store.plannedFrontEnd callPlan
  let s := (s.request frontEnd ⟨.method, "A.g"⟩).store
  let s := (s.request frontEnd ⟨.method, "A.f"⟩).store
  (s.request frontEnd ⟨.field, "A.x"⟩).store

theorem callStore_reached {allowed : Store → Action → Prop}
    (h : ∀ s d, allowed s (.request (Store.plannedFrontEnd callPlan) d)) :
    ∃ events, Store.Execution allowed { config := {} } events callStore :=
  ⟨_, (((Store.Execution.nil _).request (h _ _)).request (h _ _)).request (h _ _)⟩

/-- The two methods that call each other each have their link. -/
theorem links_match_mutual_calls :
    ∃ events s f n call callee formals, Store.Execution Store.Employs { config := {} } events s ∧
      s.Resolves f n call callee formals ∧ f.qualifiedName = "A.f" ∧
      callee.qualifiedName = "A.g" ∧
      (build s {}).1.links.filter (fun l => l.caller = f.qualifiedName ∧ l.callSite = n.id) =
        [.between f.flow n.id call callee.flow formals] ∧
      ((build s {}).1.calleesOf n.id).length ≤ 1 := by
  obtain ⟨events, h⟩ : ∃ events,
      Store.Execution Store.Employs { config := {} } events callStore :=
    callStore_reached fun s d => Store.plannedFrontEnd_works callPlan s d
  have hf : (callStore.method? "A.f").map (fun f => f.flow.nodes.any fun n =>
      (n.call?.map fun call => call.callee.qualifiedName) == some "A.g") = some true := by
    decide +kernel
  have hg : (callStore.method? "A.g").map (fun g => g.flow.methodEntry?.isSome) = some true := by
    decide +kernel
  generalize callStore = s at h hf hg
  obtain ⟨f, hf, hcalls⟩ := Option.map_eq_some_iff.1 hf
  obtain ⟨g, hg, hentry⟩ := Option.map_eq_some_iff.1 hg
  obtain ⟨n, hn, hcall⟩ := List.any_eq_true.1 hcalls
  obtain ⟨call, hcall, hname⟩ := Option.map_eq_some_iff.1 (eq_of_beq hcall)
  obtain ⟨formals, hformals⟩ := Option.isSome_iff_exists.1 hentry
  obtain ⟨os, ht⟩ := h.traced_of_start
  have hfname := h.tabulated.name_of_method? hf
  have hr : s.Resolves f n call g formals := by
    refine ⟨hfname ▸ hf, hn, hcall, ?_, hformals⟩
    rw [hname]
    exact hg
  obtain ⟨hone, -, -, -, hcallees, -⟩ := links_match_call_nodes h (fun _ _ => ht.assembled)
    ht.apart {}
  exact ⟨events, s, f, n, call, g, formals, h, hr, hfname, h.tabulated.name_of_method? hg,
    hone f n call g formals hr, (hcallees n.id).2⟩

end InterproceduralGraph

end ProgramFlow
