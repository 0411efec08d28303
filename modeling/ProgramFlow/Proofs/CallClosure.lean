import ProgramFlow.CallGraph
import ProgramFlow.Proofs.CallLinks
import ProgramFlow.Proofs.GraphAdding

/-! Which methods a method calls, directly or through others. The call graph of a linked store has
an edge for each link, and the search from an entry finds the entries that chains of calls lead to,
its own included if it is recursive. The search with a stack, which takes one node at a time, comes
to an end in every call graph, with the same result. -/
namespace ProgramFlow

theorem Cfg.Assembled.start_mem {c : Cfg} (h : c.Assembled) : c.flow.start ∈ c.flow.nodeIds := by
  induction h with
  | finished h =>
    have hstart := h.entered.elim (fun h => h.start) fun h => h.start
    exact FlowGraph.isSome_node?.1 hstart
  | @computed c _ ih =>
    have hids : c.computeBlocks.flow.nodeIds = c.flow.nodeIds := c.flow.nodeIds_markBlocks _
    rw [hids]
    exact ih

namespace CallGraph

variable {g : CallGraph}

def edgeOf (l : CallLink) : CallEdge := ⟨l.callerEntry, l.calleeEntry, l.callSite⟩

def endsOf (l : CallLink) : List CallNode :=
  [⟨l.callerEntry, l.caller⟩, ⟨l.calleeEntry, l.callee⟩]

theorem key_injective : Function.Injective (Arc.key : CallEdge → NodeId × NodeId × NodeId) := by
  intro e e' hkey
  cases e
  cases hkey
  rfl

theorem nodes_addLink (g : CallGraph) (l : CallLink) :
    (g.addLink l).2.nodes = (endsOf l).foldl (addNew Vertex.id) g.nodes := by
  let nodes := g.graph.addNodes (endsOf l)
  have hnodes : (nodes.addEdge (edgeOf l)).2.nodes = nodes.nodes := Graph.nodes_addEdge ..
  exact hnodes.trans (Graph.nodes_addNodes ..)

theorem edges_addLink (g : CallGraph) (l : CallLink) :
    (g.addLink l).2.edges = addNew Arc.key g.edges (edgeOf l) := by
  let nodes := g.graph.addNodes (endsOf l)
  have hcaller : l.callerEntry ∈ nodes.nodeIds :=
    g.graph.mem_nodeIds_addNodes List.mem_cons_self
  have hcallee : l.calleeEntry ∈ nodes.nodeIds :=
    g.graph.mem_nodeIds_addNodes (List.mem_cons_of_mem _ List.mem_cons_self)
  have hedge : (nodes.addEdge (edgeOf l)).2.edges = addNew Arc.key nodes.edges (edgeOf l) :=
    Graph.edges_addEdge_of_ends hcaller hcallee
  rwa [Graph.edges_addNodes] at hedge

theorem mem_edges_addLink {l : CallLink} {e : CallEdge} :
    e ∈ (g.addLink l).2.edges ↔ e ∈ g.edges ∨ e = edgeOf l := by
  rw [edges_addLink]
  exact mem_addNew key_injective

theorem mem_edges_addLinks {links : List CallLink} {e : CallEdge} :
    e ∈ (g.addLinks links).edges ↔ e ∈ g.edges ∨ ∃ l ∈ links, e = edgeOf l := by
  induction links generalizing g with
  | nil => simp [addLinks]
  | cons l rest ih =>
    rw [addLinks, List.foldl_cons, ← addLinks, ih, mem_edges_addLink, or_assoc]
    simp

theorem made_addLinks (h : g.graph.Made) (links : List CallLink) :
    (g.addLinks links).graph.Made := by
  induction links generalizing g with
  | nil => exact h
  | cons l rest ih => exact ih ((h.addNodes _).addEdge _)

theorem mem_successors {x y : NodeId} :
    y ∈ g.graph.successors x ↔ ∃ e ∈ g.edges, e.caller = x ∧ e.callee = y := by
  simp only [Graph.successors, Graph.outgoing, List.mem_map, List.mem_reverse, List.mem_filter,
    decide_eq_true_eq, and_assoc]
  exact Iff.rfl

theorem mem_successors_ofInterprocedural {i : InterproceduralGraph} {x y : NodeId} :
    y ∈ (ofInterprocedural i).graph.successors x ↔
      ∃ l ∈ i.links, l.callerEntry = x ∧ l.calleeEntry = y := by
  rw [mem_successors, ofInterprocedural]
  constructor
  · rintro ⟨e, he, hcaller, hcallee⟩
    rcases mem_edges_addLinks.1 he with he | ⟨l, hl, rfl⟩
    · cases he
    · exact ⟨l, hl, hcaller, hcallee⟩
  · rintro ⟨l, hl, hcaller, hcallee⟩
    exact ⟨edgeOf l, mem_edges_addLinks.2 (.inr ⟨l, hl, rfl⟩), hcaller, hcallee⟩

def Leads (g : CallGraph) (x y : NodeId) : Prop := y ∈ g.graph.successors x

theorem Leads.mem_nodeIds (h : g.graph.Made) {x y : NodeId} (hxy : g.Leads x y) :
    y ∈ g.graph.nodeIds := by
  obtain ⟨e, he, -, rfl⟩ := mem_successors.1 hxy
  exact (h.wellFormed.ends e he).2

theorem mem_transitiveCallees (h : g.graph.Made) {entry x : NodeId} :
    x ∈ g.transitiveCallees entry ↔ Relation.TransGen g.Leads entry x := by
  constructor
  · intro hx
    refine closure_induction (motive := Relation.TransGen g.Leads entry) ?_ ?_ ?_ x hx
    · intro y hy
      exact absurd hy NodeSet.not_mem_empty
    · intro y hy _
      exact .single hy
    · intro y z hy hyz
      exact hy.tail hyz.1
  · intro hx
    induction hx with
    | single hy => exact mem_closure_of_frontier hy (hy.mem_nodeIds h)
    | tail _ hyz ih =>
      refine closure_closed (fun y hy => ?_) _ ih _ ⟨hyz, hyz.mem_nodeIds h⟩
      exact absurd hy NodeSet.not_mem_empty

abbrev Search := List NodeId × NodeSet

/-- The next entry is taken from the stack; one that is new is marked, and the entries it calls go
on the stack. -/
inductive Visits (g : CallGraph) : Search → Search → Prop where
  | skip {id rest reached} (h : id ∈ reached) : Visits g (id :: rest, reached) (rest, reached)
  | enter {id rest reached} (h : ¬id ∈ reached) :
      Visits g (id :: rest, reached) ((g.graph.successors id).reverse ++ rest, reached.insert id)

def searchFrom (g : CallGraph) (entry : NodeId) : Search :=
  ((g.graph.successors entry).reverse, .empty)

structure Searches (g : CallGraph) (entry : NodeId) (state : Search) : Prop where
  sound : ∀ x, x ∈ state.1 ∨ x ∈ state.2 → Relation.TransGen g.Leads entry x
  started : ∀ x, g.Leads entry x → x ∈ state.1 ∨ x ∈ state.2
  closed : ∀ x ∈ state.2, ∀ y, g.Leads x y → y ∈ state.1 ∨ y ∈ state.2

namespace Searches

variable {entry : NodeId} {state next : Search}

theorem start (g : CallGraph) (entry : NodeId) : g.Searches entry (g.searchFrom entry) := by
  constructor
  · rintro x (hx | hx)
    · exact .single (List.mem_reverse.1 hx)
    · exact absurd hx NodeSet.not_mem_empty
  · intro x hx
    exact .inl (List.mem_reverse.2 hx)
  · intro x hx
    exact absurd hx NodeSet.not_mem_empty

theorem step (h : g.Searches entry state) (hstep : g.Visits state next) :
    g.Searches entry next := by
  cases hstep with
  | @skip id rest reached hid =>
    have hmore : ∀ x, x ∈ id :: rest ∨ x ∈ reached → x ∈ rest ∨ x ∈ reached := by
      rintro x (hx | hx)
      · rcases List.mem_cons.1 hx with rfl | hx
        · exact .inr hid
        · exact .inl hx
      · exact .inr hx
    constructor
    · intro x hx
      exact h.sound x (hx.imp_left (List.mem_cons_of_mem id))
    · intro x hx
      exact hmore x (h.started x hx)
    · intro x hx y hxy
      exact hmore y (h.closed x hx y hxy)
  | @enter id rest reached hid =>
    have hmore : ∀ x, x ∈ id :: rest ∨ x ∈ reached →
        x ∈ (g.graph.successors id).reverse ++ rest ∨ x ∈ reached.insert id := by
      rintro x (hx | hx)
      · rcases List.mem_cons.1 hx with rfl | hx
        · exact .inr (NodeSet.mem_insert.2 (.inl rfl))
        · exact .inl (List.mem_append_right _ hx)
      · exact .inr (NodeSet.mem_insert.2 (.inr hx))
    have hfound := h.sound id (.inl List.mem_cons_self)
    constructor
    · rintro x (hx | hx)
      · rcases List.mem_append.1 hx with hx | hx
        · exact hfound.tail (List.mem_reverse.1 hx)
        · exact h.sound x (.inl (List.mem_cons_of_mem id hx))
      · rcases NodeSet.mem_insert.1 hx with rfl | hx
        · exact hfound
        · exact h.sound x (.inr hx)
    · intro x hx
      exact hmore x (h.started x hx)
    · intro x hx y hxy
      rcases NodeSet.mem_insert.1 hx with rfl | hx
      · exact .inl (List.mem_append_left _ (List.mem_reverse.2 hxy))
      · exact hmore y (h.closed x hx y hxy)

/-- Each visit takes a node away from those not reached, or else shortens the stack. -/
theorem ends (hmade : g.graph.Made) (h : g.Searches entry state) :
    Acc (fun later earlier => g.Visits earlier later) state := by
  let size : Search → Nat × Nat := fun state =>
    ((unseen g.graph.nodeIds state.2).length, state.1.length)
  have hwf : WellFounded (InvImage (Prod.Lex (· < ·) (· < ·)) size) :=
    InvImage.wf size (WellFounded.prod_lex wellFounded_lt wellFounded_lt)
  induction state using hwf.induction with
  | _ state ih =>
    refine Acc.intro _ fun next hstep => ih next ?_ (h.step hstep)
    cases hstep with
    | skip => exact .right _ (Nat.lt_succ_self _)
    | @enter id rest reached hid =>
      have hnode : id ∈ g.graph.nodeIds := by
        have hfound := h.sound id (.inl List.mem_cons_self)
        obtain ⟨x, -, hx⟩ := Relation.TransGen.tail'_iff.1 hfound
        exact hx.mem_nodeIds hmade
      exact .left _ _ (FlowGraph.unseen_insert_lt hnode hid)

/-- With nothing left to look at, a search has found what calls lead to. -/
theorem mem_iff {reached : NodeSet} (h : g.Searches entry ([], reached)) {x : NodeId} :
    x ∈ reached ↔ Relation.TransGen g.Leads entry x := by
  constructor
  · intro hx
    exact h.sound x (.inr hx)
  · intro hx
    induction hx with
    | single hy => exact (h.started _ hy).resolve_left List.not_mem_nil
    | tail _ hyz ih => exact (h.closed _ ih _ hyz).resolve_left List.not_mem_nil

theorem completes (hmade : g.graph.Made) (h : g.Searches entry state) :
    Relation.ReflTransGen g.Visits state ([], g.transitiveCallees entry) := by
  induction h.ends hmade with
  | intro state _ ih =>
    rcases state with ⟨pending, reached⟩
    cases pending with
    | nil =>
      have heq : reached = g.transitiveCallees entry := by
        apply NodeSet.ext
        intro x
        rw [h.mem_iff, mem_transitiveCallees hmade]
      rw [heq]
    | cons id rest =>
      by_cases hid : id ∈ reached
      · exact .head (.skip hid) (ih _ (.skip hid) (h.step (.skip hid)))
      · exact .head (.enter hid) (ih _ (.enter hid) (h.step (.enter hid)))

end Searches

end CallGraph

namespace Store

/-- The first graph has a call node that names the second, which is held and has a method entry. -/
structure Calls (s : Store) (f g : Cfg) : Prop where
  node : ∃ n ∈ f.flow.nodes, ∃ call, n.call? = some call ∧
    call.callee.qualifiedName = g.qualifiedName
  held : s.method? g.qualifiedName = some g
  entry : g.flow.methodEntry?.isSome = true

theorem held_of_chain {s : Store} {f g : Cfg} (h : Relation.TransGen s.Calls f g) :
    s.method? g.qualifiedName = some g := by
  obtain ⟨_, -, hcalls⟩ := Relation.TransGen.tail'_iff.1 h
  exact hcalls.held

structure Traceable (s : Store) : Prop extends Linkable s where
  start_mem : ∀ name f, s.method? name = some f → f.flow.start ∈ f.flow.nodeIds
  apart : s.Apart

namespace Traceable

variable {s : Store} (h : s.Traceable) {f g : Cfg}

include h

theorem eq_of_start (hf : s.method? f.qualifiedName = some f)
    (hg : s.method? g.qualifiedName = some g) (hstart : f.flow.start = g.flow.start) : f = g := by
  by_cases hname : f.qualifiedName = g.qualifiedName
  · rw [hname, hg] at hf
    exact (Option.some.inj hf).symm
  · have hmem := h.start_mem _ g hg
    rw [← hstart] at hmem
    exact absurd hmem (h.apart _ _ f g hf hg hname _ (h.start_mem _ f hf))

variable {linkage : LinkageConfig}

theorem leads_iff (hf : s.method? f.qualifiedName = some f) {x : NodeId} :
    (CallGraph.ofInterprocedural (InterproceduralGraph.build s linkage).1).Leads f.flow.start x ↔
      ∃ g, s.Calls f g ∧ x = g.flow.start := by
  rw [CallGraph.Leads, CallGraph.mem_successors_ofInterprocedural]
  constructor
  · rintro ⟨l, hl, hcaller, hcallee⟩
    obtain ⟨f', n, call, g, formals, hr, rfl⟩ :=
      (InterproceduralGraph.mem_links h.toLinkable).1 hl
    obtain rfl := h.eq_of_start hr.caller hf hcaller
    have hname := h.name_of_method? hr.target
    refine ⟨g, ⟨⟨n, hr.node, call, hr.calls, hname.symm⟩, ?_, ?_⟩, hcallee.symm⟩
    · rw [hname]
      exact hr.target
    · rw [hr.entry]
      rfl
  · rintro ⟨g, hcalls, rfl⟩
    obtain ⟨n, hn, call, hcall, hname⟩ := hcalls.node
    obtain ⟨formals, hformals⟩ := Option.isSome_iff_exists.1 hcalls.entry
    have hr : s.Resolves f n call g formals := ⟨hf, hn, hcall, hname ▸ hcalls.held, hformals⟩
    exact ⟨_, (InterproceduralGraph.mem_links h.toLinkable).2 ⟨f, n, call, g, formals, hr, rfl⟩,
      rfl, rfl⟩

theorem chain_iff (hf : s.method? f.qualifiedName = some f) {x : NodeId} :
    Relation.TransGen (CallGraph.ofInterprocedural (InterproceduralGraph.build s linkage).1).Leads
        f.flow.start x ↔
      ∃ g, Relation.TransGen s.Calls f g ∧ x = g.flow.start := by
  constructor
  · intro hx
    induction hx with
    | single hy =>
      obtain ⟨g, hcalls, rfl⟩ := (h.leads_iff hf).1 hy
      exact ⟨g, .single hcalls, rfl⟩
    | tail _ hyz ih =>
      obtain ⟨g, hchain, rfl⟩ := ih
      obtain ⟨k, hcalls, rfl⟩ := (h.leads_iff (held_of_chain hchain)).1 hyz
      exact ⟨k, hchain.tail hcalls, rfl⟩
  · rintro ⟨g, hchain, rfl⟩
    induction hchain with
    | single hcalls => exact .single ((h.leads_iff hf).2 ⟨_, hcalls, rfl⟩)
    | tail hchain hcalls ih =>
      exact ih.tail ((h.leads_iff (held_of_chain hchain)).2 ⟨_, hcalls, rfl⟩)

end Traceable

/-- The search of the call graph finds the methods that a chain of one call or more leads to, and
nothing else; a method is among its own exactly if it is recursive. The search with a stack takes
finitely many steps in every call graph and ends with this result. -/
theorem transitive_callees_are_call_chains {allowed : Store → Action → Prop}
    {config : StoreConfig} {s : Store} {events : List Event}
    (h : Execution allowed { config } events s)
    (hassembled : ∀ name f, s.method? name = some f → f.Assembled) (hapart : s.Apart)
    (linkage : LinkageConfig) :
    let calls := CallGraph.ofInterprocedural (InterproceduralGraph.build s linkage).1
    (∀ name name' f g, s.method? name = some f → s.method? name' = some g →
      (g.flow.start ∈ calls.transitiveCallees f.flow.start ↔ Relation.TransGen s.Calls f g)) ∧
    (∀ name f, s.method? name = some f → ∀ x ∈ calls.transitiveCallees f.flow.start,
      ∃ g, Relation.TransGen s.Calls f g ∧ x = g.flow.start) ∧
    ∀ g : CallGraph, g.graph.Made → ∀ entry,
      Acc (fun later earlier => g.Visits earlier later) (g.searchFrom entry) ∧
      Relation.ReflTransGen g.Visits (g.searchFrom entry) ([], g.transitiveCallees entry) := by
  intro calls
  have ht : s.Traceable :=
    { linkable_of_assembled h hassembled with
      start_mem := fun name f hf => (hassembled name f hf).start_mem
      apart := hapart }
  have hmade : calls.graph.Made := CallGraph.made_addLinks .empty _
  have hself : ∀ {name f}, s.method? name = some f → s.method? f.qualifiedName = some f := by
    intro name f hf
    rw [h.tabulated.name_of_method? hf]
    exact hf
  refine ⟨?_, ?_, ?_⟩
  · intro name name' f g hf hg
    rw [CallGraph.mem_transitiveCallees hmade, ht.chain_iff (hself hf)]
    constructor
    · rintro ⟨g', hchain, hstart⟩
      rw [ht.eq_of_start (hself hg) (held_of_chain hchain) hstart]
      exact hchain
    · intro hchain
      exact ⟨g, hchain, rfl⟩
  · intro name f hf x hx
    rw [CallGraph.mem_transitiveCallees hmade, ht.chain_iff (hself hf)] at hx
    exact hx
  · intro g hg entry
    have hstart := CallGraph.Searches.start g entry
    exact ⟨hstart.ends hg, hstart.completes hg⟩

/-- Two methods call each other, so each is among what it calls itself. -/
theorem transitive_callees_of_mutual_calls :
    ∃ events s f g, Execution Employs { config := {} } events s ∧ s.method? "A.f" = some f ∧
      s.method? "A.g" = some g ∧ s.Calls f g ∧ s.Calls g f ∧
      let calls := CallGraph.ofInterprocedural (InterproceduralGraph.build s {}).1
      g.flow.start ∈ calls.transitiveCallees f.flow.start ∧
        f.flow.start ∈ calls.transitiveCallees f.flow.start := by
  obtain ⟨events, h⟩ : ∃ events,
      Execution Employs { config := {} } events InterproceduralGraph.callStore :=
    InterproceduralGraph.callStore_reached fun s d => plannedFrontEnd_works _ s d
  let calledNames (f : Cfg) : List String :=
    f.flow.nodes.filterMap fun n => n.call?.map fun call => call.callee.qualifiedName
  have hf : (InterproceduralGraph.callStore.method? "A.f").map
      (fun f => (calledNames f, f.flow.methodEntry?.isSome)) =
        some (["A.g", "A.x", "B.h"], true) := by decide +kernel
  have hg : (InterproceduralGraph.callStore.method? "A.g").map
      (fun g => (calledNames g, g.flow.methodEntry?.isSome)) = some (["A.f"], true) := by
    decide +kernel
  generalize InterproceduralGraph.callStore = s at h hf hg
  obtain ⟨f, hf, hfcalls⟩ := Option.map_eq_some_iff.1 hf
  obtain ⟨g, hg, hgcalls⟩ := Option.map_eq_some_iff.1 hg
  obtain ⟨hfnames, hfentry⟩ := Prod.mk.inj hfcalls
  obtain ⟨hgnames, hgentry⟩ := Prod.mk.inj hgcalls
  have hcalls : ∀ {f g : Cfg} {name : String}, s.method? name = some g → name ∈ calledNames f →
      g.flow.methodEntry?.isSome = true → s.Calls f g := by
    intro f g name hg hname hentry
    rw [← h.tabulated.name_of_method? hg] at hname hg
    obtain ⟨n, hn, hcall⟩ := List.mem_filterMap.1 hname
    obtain ⟨call, hcall, hcallee⟩ := Option.map_eq_some_iff.1 hcall
    exact ⟨⟨n, hn, call, hcall, hcallee⟩, hg, hentry⟩
  have hfg := hcalls hg (hfnames ▸ List.mem_cons_self) hgentry
  have hgf := hcalls hf (hgnames ▸ List.mem_cons_self) hfentry
  obtain ⟨os, ht⟩ := h.traced_of_start
  obtain ⟨hchains, -, -⟩ := transitive_callees_are_call_chains h (fun _ _ => ht.assembled)
    ht.apart {}
  refine ⟨events, s, f, g, h, hf, hg, hfg, hgf, ?_, ?_⟩
  · exact (hchains _ _ f g hf hg).2 (.single hfg)
  · exact (hchains _ _ f f hf hf).2 (.tail (.single hfg) hgf)

end Store

end ProgramFlow
