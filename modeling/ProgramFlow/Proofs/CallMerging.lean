import ProgramFlow.Proofs.CallClosure

/-! Call graphs that are merged. To append the call graph of some links adds its nodes first and its
edges after them, where adding the links takes up both in turns. The result is the same, since either
way a node or an edge is refused exactly if its identity or key has come before. Everything else about
merging follows from this for lists of links: one after the other is one list. -/
namespace ProgramFlow.CallGraph

variable {g h : CallGraph}

theorem eq_of_lists (hnodes : g.nodes = h.nodes) (hedges : g.edges = h.edges) : g = h := by
  rcases g with ⟨⟨nodes, edges⟩⟩
  rcases h with ⟨⟨nodes', edges'⟩⟩
  cases hnodes
  cases hedges
  rfl

theorem nodes_addLinks (g : CallGraph) (links : List CallLink) :
    (g.addLinks links).nodes = (links.flatMap endsOf).foldl (addNew Vertex.id) g.nodes := by
  induction links generalizing g with
  | nil => rfl
  | cons l rest ih =>
    have hrest := ih (g.addLink l).2
    rw [nodes_addLink, ← List.foldl_append, ← List.flatMap_cons] at hrest
    exact hrest

theorem edges_addLinks (g : CallGraph) (links : List CallLink) :
    (g.addLinks links).edges = (links.map edgeOf).foldl (addNew Arc.key) g.edges := by
  induction links generalizing g with
  | nil => rfl
  | cons l rest ih =>
    have hrest := ih (g.addLink l).2
    rw [edges_addLink] at hrest
    exact hrest

theorem addLinks_again (g : CallGraph) (links : List CallLink) :
    (g.addLinks links).addLinks links = g.addLinks links := by
  apply eq_of_lists
  · rw [nodes_addLinks, nodes_addLinks, foldl_addNew_again]
  · rw [edges_addLinks, edges_addLinks, foldl_addNew_again]

def ofLinks (links : List CallLink) : CallGraph := empty.addLinks links

theorem made_ofLinks (links : List CallLink) : (ofLinks links).graph.Made :=
  made_addLinks .empty links

theorem nodes_ofLinks (links : List CallLink) :
    (ofLinks links).nodes = firsts Vertex.id (links.flatMap endsOf) := by
  rw [ofLinks, nodes_addLinks]
  exact foldl_addNew_nil Vertex.id _

theorem edges_ofLinks (links : List CallLink) :
    (ofLinks links).edges = firsts Arc.key (links.map edgeOf) := by
  rw [ofLinks, edges_addLinks]
  exact foldl_addNew_nil Arc.key _

theorem addLinks_ofLinks (first second : List CallLink) :
    (ofLinks first).addLinks second = ofLinks (first ++ second) := by
  unfold ofLinks addLinks
  rw [List.foldl_append]

/-- To append a call graph is to add its links, whatever there was before. -/
theorem append_ofLinks (g : CallGraph) (links : List CallLink) :
    (g.append (ofLinks links)).2 = g.addLinks links := by
  apply eq_of_lists
  · calc (g.append (ofLinks links)).2.nodes
        = (ofLinks links).nodes.foldl (addNew Vertex.id) g.nodes := Graph.nodes_append ..
      _ = (links.flatMap endsOf).foldl (addNew Vertex.id) g.nodes := by
        rw [nodes_ofLinks, foldl_addNew_firsts]
      _ = (g.addLinks links).nodes := (nodes_addLinks g links).symm
  · calc (g.append (ofLinks links)).2.edges
        = (ofLinks links).edges.foldl (addNew Arc.key) g.edges :=
          Graph.edges_append_eq_foldl _ (made_ofLinks links).wellFormed
      _ = (links.map edgeOf).foldl (addNew Arc.key) g.edges := by
        rw [edges_ofLinks, foldl_addNew_firsts]
      _ = (g.addLinks links).edges := (edges_addLinks g links).symm

theorem append_ofLinks_ofLinks (first second : List CallLink) :
    ((ofLinks first).append (ofLinks second)).2 = ofLinks (first ++ second) := by
  rw [append_ofLinks, addLinks_ofLinks]

/-- An edge is its key, so what is counted are the edges that were not there. -/
theorem count_append (g : CallGraph) (hh : h.graph.Made) :
    (g.append h).1 = (h.edges.filter fun e => e ∉ g.edges).length := by
  have hcount : (g.append h).1 = (h.edges.filter fun e => !g.graph.hasKey (Arc.key e)).length :=
    Graph.count_append g.graph hh.wellFormed
  rw [hcount]
  congr 1
  apply List.filter_congr
  intro e _
  rw [Bool.eq_iff_iff, Bool.not_eq_true', decide_eq_true_eq, ← Bool.not_eq_true, Graph.hasKey_iff,
    List.mem_map_of_injective key_injective]
  rfl

theorem mem_edges_append {e : CallEdge} (first second : List CallLink) :
    e ∈ ((ofLinks first).append (ofLinks second)).2.edges ↔
      e ∈ (ofLinks first).edges ∨ e ∈ (ofLinks second).edges := by
  rw [append_ofLinks, mem_edges_addLinks, ofLinks, ofLinks, mem_edges_addLinks, mem_edges_addLinks]
  simp [CallGraph.edges, empty]

theorem transitiveCallees_mono (hg : g.graph.Made) (hh : h.graph.Made)
    (hsub : ∀ e ∈ g.edges, e ∈ h.edges) {entry x : NodeId} (hx : x ∈ g.transitiveCallees entry) :
    x ∈ h.transitiveCallees entry := by
  rw [mem_transitiveCallees hg] at hx
  rw [mem_transitiveCallees hh]
  refine Relation.TransGen.mono (fun y z hyz => ?_) _ _ hx
  obtain ⟨e, he, hends⟩ := mem_successors.1 hyz
  exact mem_successors.2 ⟨e, hsub e he, hends⟩

/-- To append the call graph of some links to that of others is to build one graph from all of them,
and the count is that of the edges the first graph did not have. So it does not matter in which order
graphs are merged as long as their own order stays, an empty graph changes nothing, a second time
nothing is added, and no method that could be reached before is lost. -/
theorem merged_call_graphs_are_built_in_one_go (first second third : List CallLink) :
    let g := ofLinks first
    let h := ofLinks second
    let k := ofLinks third
    (g.append h).2 = ofLinks (first ++ second) ∧
    (g.append h).1 = (h.edges.filter fun e => e ∉ g.edges).length ∧
    ((g.append h).2.append k).2 = (g.append (h.append k).2).2 ∧
    g.append empty = (0, g) ∧ (empty.append g).2 = g ∧
    (g.append h).2.append h = (0, (g.append h).2) ∧
    ∀ entry x, x ∈ g.transitiveCallees entry ∨ x ∈ h.transitiveCallees entry →
      x ∈ (g.append h).2.transitiveCallees entry := by
  intro g h k
  have hmerged : (g.append h).2.graph.Made := by
    rw [append_ofLinks_ofLinks]
    exact made_ofLinks _
  refine ⟨append_ofLinks_ofLinks first second, count_append g (made_ofLinks second), ?_, rfl,
    append_ofLinks empty first, ?_, ?_⟩
  · rw [append_ofLinks_ofLinks second third, append_ofLinks, append_ofLinks, append_ofLinks,
      addLinks_ofLinks, addLinks_ofLinks, addLinks_ofLinks, List.append_assoc]
  · have hedges : ∀ e ∈ h.edges, e ∈ (g.append h).2.edges := fun e he =>
      (mem_edges_append first second).2 (.inr he)
    refine Prod.ext ?_ ?_
    · rw [count_append _ (made_ofLinks second)]
      simpa using hedges
    · rw [append_ofLinks, append_ofLinks, addLinks_again]
  · rintro entry x (hx | hx)
    · exact transitiveCallees_mono (made_ofLinks first) hmerged
        (fun e he => (mem_edges_append first second).2 (.inl he)) hx
    · exact transitiveCallees_mono (made_ofLinks second) hmerged
        (fun e he => (mem_edges_append first second).2 (.inr he)) hx

def plainLink (caller callee : CallNode) (site : NodeId) : CallLink where
  caller := caller.qualifiedName
  callerEntry := caller.entry
  callSite := site
  callee := callee.qualifiedName
  calleeEntry := callee.entry
  callEdge := ⟨site, callee.entry, .methodCall, none⟩
  parameterEdges := []
  arityMismatch := none

/-- One of the two edges that are appended is new, and with it what its caller leads to. -/
theorem merged_call_graphs_are_built_in_one_go_with_shared_call :
    let main : CallNode := ⟨1, "main"⟩
    let a : CallNode := ⟨10, "a"⟩
    let c : CallNode := ⟨30, "c"⟩
    let first := [plainLink main a 3, plainLink main a 4, plainLink a main 11]
    let second := [plainLink main a 3, plainLink c main 31]
    ((ofLinks first).append (ofLinks second)).2 = ofLinks (first ++ second) ∧
      ((ofLinks first).append (ofLinks second)).1 = 1 ∧
      (10 ∈ (ofLinks first).transitiveCallees 10 ∧
        10 ∈ ((ofLinks first).append (ofLinks second)).2.transitiveCallees 10) := by
  intro main a c first second
  obtain ⟨hone, hcount, -, -, -, -, hkept⟩ := merged_call_graphs_are_built_in_one_go first second []
  have hcycle : (10 : NodeId) ∈ (ofLinks first).transitiveCallees 10 := by decide +kernel
  exact ⟨hone, hcount.trans (by decide +kernel), hcycle, hkept 10 10 (.inl hcycle)⟩

end ProgramFlow.CallGraph
