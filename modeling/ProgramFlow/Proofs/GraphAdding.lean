import ProgramFlow.Proofs.Firsts
import ProgramFlow.Proofs.GraphAppend

/-! Nodes and edges that are added one after the other. A graph has the first node of each identity,
and of the edges offered between its nodes the first of each key, in the order in which they were
offered. -/
namespace ProgramFlow

namespace Graph

variable {ν ε κ : Type} [Vertex ν] [Arc ε κ]

theorem nodes_addNode (g : Graph ν ε) (n : ν) :
    (g.addNode n).2.nodes = addNew Vertex.id g.nodes n := by
  by_cases hn : Vertex.id n ∈ g.nodes.map Vertex.id
  · rw [addNode, if_pos (hasNode_iff.2 hn), addNew, if_pos hn]
  · rw [addNode, if_neg (fun h => hn (hasNode_iff.1 h)), addNew, if_neg hn]

theorem nodes_addNodes (g : Graph ν ε) (nodes : List ν) :
    (g.addNodes nodes).nodes = nodes.foldl (addNew Vertex.id) g.nodes := by
  induction nodes generalizing g with
  | nil => rfl
  | cons n rest ih => rw [addNodes_cons, ih, nodes_addNode, List.foldl_cons]

theorem nodes_empty_addNodes (nodes : List ν) :
    (empty.addNodes nodes : Graph ν ε).nodes = firsts Vertex.id nodes := by
  rw [nodes_addNodes]
  exact foldl_addNew_nil Vertex.id nodes

variable [DecidableEq κ]

theorem edges_addEdge_of_ends {g : Graph ν ε} {e : ε} (hs : Arc.source e ∈ g.nodeIds)
    (ht : Arc.target e ∈ g.nodeIds) : (g.addEdge e).2.edges = addNew Arc.key g.edges e := by
  by_cases hkey : Arc.key e ∈ g.edges.map Arc.key
  · rw [addNew, if_pos hkey, addEdge, if_neg]
    intro haccepts
    obtain ⟨x, hx, hxe⟩ := List.mem_map.1 hkey
    exact (accepts_iff.1 haccepts).2.2 x hx hxe
  · rw [addNew, if_neg hkey, addEdge, if_pos]
    exact accepts_iff.2 ⟨hs, ht, fun x hx hxe => hkey (hxe ▸ List.mem_map_of_mem hx)⟩

/-- An edge without its ends is left out whatever its key. -/
theorem edges_addEdges_eq_foldl (g : Graph ν ε) (edges : List ε) :
    (g.addEdges edges).2.edges =
      (edges.filter fun e => Arc.source e ∈ g.nodeIds ∧ Arc.target e ∈ g.nodeIds).foldl
        (addNew Arc.key) g.edges := by
  induction edges generalizing g with
  | nil => rfl
  | cons e rest ih =>
    rw [snd_addEdges_cons, ih, nodeIds_addEdge]
    by_cases hends : Arc.source e ∈ g.nodeIds ∧ Arc.target e ∈ g.nodeIds
    · rw [List.filter_cons_of_pos (by simpa using hends), List.foldl_cons,
        edges_addEdge_of_ends hends.1 hends.2]
    · rw [List.filter_cons_of_neg (by simpa using hends), addEdge, if_neg]
      exact fun haccepts => hends ⟨(accepts_iff.1 haccepts).1, (accepts_iff.1 haccepts).2.1⟩

/-- The count tells by how many edges the graph has grown. -/
theorem length_edges_addEdges (g : Graph ν ε) (edges : List ε) :
    (g.addEdges edges).2.edges.length = g.edges.length + (g.addEdges edges).1 := by
  induction edges generalizing g with
  | nil => rfl
  | cons e rest ih =>
    have hrest := ih (g.addEdge e).2
    rw [snd_addEdges_cons, hrest, addEdges]
    by_cases haccepts : g.accepts e = true
    · simp only [addEdge, if_pos haccepts, List.length_append, List.length_singleton, if_true]
      omega
    · simp only [addEdge, if_neg haccepts, Bool.false_eq_true, if_false]

section Append

variable {g h : Graph ν ε}

theorem nodes_append (g h : Graph ν ε) :
    (g.append h).2.nodes = h.nodes.foldl (addNew Vertex.id) g.nodes := by
  rw [append, nodes_addEdges, nodes_addNodes]

theorem edges_append_eq_foldl (g : Graph ν ε) (hh : h.WellFormed) :
    (g.append h).2.edges = h.edges.foldl (addNew Arc.key) g.edges := by
  have hall : (h.edges.filter fun e => Arc.source e ∈ (g.addNodes h.nodes).nodeIds ∧
      Arc.target e ∈ (g.addNodes h.nodes).nodeIds) = h.edges := by
    rw [List.filter_eq_self]
    intro e he
    obtain ⟨hs, ht⟩ := hh.ends e he
    simpa using ⟨g.mem_nodeIds_addNodes hs, g.mem_nodeIds_addNodes ht⟩
  rw [append, edges_addEdges_eq_foldl, hall, edges_addNodes]

/-- What is appended comes behind, unless its key was there. -/
theorem edges_append_eq_filter (g : Graph ν ε) (hh : h.WellFormed) :
    (g.append h).2.edges = g.edges ++ h.edges.filter fun e => !g.hasKey (Arc.key e) := by
  rw [edges_append_eq_foldl g hh]
  exact foldl_addNew_of_nodup hh.keys fun e => hasKey_iff

theorem count_append (g : Graph ν ε) (hh : h.WellFormed) :
    (g.append h).1 = (h.edges.filter fun e => !g.hasKey (Arc.key e)).length := by
  have hlength := length_edges_addEdges (g.addNodes h.nodes) h.edges
  rw [← append, edges_append_eq_filter g hh, edges_addNodes, List.length_append] at hlength
  omega

end Append

theorem nodes_ofLists (nodes : List ν) (edges : List ε) :
    (ofLists nodes edges).nodes = firsts Vertex.id nodes := by
  rw [ofLists, nodes_addEdges, nodes_empty_addNodes]

theorem edges_ofLists (nodes : List ν) (edges : List ε) :
    (ofLists nodes edges).edges = firsts Arc.key (edges.filter fun e =>
      Arc.source e ∈ nodes.map Vertex.id ∧ Arc.target e ∈ nodes.map Vertex.id) := by
  have hids : ∀ id, id ∈ (empty.addNodes nodes : Graph ν ε).nodeIds ↔ id ∈ nodes.map Vertex.id := by
    intro id
    rw [nodeIds, nodes_empty_addNodes]
    exact mem_map_firsts Vertex.id
  rw [ofLists, edges_addEdges_eq_foldl, edges_addNodes]
  simp only [hids]
  exact foldl_addNew_nil Arc.key _

/-- Nothing is left out of what a graph lists that was made by adding. -/
theorem ofLists_of_made {g : Graph ν ε} (h : g.Made) {nodes : List ν}
    (hids : nodes.map Vertex.id = g.nodeIds) : ofLists nodes g.edges = ⟨nodes, g.edges⟩ := by
  have hnodes : (ofLists nodes g.edges).nodes = nodes := by
    rw [nodes_ofLists]
    exact firsts_eq_self (hids ▸ h.nodup_nodeIds)
  have hedges : (ofLists nodes g.edges).edges = g.edges := by
    have hall : (g.edges.filter fun e =>
        Arc.source e ∈ nodes.map Vertex.id ∧ Arc.target e ∈ nodes.map Vertex.id) = g.edges := by
      rw [List.filter_eq_self]
      intro e he
      rw [hids]
      simpa using h.wellFormed.ends e he
    rw [edges_ofLists, hall]
    exact firsts_eq_self h.wellFormed.keys
  calc ofLists nodes g.edges
      = ⟨(ofLists nodes g.edges).nodes, (ofLists nodes g.edges).edges⟩ := rfl
    _ = ⟨nodes, g.edges⟩ := by rw [hnodes, hedges]

end Graph

end ProgramFlow
