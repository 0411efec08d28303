import ProgramFlow.Graph

/-! Appending one graph to another: which nodes and edges the result has, and that the payload of
a node that is there already can be changed before or after. What the operations make is well
formed: edges lie between nodes and differ in their keys, and nodes differ in their identities. -/
namespace ProgramFlow.Graph

variable {ν ε κ : Type} [Vertex ν] [Arc ε κ]

theorem hasNode_iff {g : Graph ν ε} {id : NodeId} : g.hasNode id = true ↔ id ∈ g.nodeIds := by
  simp [hasNode, nodeIds]

theorem isSome_node? {g : Graph ν ε} {id : NodeId} :
    (g.node? id).isSome = true ↔ id ∈ g.nodeIds := by
  simp [node?, nodeIds]

@[simp] theorem edges_addNode (g : Graph ν ε) (n : ν) : (g.addNode n).2.edges = g.edges := by
  unfold addNode
  split <;> rfl

theorem node?_addNode (g : Graph ν ε) (n : ν) (id : NodeId) :
    (g.addNode n).2.node? id =
      (g.node? id).or (if Vertex.id n = id then some n else none) := by
  unfold addNode
  split
  · next h =>
    split
    · next hid =>
      rw [hasNode_iff, hid, ← isSome_node?] at h
      exact (Option.or_of_isSome h).symm
    · exact Option.or_none.symm
  · rw [node?, List.find?_append, List.find?_singleton]
    simp [node?]

theorem mem_nodeIds_addNode {g : Graph ν ε} {id : NodeId} (h : id ∈ g.nodeIds) (n : ν) :
    id ∈ (g.addNode n).2.nodeIds := by
  rw [← isSome_node?, node?_addNode, Option.isSome_or, isSome_node?.2 h, Bool.true_or]

@[simp] theorem addNodes_nil (g : Graph ν ε) : g.addNodes [] = g := rfl

@[simp] theorem addNodes_cons (g : Graph ν ε) (n : ν) (rest : List ν) :
    g.addNodes (n :: rest) = (g.addNode n).2.addNodes rest := rfl

@[simp] theorem edges_addNodes (g : Graph ν ε) (nodes : List ν) :
    (g.addNodes nodes).edges = g.edges := by
  induction nodes generalizing g with
  | nil => rfl
  | cons n rest ih => rw [addNodes_cons, ih, edges_addNode]

theorem node?_addNodes (g : Graph ν ε) (nodes : List ν) (id : NodeId) :
    (g.addNodes nodes).node? id = (g.node? id).or (nodes.find? fun n => Vertex.id n = id) := by
  induction nodes generalizing g with
  | nil => simp
  | cons n rest ih =>
    rw [addNodes_cons, ih, node?_addNode, Option.or_assoc, List.find?_cons]
    by_cases hn : Vertex.id n = id <;> simp [hn]

theorem mem_nodeIds_addNodes (g : Graph ν ε) {nodes : List ν} {id : NodeId}
    (h : id ∈ nodes.map Vertex.id) : id ∈ (g.addNodes nodes).nodeIds := by
  obtain ⟨n, hn, rfl⟩ := List.mem_map.1 h
  rw [← isSome_node?, node?_addNodes, Option.isSome_or, Bool.or_eq_true]
  exact .inr (List.find?_isSome.2 ⟨n, hn, decide_eq_true rfl⟩)

section Payload

variable {g : Graph ν ε} {id : NodeId} {f : ν → ν} (hf : ∀ n, Vertex.id (f n) = Vertex.id n)

include hf

theorem nodeIds_modifyNode : (g.modifyNode id f).nodeIds = g.nodeIds := by
  simp only [modifyNode, nodeIds, List.map_map]
  refine List.map_congr_left fun n _ => ?_
  simp only [Function.comp_apply]
  split
  · exact hf n
  · rfl

theorem hasNode_modifyNode (x : NodeId) : (g.modifyNode id f).hasNode x = g.hasNode x := by
  rw [Bool.eq_iff_iff, hasNode_iff, hasNode_iff, nodeIds_modifyNode hf]

theorem node?_modifyNode (x : NodeId) :
    (g.modifyNode id f).node? x = (g.node? x).map fun n => if x = id then f n else n := by
  have hkey : ((fun n => decide (Vertex.id n = x)) ∘ fun n => if Vertex.id n = id then f n else n) =
      fun n => decide (Vertex.id n = x) := by
    funext n
    simp only [Function.comp_apply]
    split
    · rw [hf]
    · rfl
  rw [node?, modifyNode, List.find?_map, hkey]
  refine Option.map_congr fun n hn => ?_
  have hx : Vertex.id n = x := by simpa using List.find?_some hn
  rw [hx]

theorem addNode_modifyNode (hid : id ∈ g.nodeIds) (n : ν) :
    ((g.modifyNode id f).addNode n).2 = (g.addNode n).2.modifyNode id f := by
  unfold addNode
  rw [hasNode_modifyNode hf]
  split
  · rfl
  · next h =>
    have hn : Vertex.id n ≠ id := by
      rintro rfl
      exact h (hasNode_iff.2 hid)
    simp [modifyNode, hn]

theorem addNodes_modifyNode (hid : id ∈ g.nodeIds) (nodes : List ν) :
    (g.modifyNode id f).addNodes nodes = (g.addNodes nodes).modifyNode id f := by
  induction nodes generalizing g with
  | nil => rfl
  | cons n rest ih =>
    rw [addNodes_cons, addNode_modifyNode hf hid, addNodes_cons]
    exact ih (mem_nodeIds_addNode hid n)

end Payload

section Edges

variable [DecidableEq κ]

@[simp] theorem nodes_addEdge (g : Graph ν ε) (e : ε) : (g.addEdge e).2.nodes = g.nodes := by
  unfold addEdge
  split <;> rfl

@[simp] theorem nodeIds_addEdge (g : Graph ν ε) (e : ε) : (g.addEdge e).2.nodeIds = g.nodeIds := by
  simp [nodeIds]

theorem snd_addEdges_cons (g : Graph ν ε) (e : ε) (rest : List ε) :
    (g.addEdges (e :: rest)).2 = ((g.addEdge e).2.addEdges rest).2 := rfl

@[simp] theorem nodes_addEdges (g : Graph ν ε) (edges : List ε) :
    (g.addEdges edges).2.nodes = g.nodes := by
  induction edges generalizing g with
  | nil => rfl
  | cons e rest ih => rw [snd_addEdges_cons, ih, nodes_addEdge]

theorem accepts_modifyNode {g : Graph ν ε} {id : NodeId} {f : ν → ν}
    (hf : ∀ n, Vertex.id (f n) = Vertex.id n) (e : ε) :
    (g.modifyNode id f).accepts e = g.accepts e := by
  unfold accepts
  rw [hasNode_modifyNode hf, hasNode_modifyNode hf]
  rfl

theorem addEdge_modifyNode {g : Graph ν ε} {id : NodeId} {f : ν → ν}
    (hf : ∀ n, Vertex.id (f n) = Vertex.id n) (e : ε) :
    ((g.modifyNode id f).addEdge e).2 = (g.addEdge e).2.modifyNode id f := by
  unfold addEdge
  rw [accepts_modifyNode hf]
  split <;> rfl

theorem addEdges_modifyNode {g : Graph ν ε} {id : NodeId} {f : ν → ν}
    (hf : ∀ n, Vertex.id (f n) = Vertex.id n) (edges : List ε) :
    ((g.modifyNode id f).addEdges edges).2 = (g.addEdges edges).2.modifyNode id f := by
  induction edges generalizing g with
  | nil => rfl
  | cons e rest ih => rw [snd_addEdges_cons, addEdge_modifyNode hf, ih, snd_addEdges_cons]

/-- A node that is there already keeps its place when another graph is appended, so its payload
can be changed before or after. -/
theorem append_modifyNode {g : Graph ν ε} {id : NodeId} {f : ν → ν}
    (hf : ∀ n, Vertex.id (f n) = Vertex.id n) (hid : id ∈ g.nodeIds) (h : Graph ν ε) :
    ((g.modifyNode id f).append h).2 = (g.append h).2.modifyNode id f := by
  unfold append
  rw [addNodes_modifyNode hf hid, addEdges_modifyNode hf]

theorem node?_append (g h : Graph ν ε) (id : NodeId) :
    (g.append h).2.node? id = (g.node? id).or (h.node? id) := by
  rw [node?, append, nodes_addEdges]
  exact node?_addNodes g h.nodes id

omit [Vertex ν] in
theorem hasKey_iff {g : Graph ν ε} {key : NodeId × NodeId × κ} :
    g.hasKey key = true ↔ key ∈ g.edges.map Arc.key := by
  simp [hasKey]

theorem accepts_iff {g : Graph ν ε} {e : ε} :
    g.accepts e = true ↔ Arc.source e ∈ g.nodeIds ∧ Arc.target e ∈ g.nodeIds ∧
      ∀ x ∈ g.edges, Arc.key x ≠ Arc.key e := by
  simp [accepts, hasKey, hasNode_iff, and_assoc]

theorem mem_edges_addEdge {g : Graph ν ε} {e x : ε} (h : x ∈ (g.addEdge e).2.edges) :
    x ∈ g.edges ∨ x = e := by
  unfold addEdge at h
  split at h
  · simpa using h
  · exact .inl h

theorem mem_edges_addEdge_of_mem {g : Graph ν ε} {x : ε} (h : x ∈ g.edges) (e : ε) :
    x ∈ (g.addEdge e).2.edges := by
  unfold addEdge
  split
  · exact List.mem_append_left _ h
  · exact h

theorem exists_edge_addEdge {g : Graph ν ε} {e : ε} (hs : Arc.source e ∈ g.nodeIds)
    (ht : Arc.target e ∈ g.nodeIds) :
    ∃ x ∈ (g.addEdge e).2.edges, Arc.key x = Arc.key e := by
  unfold addEdge
  split
  · exact ⟨e, List.mem_append_right _ List.mem_cons_self, rfl⟩
  · next h =>
    refine Classical.byContradiction fun hnone => h (accepts_iff.2 ⟨hs, ht, ?_⟩)
    exact fun x hx hkey => hnone ⟨x, hx, hkey⟩

theorem mem_edges_addEdges {g : Graph ν ε} {edges : List ε} {x : ε}
    (h : x ∈ (g.addEdges edges).2.edges) : x ∈ g.edges ∨ x ∈ edges := by
  induction edges generalizing g with
  | nil => exact .inl h
  | cons e rest ih =>
    rcases ih h with h | h
    · rcases mem_edges_addEdge h with h | rfl
      · exact .inl h
      · exact .inr List.mem_cons_self
    · exact .inr (List.mem_cons_of_mem e h)

theorem mem_edges_addEdges_of_mem {g : Graph ν ε} {x : ε} (h : x ∈ g.edges) (edges : List ε) :
    x ∈ (g.addEdges edges).2.edges := by
  induction edges generalizing g with
  | nil => exact h
  | cons e rest ih => exact ih (mem_edges_addEdge_of_mem h e)

theorem edges_addEdges {g : Graph ν ε} {edges : List ε}
    (hends : ∀ e ∈ edges, Arc.source e ∈ g.nodeIds ∧ Arc.target e ∈ g.nodeIds)
    (hkeys : (edges.map Arc.key).Nodup)
    (hnew : ∀ e ∈ edges, ∀ x ∈ g.edges, Arc.key x ≠ Arc.key e) :
    (g.addEdges edges).2.edges = g.edges ++ edges := by
  induction edges generalizing g with
  | nil => exact (List.append_nil _).symm
  | cons e rest ih =>
    obtain ⟨⟨hs, ht⟩, hrest⟩ := List.forall_mem_cons.1 hends
    obtain ⟨he, hnewrest⟩ := List.forall_mem_cons.1 hnew
    obtain ⟨hkey, hkeys⟩ := List.nodup_cons.1 hkeys
    have hadd : (g.addEdge e).2.edges = g.edges ++ [e] := by
      rw [addEdge, if_pos (accepts_iff.2 ⟨hs, ht, he⟩)]
    rw [snd_addEdges_cons, ih (nodeIds_addEdge g e ▸ hrest) hkeys]
    · rw [hadd, List.append_assoc, List.singleton_append]
    · intro e' he' x hx
      rw [hadd] at hx
      rcases List.mem_append.1 hx with hx | hx
      · exact hnewrest e' he' x hx
      · rw [List.mem_singleton.1 hx]
        exact fun heq => hkey (heq ▸ List.mem_map_of_mem he')

/-- The graphs that operations on graphs make: nodes and edges are added where that is allowed, and
payloads change without the identity of their node. -/
inductive Made : Graph ν ε → Prop where
  | empty : Made {}
  | addNode {g} (n : ν) : Made g → Made (g.addNode n).2
  | addEdge {g} (e : ε) : Made g → Made (g.addEdge e).2
  | mapNodes {g} (f : ν → ν) (hf : ∀ n, Vertex.id (f n) = Vertex.id n) :
      Made g → Made { g with nodes := g.nodes.map f }

structure WellFormed (g : Graph ν ε) : Prop where
  ends : ∀ e ∈ g.edges, Arc.source e ∈ g.nodeIds ∧ Arc.target e ∈ g.nodeIds
  keys : (g.edges.map Arc.key).Nodup

theorem Made.wellFormed {g : Graph ν ε} (h : g.Made) : g.WellFormed := by
  induction h with
  | empty => exact ⟨by simp, by simp⟩
  | @addNode g n _ ih =>
    refine ⟨fun e he => ?_, by rw [edges_addNode]; exact ih.keys⟩
    rw [edges_addNode] at he
    obtain ⟨hs, ht⟩ := ih.ends e he
    exact ⟨mem_nodeIds_addNode hs n, mem_nodeIds_addNode ht n⟩
  | @addEdge g e _ ih =>
    unfold Graph.addEdge
    split
    · next h =>
      obtain ⟨hs, ht, hnew⟩ := accepts_iff.1 h
      refine ⟨fun x hx => ?_, ?_⟩
      · rcases List.mem_append.1 hx with hx | hx
        · exact ih.ends x hx
        · rw [List.mem_singleton.1 hx]
          exact ⟨hs, ht⟩
      · rw [List.map_append, List.nodup_append]
        refine ⟨ih.keys, by simp, ?_⟩
        intro key hkey key' hkey' heq
        obtain ⟨x, hx, rfl⟩ := List.mem_map.1 hkey
        rw [List.map_singleton, List.mem_singleton] at hkey'
        exact hnew x hx (heq.trans hkey')
    · exact ih
  | @mapNodes g f hf _ ih =>
    have hids : ({ g with nodes := g.nodes.map f } : Graph ν ε).nodeIds = g.nodeIds := by
      simp [nodeIds, hf]
    exact ⟨fun e he => hids ▸ ih.ends e he, ih.keys⟩

theorem Made.nodup_nodeIds {g : Graph ν ε} (h : g.Made) : g.nodeIds.Nodup := by
  induction h with
  | empty => exact List.nodup_nil
  | @addNode g n _ ih =>
    unfold Graph.addNode
    split
    · exact ih
    · next hn =>
      have hnew : Vertex.id n ∉ g.nodeIds := fun h => hn (hasNode_iff.2 h)
      rw [nodeIds, List.map_append, List.nodup_append]
      refine ⟨ih, by simp, ?_⟩
      intro id hid id' hid' heq
      rw [List.map_singleton, List.mem_singleton] at hid'
      apply hnew
      rw [← hid', ← heq]
      exact hid
  | @addEdge g e _ ih =>
    rw [nodeIds_addEdge]
    exact ih
  | @mapNodes g f hf _ ih =>
    have hids : ({ g with nodes := g.nodes.map f } : Graph ν ε).nodeIds = g.nodeIds := by
      simp [nodeIds, hf]
    rw [hids]
    exact ih

namespace Made

variable {g : Graph ν ε}

theorem modifyNode (h : g.Made) {f : ν → ν} (hf : ∀ n, Vertex.id (f n) = Vertex.id n)
    (id : NodeId) : (g.modifyNode id f).Made := by
  refine h.mapNodes _ fun n => ?_
  split
  · exact hf n
  · rfl

theorem addNodes (h : g.Made) (nodes : List ν) : (g.addNodes nodes).Made := by
  induction nodes generalizing g with
  | nil => exact h
  | cons n rest ih => exact ih (h.addNode n)

theorem addEdges (h : g.Made) (edges : List ε) : (g.addEdges edges).2.Made := by
  induction edges generalizing g with
  | nil => exact h
  | cons e rest ih => exact ih (h.addEdge e)

theorem append (h : g.Made) (g' : Graph ν ε) : (g.append g').2.Made :=
  (h.addNodes g'.nodes).addEdges g'.edges

theorem ofLists (nodes : List ν) (edges : List ε) : (ofLists nodes edges).Made :=
  (empty.addNodes nodes).addEdges edges

end Made

/-- If no edge leaves a node that is in the other graph too, all edges of that graph are added. -/
theorem edges_append {g h : Graph ν ε} (hh : h.WellFormed)
    (hnew : ∀ e ∈ g.edges, Arc.source e ∉ h.nodeIds) :
    (g.append h).2.edges = g.edges ++ h.edges := by
  have hids : ∀ id ∈ h.nodeIds, id ∈ (g.addNodes h.nodes).nodeIds :=
    fun _ hid => g.mem_nodeIds_addNodes hid
  have hadd := edges_addEdges (g := g.addNodes h.nodes)
    (fun e he => ⟨hids _ (hh.ends e he).1, hids _ (hh.ends e he).2⟩) hh.keys
    (fun e he x hx hkey => ?_)
  · rwa [edges_addNodes] at hadd
  · rw [edges_addNodes] at hx
    have hsource : Arc.source x = Arc.source e := congrArg Prod.fst hkey
    exact hnew x hx (hsource ▸ (hh.ends e he).1)

end Edges

end ProgramFlow.Graph
