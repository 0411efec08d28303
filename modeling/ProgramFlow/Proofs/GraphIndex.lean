import ProgramFlow.CallGraph
import ProgramFlow.Proofs.GraphAdding

/-! Graphs that are looked up by position. A graph can be kept as a store of nodes and of edges that
name their ends by position, with a map from identities to positions and a set of the keys of its
edges beside it. Whatever is added and merged, the three stay in step, and every question has the
answer that the lists of nodes and edges give. -/
namespace ProgramFlow

inductive GraphCall (ν ε : Type) where
  | node (n : ν)
  | edge (e : ε)
  | append (calls : List (GraphCall ν ε))

namespace GraphCall

structure Meaning (γ ν ε : Type) where
  start : γ
  node : γ → ν → γ
  edge : γ → ε → γ
  append : γ → γ → γ

namespace Meaning

variable {γ δ ν ε : Type}

mutual

def call (m : Meaning γ ν ε) (x : γ) : GraphCall ν ε → γ
  | .node n => m.node x n
  | .edge e => m.edge x e
  | .append calls => m.append x (m.runFrom m.start calls)

def runFrom (m : Meaning γ ν ε) (x : γ) : List (GraphCall ν ε) → γ
  | [] => x
  | c :: rest => m.runFrom (m.call x c) rest

end

def run (m : Meaning γ ν ε) (calls : List (GraphCall ν ε)) : γ := m.runFrom m.start calls

structure Preserves (m : Meaning γ ν ε) (m' : Meaning δ ν ε) (R : γ → δ → Prop) : Prop where
  start : R m.start m'.start
  node : ∀ {x y} (n : ν), R x y → R (m.node x n) (m'.node y n)
  edge : ∀ {x y} (e : ε), R x y → R (m.edge x e) (m'.edge y e)
  append : ∀ {x y x' y'}, R x y → R x' y' → R (m.append x x') (m'.append y y')

namespace Preserves

variable {m : Meaning γ ν ε} {m' : Meaning δ ν ε} {R : γ → δ → Prop}

mutual

theorem call (h : m.Preserves m' R) {x : γ} {y : δ} (hxy : R x y) :
    ∀ c : GraphCall ν ε, R (m.call x c) (m'.call y c)
  | .node n => h.node n hxy
  | .edge e => h.edge e hxy
  | .append calls => h.append hxy (h.runFrom h.start calls)

theorem runFrom (h : m.Preserves m' R) {x : γ} {y : δ} (hxy : R x y) :
    ∀ calls : List (GraphCall ν ε), R (m.runFrom x calls) (m'.runFrom y calls)
  | [] => hxy
  | c :: rest => h.runFrom (h.call hxy c) rest

end

theorem run (h : m.Preserves m' R) (calls : List (GraphCall ν ε)) : R (m.run calls) (m'.run calls) :=
  h.runFrom h.start calls

end Preserves

end Meaning

def offers {ν ε : Type} : Meaning (List ν) ν ε where
  start := []
  node nodes n := nodes ++ [n]
  edge nodes _ := nodes
  append nodes more := nodes ++ more

end GraphCall

structure PlacedEdge (ε : Type) where
  source : Nat
  target : Nat
  edge : ε

/-- A store of nodes and placed edges, the position of each node by identity, and the keys in use. -/
structure IndexedGraph (ν ε κ : Type) where
  nodes : List ν := []
  placed : List (PlacedEdge ε) := []
  positions : List (NodeId × Nat) := []
  keys : List (NodeId × NodeId × κ) := []

namespace IndexedGraph

variable {ν ε κ : Type}

def edges (x : IndexedGraph ν ε κ) : List ε := x.placed.map PlacedEdge.edge

def position? (x : IndexedGraph ν ε κ) (id : NodeId) : Option Nat := x.positions.lookup id

def node? (x : IndexedGraph ν ε κ) (id : NodeId) : Option ν :=
  (x.position? id).bind fun i => x.nodes[i]?

def directed (x : IndexedGraph ν ε κ) (side : PlacedEdge ε → Nat) (id : NodeId) : List ε :=
  match x.position? id with
  | some i => ((x.placed.filter fun p => side p = i).map PlacedEdge.edge).reverse
  | none => []

def outgoing (x : IndexedGraph ν ε κ) (id : NodeId) : List ε := x.directed PlacedEdge.source id

def incoming (x : IndexedGraph ν ε κ) (id : NodeId) : List ε := x.directed PlacedEdge.target id

section Adding

variable [Vertex ν] [Arc ε κ] [DecidableEq κ]

def hasKey (x : IndexedGraph ν ε κ) (key : NodeId × NodeId × κ) : Bool := x.keys.any fun k => k = key

def addNode (x : IndexedGraph ν ε κ) (n : ν) : Bool × IndexedGraph ν ε κ :=
  if (x.position? (Vertex.id n)).isSome then (false, x)
  else (true, { x with
    nodes := x.nodes ++ [n]
    positions := (Vertex.id n, x.nodes.length) :: x.positions })

def addEdge (x : IndexedGraph ν ε κ) (e : ε) : Bool × IndexedGraph ν ε κ :=
  if x.hasKey (Arc.key e) then (false, x)
  else
    match x.position? (Arc.source e), x.position? (Arc.target e) with
    | some i, some j =>
      (true, { x with placed := x.placed ++ [⟨i, j, e⟩], keys := Arc.key e :: x.keys })
    | _, _ => (false, x)

def addNodes (x : IndexedGraph ν ε κ) (nodes : List ν) : IndexedGraph ν ε κ :=
  nodes.foldl (fun x n => (x.addNode n).2) x

def addEdges (x : IndexedGraph ν ε κ) : List ε → Nat × IndexedGraph ν ε κ
  | [] => (0, x)
  | e :: rest =>
    let (added, x) := x.addEdge e
    let (count, x) := x.addEdges rest
    (if added then count + 1 else count, x)

def append (x y : IndexedGraph ν ε κ) : Nat × IndexedGraph ν ε κ :=
  (x.addNodes y.nodes).addEdges y.edges

end Adding

/-- The three structures are in step with each other and with the lists of a graph. -/
structure InStep [Vertex ν] [Arc ε κ] (x : IndexedGraph ν ε κ) (g : Graph ν ε) : Prop where
  nodes : x.nodes = g.nodes
  edges : x.edges = g.edges
  positions : ∀ id, x.position? id = x.nodes.findIdx? fun n => Vertex.id n = id
  sources : ∀ p ∈ x.placed, x.position? (Arc.source p.edge) = some p.source
  targets : ∀ p ∈ x.placed, x.position? (Arc.target p.edge) = some p.target
  keys : ∀ key, key ∈ x.keys ↔ key ∈ x.edges.map Arc.key

namespace InStep

variable [Vertex ν] [Arc ε κ] {x y : IndexedGraph ν ε κ} {g h : Graph ν ε}

theorem empty : InStep ({} : IndexedGraph ν ε κ) {} where
  nodes := rfl
  edges := rfl
  positions _ := rfl
  sources _ hp := absurd hp List.not_mem_nil
  targets _ hp := absurd hp List.not_mem_nil
  keys _ := Iff.rfl

section Questions

variable (hx : x.InStep g)

include hx

theorem isSome_position? (id : NodeId) : (x.position? id).isSome = g.hasNode id := by
  rw [hx.positions, List.findIdx?_isSome, hx.nodes, Graph.hasNode]

theorem position?_eq_none {id : NodeId} (hid : ¬ g.hasNode id = true) : x.position? id = none := by
  rw [← Option.not_isSome_iff_eq_none, hx.isSome_position?]
  exact hid

theorem node?_eq (id : NodeId) : x.node? id = g.node? id := by
  rw [node?, hx.positions, Graph.node?, ← hx.nodes, List.find?_eq_bind_findIdx?_getElem?]

theorem hasKey_eq [DecidableEq κ] (key : NodeId × NodeId × κ) : x.hasKey key = g.hasKey key := by
  rw [Bool.eq_iff_iff, Graph.hasKey_iff, ← hx.edges, ← hx.keys]
  simp [hasKey]

theorem position_inj {id id' : NodeId} {i : Nat} (hid : x.position? id = some i)
    (hid' : x.position? id' = some i) : id = id' := by
  rw [hx.positions, List.findIdx?_eq_some_iff_getElem] at hid hid'
  obtain ⟨_, hi, _⟩ := hid
  obtain ⟨_, hi', _⟩ := hid'
  exact (of_decide_eq_true hi).symm.trans (of_decide_eq_true hi')

/-- To look for a position among the placed edges is to look for the identity among the edges. -/
theorem directed_eq {side : PlacedEdge ε → Nat} {side' : ε → NodeId}
    (hside : ∀ p ∈ x.placed, x.position? (side' p.edge) = some (side p)) (id : NodeId) :
    x.directed side id = (g.edges.filter fun e => side' e = id).reverse := by
  rw [← hx.edges, IndexedGraph.edges, List.filter_map]
  cases hid : x.position? id with
  | none =>
    -- the ends of a placed edge have positions
    have hnone : (x.placed.filter ((fun e => decide (side' e = id)) ∘ PlacedEdge.edge)) = [] := by
      rw [List.filter_eq_nil_iff]
      intro p hp heq
      have hp' := hside p hp
      rw [of_decide_eq_true heq, hid] at hp'
      cases hp'
    simp only [directed, hid, hnone, List.map_nil, List.reverse_nil]
  | some i =>
    have hsame : (x.placed.filter fun p => decide (side p = i)) =
        x.placed.filter ((fun e => decide (side' e = id)) ∘ PlacedEdge.edge) := by
      refine List.filter_congr fun p hp => ?_
      have hp' := hside p hp
      rw [Function.comp_apply, decide_eq_decide]
      constructor
      · intro hi
        exact hx.position_inj (hi ▸ hp') hid
      · intro heq
        rw [heq, hid] at hp'
        exact (Option.some.inj hp').symm
    simp only [directed, hid, hsame]

theorem directed_of_unknown {id : NodeId} (hid : id ∉ g.nodeIds) (side : PlacedEdge ε → Nat) :
    x.directed side id = [] := by
  rw [directed, hx.position?_eq_none fun hnode => hid (Graph.hasNode_iff.1 hnode)]

theorem outgoing_eq (id : NodeId) : x.outgoing id = g.outgoing id := hx.directed_eq hx.sources id

theorem incoming_eq (id : NodeId) : x.incoming id = g.incoming id := hx.directed_eq hx.targets id

end Questions

section Steps

theorem lookup_cons_of_some {positions : List (NodeId × Nat)} {id new : NodeId} {i j : Nat}
    (hnew : positions.lookup new = none) (hid : positions.lookup id = some i) :
    ((new, j) :: positions).lookup id = some i := by
  have hne : (id == new) = false := by
    rw [beq_eq_false_iff_ne]
    rintro rfl
    rw [hnew] at hid
    cases hid
  rw [List.lookup_cons, hne]
  exact hid

theorem addNode (hx : x.InStep g) (n : ν) :
    (x.addNode n).1 = (g.addNode n).1 ∧ (x.addNode n).2.InStep (g.addNode n).2 := by
  unfold IndexedGraph.addNode Graph.addNode
  rw [hx.isSome_position?]
  split
  · exact ⟨rfl, hx⟩
  · next hn =>
    have hnew : x.position? (Vertex.id n) = none := hx.position?_eq_none hn
    refine ⟨rfl, ?_, hx.edges, ?_, ?_, ?_, hx.keys⟩
    · rw [hx.nodes]
    · intro id
      rw [List.findIdx?_append, ← hx.positions]
      by_cases hid : id = Vertex.id n
      · subst hid
        rw [hnew]
        simp [position?]
      · have hne : (id == Vertex.id n) = false := beq_eq_false_iff_ne.2 hid
        simp [position?, List.lookup_cons, hne, Ne.symm hid]
    · exact fun p hp => lookup_cons_of_some hnew (hx.sources p hp)
    · exact fun p hp => lookup_cons_of_some hnew (hx.targets p hp)

theorem addNodes (hx : x.InStep g) (nodes : List ν) : (x.addNodes nodes).InStep (g.addNodes nodes) := by
  induction nodes generalizing x g with
  | nil => exact hx
  | cons n rest ih => exact ih (hx.addNode n).2

theorem place (hx : x.InStep g) {e : ε} {i j : Nat} (hs : x.position? (Arc.source e) = some i)
    (ht : x.position? (Arc.target e) = some j) :
    InStep { x with placed := x.placed ++ [⟨i, j, e⟩], keys := Arc.key e :: x.keys }
      { g with edges := g.edges ++ [e] } where
  nodes := hx.nodes
  edges := by rw [← hx.edges, IndexedGraph.edges, List.map_append]; rfl
  positions := hx.positions
  sources p hp := by
    rcases List.mem_append.1 hp with hp | hp
    · exact hx.sources p hp
    · rw [List.mem_singleton.1 hp]
      exact hs
  targets p hp := by
    rcases List.mem_append.1 hp with hp | hp
    · exact hx.targets p hp
    · rw [List.mem_singleton.1 hp]
      exact ht
  keys key := by
    rw [List.mem_cons, hx.keys, IndexedGraph.edges, IndexedGraph.edges, List.map_append,
      List.map_append, List.mem_append]
    exact or_comm.trans (or_congr_right List.mem_singleton.symm)

variable [DecidableEq κ]

theorem addEdge (hx : x.InStep g) (e : ε) :
    (x.addEdge e).1 = (g.addEdge e).1 ∧ (x.addEdge e).2.InStep (g.addEdge e).2 := by
  have haccepts : g.accepts e = (((x.position? (Arc.source e)).isSome &&
      (x.position? (Arc.target e)).isSome) && !x.hasKey (Arc.key e)) := by
    -- the key is looked up before the ends here and after them there
    rw [hx.isSome_position?, hx.isSome_position?, hx.hasKey_eq, Graph.accepts]
  unfold IndexedGraph.addEdge Graph.addEdge
  rw [haccepts]
  cases x.hasKey (Arc.key e) with
  | true => simpa using hx
  | false =>
    cases hs : x.position? (Arc.source e) with
    | none => simpa using hx
    | some i =>
      cases ht : x.position? (Arc.target e) with
      | none => simpa using hx
      | some j => exact ⟨rfl, hx.place hs ht⟩

theorem addEdges (hx : x.InStep g) (edges : List ε) :
    (x.addEdges edges).1 = (g.addEdges edges).1 ∧
      (x.addEdges edges).2.InStep (g.addEdges edges).2 := by
  induction edges generalizing x g with
  | nil => exact ⟨rfl, hx⟩
  | cons e rest ih =>
    obtain ⟨hadded, hnext⟩ := hx.addEdge e
    obtain ⟨hcount, hrest⟩ := ih hnext
    exact ⟨by simp only [IndexedGraph.addEdges, Graph.addEdges, hadded, hcount], hrest⟩

theorem append (hx : x.InStep g) (hy : y.InStep h) :
    (x.append y).1 = (g.append h).1 ∧ (x.append y).2.InStep (g.append h).2 := by
  unfold IndexedGraph.append Graph.append
  rw [hy.nodes, hy.edges]
  exact (hx.addNodes h.nodes).addEdges h.edges

end Steps

end InStep

end IndexedGraph

section Runs

open GraphCall

variable {ν ε κ : Type} [Vertex ν] [Arc ε κ] [DecidableEq κ]

def Graph.meaning : Meaning (Graph ν ε) ν ε where
  start := {}
  node g n := (g.addNode n).2
  edge g e := (g.addEdge e).2
  append g h := (g.append h).2

def IndexedGraph.meaning : Meaning (IndexedGraph ν ε κ) ν ε where
  start := {}
  node x n := (x.addNode n).2
  edge x e := (x.addEdge e).2
  append x y := (x.append y).2

theorem preserves_inStep :
    (IndexedGraph.meaning (ν := ν) (ε := ε)).Preserves Graph.meaning IndexedGraph.InStep where
  start := .empty
  node n hx := (hx.addNode n).2
  edge e hx := (hx.addEdge e).2
  append hx hy := (hx.append hy).2

theorem preserves_made :
    (Graph.meaning (ν := ν) (ε := ε)).Preserves Graph.meaning fun g _ => g.Made where
  start := .empty
  node n hg := hg.addNode n
  edge e hg := hg.addEdge e
  append hg _ := hg.append _

theorem preserves_first :
    (Graph.meaning (ν := ν) (ε := ε)).Preserves offers fun g nodes =>
      ∀ id, g.node? id = nodes.find? fun n => Vertex.id n = id where
  start _ := rfl
  node n hg id := by
    rw [Graph.meaning, Graph.node?_addNode, hg, offers, List.find?_append, List.find?_singleton]
    simp only [decide_eq_true_eq]
  edge e hg id := by
    rw [Graph.node?, Graph.meaning, Graph.nodes_addEdge]
    exact hg id
  append hg hh id := by
    rw [Graph.meaning, Graph.node?_append, hg, hh, offers, List.find?_append]

namespace Graph

def added (g : Graph ν ε) : GraphCall ν ε → List ε
  | .node _ => []
  | .edge e => if (g.addEdge e).1 then [e] else []
  | .append calls => (meaning.run calls).edges.filter fun e => !g.hasKey (Arc.key e)

theorem edges_call (g : Graph ν ε) (c : GraphCall ν ε) :
    (meaning.call g c).edges = g.edges ++ g.added c := by
  cases c with
  | node n => exact (g.edges_addNode n).trans (List.append_nil _).symm
  | edge e =>
    by_cases haccepts : g.accepts e = true
    · simp [Meaning.call, meaning, added, addEdge, haccepts]
    · simp [Meaning.call, meaning, added, addEdge, haccepts]
  | append calls => exact edges_append_eq_filter g (preserves_made.run calls).wellFormed

theorem outgoing_call (g : Graph ν ε) (c : GraphCall ν ε) (id : NodeId) :
    (meaning.call g c).outgoing id =
      ((g.added c).filter fun e => Arc.source e = id).reverse ++ g.outgoing id := by
  rw [outgoing, edges_call, List.filter_append, List.reverse_append, ← outgoing]

theorem incoming_call (g : Graph ν ε) (c : GraphCall ν ε) (id : NodeId) :
    (meaning.call g c).incoming id =
      ((g.added c).filter fun e => Arc.target e = id).reverse ++ g.incoming id := by
  rw [incoming, edges_call, List.filter_append, List.reverse_append, ← incoming]

theorem addEdge_eq_false_iff {g : Graph ν ε} {e : ε} :
    (g.addEdge e).1 = false ↔ g.hasKey (Arc.key e) = true ∨ Arc.source e ∉ g.nodeIds ∨
      Arc.target e ∉ g.nodeIds := by
  have hanswer : (g.addEdge e).1 = g.accepts e := by
    unfold addEdge
    split
    · next haccepts => exact haccepts.symm
    · next haccepts => exact (Bool.eq_false_of_not_eq_true haccepts).symm
  rw [hanswer, accepts, ← hasNode_iff, ← hasNode_iff]
  cases g.hasKey (Arc.key e) <;> cases g.hasNode (Arc.source e) <;>
    cases g.hasNode (Arc.target e) <;> simp

theorem addEdge_of_refused {g : Graph ν ε} {e : ε} (h : (g.addEdge e).1 = false) :
    (g.addEdge e).2 = g := by
  unfold addEdge at h ⊢
  split
  · next haccepts => simp [haccepts] at h
  · rfl

end Graph

namespace IndexedGraph

omit [Vertex ν] in
theorem addEdge_of_refused {x : IndexedGraph ν ε κ} {e : ε} (h : (x.addEdge e).1 = false) :
    (x.addEdge e).2 = x := by
  unfold addEdge at h ⊢
  split
  · rfl
  · next hkey =>
    split
    · next hs ht => simp [hkey, hs, ht] at h
    · rfl

structure Answers (x : IndexedGraph ν ε κ) (g : Graph ν ε) : Prop where
  nodes : x.nodes = g.nodes
  edges : x.edges = g.edges
  node? : ∀ id, x.node? id = g.node? id
  hasKey : ∀ key, x.hasKey key = g.hasKey key
  outgoing : ∀ id, x.outgoing id = g.outgoing id
  incoming : ∀ id, x.incoming id = g.incoming id
  addNode : ∀ n, (x.addNode n).1 = (g.addNode n).1
  addEdge : ∀ e, (x.addEdge e).1 = (g.addEdge e).1
  append : ∀ calls, (x.append (meaning.run calls)).1 = (g.append (Graph.meaning.run calls)).1

theorem InStep.answers {x : IndexedGraph ν ε κ} {g : Graph ν ε} (hx : x.InStep g) : x.Answers g where
  nodes := hx.nodes
  edges := hx.edges
  node? := hx.node?_eq
  hasKey := hx.hasKey_eq
  outgoing := hx.outgoing_eq
  incoming := hx.incoming_eq
  addNode n := (hx.addNode n).1
  addEdge e := (hx.addEdge e).1
  append calls := (hx.append (preserves_inStep.run calls)).1

end IndexedGraph

namespace Graph

/-- After any calls the three structures give the answers that the lists of nodes and edges give. Of the
nodes offered the first with an identity is kept; edges lie between nodes, differ in their keys, and
those keys are the ones in use. An edge is refused, and nothing changes, just if its key is in use or
an end is missing. Around a node lie the edges with an end there, each once, and what a call adds
comes before what was there. -/
theorem graph_structures_stay_in_step (calls : List (GraphCall ν ε)) :
    let g : Graph ν ε := meaning.run calls
    let x : IndexedGraph ν ε κ := IndexedGraph.meaning.run calls
    x.Answers g ∧
    (g.nodeIds.Nodup ∧ ∀ id, g.node? id = (offers.run calls).find? fun n => Vertex.id n = id) ∧
    ((g.edges.map Arc.key).Nodup ∧
      (∀ e ∈ g.edges, Arc.source e ∈ g.nodeIds ∧ Arc.target e ∈ g.nodeIds) ∧
      ∀ key, x.hasKey key = true ↔ ∃ e ∈ g.edges, Arc.key e = key) ∧
    (∀ e, ((x.addEdge e).1 = false ↔ x.hasKey (Arc.key e) = true ∨ Arc.source e ∉ g.nodeIds ∨
        Arc.target e ∉ g.nodeIds) ∧
      ((x.addEdge e).1 = false → (x.addEdge e).2 = x ∧ (g.addEdge e).2 = g)) ∧
    (∀ id, x.outgoing id = (g.edges.filter fun e => Arc.source e = id).reverse ∧
      x.incoming id = (g.edges.filter fun e => Arc.target e = id).reverse ∧
      (x.outgoing id).Nodup ∧ (x.incoming id).Nodup ∧
      (id ∉ g.nodeIds → x.outgoing id = [] ∧ x.incoming id = [])) ∧
    ∀ c id, (IndexedGraph.meaning.call x c).outgoing id =
        ((g.added c).filter fun e => Arc.source e = id).reverse ++ x.outgoing id ∧
      (IndexedGraph.meaning.call x c).incoming id =
        ((g.added c).filter fun e => Arc.target e = id).reverse ++ x.incoming id := by
  intro g x
  have hx : x.InStep g := preserves_inStep.run calls
  have hg : g.Made := preserves_made.run calls
  obtain ⟨hends, hkeys⟩ := hg.wellFormed
  have hnodup : g.edges.Nodup := hkeys.of_map
  refine ⟨hx.answers, ⟨hg.nodup_nodeIds, preserves_first.run calls⟩, ⟨hkeys, hends, ?_⟩, ?_, ?_, ?_⟩
  · intro key
    rw [hx.hasKey_eq, hasKey_iff, List.mem_map]
  · intro e
    rw [(hx.addEdge e).1, hx.hasKey_eq]
    refine ⟨addEdge_eq_false_iff, fun hrefused => ⟨?_, addEdge_of_refused hrefused⟩⟩
    exact IndexedGraph.addEdge_of_refused ((hx.addEdge e).1.trans hrefused)
  · intro id
    refine ⟨hx.outgoing_eq id, hx.incoming_eq id, ?_, ?_, fun hid => ?_⟩
    · rw [hx.outgoing_eq]
      exact List.nodup_reverse.2 (hnodup.filter _)
    · rw [hx.incoming_eq]
      exact List.nodup_reverse.2 (hnodup.filter _)
    · exact ⟨hx.directed_of_unknown hid _, hx.directed_of_unknown hid _⟩
  · intro c id
    have hcall := preserves_inStep.call hx c
    rw [hcall.outgoing_eq, hcall.incoming_eq, hx.outgoing_eq, hx.incoming_eq]
    exact ⟨g.outgoing_call c id, g.incoming_call c id⟩

end Graph

end Runs

namespace Graph

def mixedCalls : List (GraphCall CallNode CallEdge) :=
  [.node ⟨1, "f"⟩, .node ⟨1, "g"⟩, .edge ⟨1, 2, 5⟩, .node ⟨2, "h"⟩, .edge ⟨1, 2, 5⟩, .edge ⟨1, 2, 6⟩,
    .edge ⟨1, 1, 7⟩, .append [.node ⟨1, "k"⟩, .node ⟨3, "l"⟩, .edge ⟨1, 3, 8⟩, .edge ⟨1, 1, 7⟩]]

theorem graph_structures_stay_in_step_after_mixed_calls :
    let g : Graph CallNode CallEdge := meaning.run mixedCalls
    let x : IndexedGraph CallNode CallEdge NodeId := IndexedGraph.meaning.run mixedCalls
    x.node? 1 = some ⟨1, "f"⟩ ∧
    (⟨1, 3, 8⟩ ∈ g.edges ∧ (1 : NodeId) ∈ g.nodeIds ∧ (3 : NodeId) ∈ g.nodeIds) ∧
    ((x.addEdge ⟨1, 2, 5⟩).1 = false ∧ (x.addEdge ⟨1, 2, 5⟩).2 = x) ∧
    x.outgoing 1 = [⟨1, 3, 8⟩, ⟨1, 1, 7⟩, ⟨1, 2, 6⟩, ⟨1, 2, 5⟩] ∧ x.incoming 1 = [⟨1, 1, 7⟩] ∧
    ((4 : NodeId) ∉ g.nodeIds ∧ x.outgoing 4 = []) := by
  intro g x
  obtain ⟨hanswers, ⟨-, hfirst⟩, ⟨-, hends, -⟩, hadd, haround, -⟩ :=
    graph_structures_stay_in_step mixedCalls
  have hin : (⟨1, 3, 8⟩ : CallEdge) ∈ g.edges := by decide
  have hrefused : (x.addEdge ⟨1, 2, 5⟩).1 = false := by decide
  have hunknown : (4 : NodeId) ∉ g.nodeIds := by decide
  refine ⟨(hanswers.node? 1).trans (hfirst 1), ⟨hin, hends _ hin⟩,
    ⟨hrefused, ((hadd _).2 hrefused).1⟩, (haround 1).1, (haround 1).2.1,
    hunknown, ((haround 4).2.2.2.2 hunknown).1⟩

end Graph

end ProgramFlow
