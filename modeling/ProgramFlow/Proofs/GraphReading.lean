import ProgramFlow.Proofs.DocumentForm
import ProgramFlow.Proofs.GraphAdding
import ProgramFlow.Proofs.Offering

/-! Graphs that are read from documents. A document lists nodes and edges; the graph has the first
node of each identity, and of the edges between listed nodes the first of each key. In a graph that
was made by adding nodes and edges there is nothing to leave out, so that such a graph is read back
as it was written, except that its nodes get new links. -/
namespace ProgramFlow

namespace FlowGraph

structure Fits (g : FlowGraph) : Prop where
  start : g.start.Fits
  finish : g.finish.Fits
  nodes : ∀ n ∈ g.nodes, n.Fits
  edges : ∀ e ∈ g.edges, e.Fits

def relink (first : Nat) (nodes : List Node) : List Node :=
  nodes.mapIdx fun i n => { n with link := ⟨first + i⟩ }

theorem relink_cons (first : Nat) (n : Node) (rest : List Node) :
    relink first (n :: rest) = { n with link := ⟨first⟩ } :: relink (first + 1) rest := by
  simp [relink, List.mapIdx_cons, Nat.add_assoc, Nat.add_comm 1]

theorem map_relink {α : Type} {f : Node → α} (hf : ∀ n link, f { n with link } = f n) (first : Nat)
    (nodes : List Node) : (relink first nodes).map f = nodes.map f := by
  induction nodes generalizing first with
  | nil => rfl
  | cons n rest ih => rw [relink_cons, List.map_cons, hf, ih, List.map_cons]

theorem le_link_of_mem_relink {first : Nat} {nodes : List Node} {n : Node}
    (h : n ∈ relink first nodes) : first ≤ n.link.val := by
  obtain ⟨i, _, rfl⟩ := List.mem_mapIdx.1 h
  exact Nat.le_add_right first i

theorem readNodes?_toJson {nodes : List Node} (h : ∀ n ∈ nodes, n.Fits) (supply : Supply) :
    readNodes? supply (nodes.map Node.toJson) = some (relink supply.nextLink nodes,
      { supply with nextLink := supply.nextLink + nodes.length }) := by
  induction nodes generalizing supply with
  | nil => rfl
  | cons n rest ih =>
    rw [List.forall_mem_cons] at h
    rw [List.map_cons, readNodes?, relink_cons]
    simp [Supply.newLink, n.ofJson?_toJson h.1, ih h.2, Nat.add_assoc, Nat.add_comm 1]

theorem ofJson?_toJson {g : FlowGraph} (hmade : g.graph.Made) (h : g.Fits) (supply : Supply) :
    ofJson? supply g.toJson =
      some ({ g with graph := ⟨relink supply.nextLink g.nodes, g.edges⟩ },
        { supply with nextLink := supply.nextLink + g.nodes.length }) := by
  have hids : (relink supply.nextLink g.nodes).map Vertex.id = g.graph.nodeIds :=
    map_relink (fun _ _ => rfl) supply.nextLink g.nodes
  have hedges : Json.list? Flow.ofJson? (.ofList Flow.toJson g.edges) = some g.edges :=
    Json.list?_ofList fun e he => Flow.ofJson?_toJson (h.edges e he)
  have hitems : Json.list? some (.ofList Node.toJson g.nodes) = some (g.nodes.map Node.toJson) :=
    mapM_map_eq_some fun _ _ => rfl
  have hgraph : Graph.ofLists (relink supply.nextLink g.nodes) g.edges =
      ⟨relink supply.nextLink g.nodes, g.edges⟩ := Graph.ofLists_of_made hmade hids
  simp [toJson, ofJson?, Json.record?, List.lookup_cons, NodeId.ofJson?_toJson h.start,
    NodeId.ofJson?_toJson h.finish, hitems, readNodes?_toJson h.nodes, hedges, hgraph]

/-- What a document lists, before anything is left out. Each node is read with its own link. -/
structure Listing (j : Json) (g : FlowGraph) (nodes : List Node) (edges : List Flow) : Prop where
  fields : ∃ start finish items flows,
    j.record? ["qualified_name", "start", "end", "nodes", "edges"] =
      some [some (.str g.qualifiedName), some start, some finish, some (.arr items),
        some (.arr flows)] ∧
    NodeId.ofJson? start = some g.start ∧ NodeId.ofJson? finish = some g.finish ∧
    List.Forall₂ (fun item n => Node.ofJson? n.link item = some n) items nodes ∧
    List.Forall₂ (fun item e => Flow.ofJson? item = some e) flows edges

theorem forall₂_of_readNodes? {supply supply' : Supply} {items : List Json} {nodes : List Node}
    (h : readNodes? supply items = some (nodes, supply')) :
    List.Forall₂ (fun item n => Node.ofJson? n.link item = some n) items nodes := by
  induction items generalizing supply supply' nodes with
  | nil =>
    obtain ⟨rfl, -⟩ := Prod.mk.inj (Option.some.inj h)
    exact .nil
  | cons item rest ih =>
    obtain ⟨n, hn, h⟩ := Option.bind_eq_some_iff.1 h
    obtain ⟨⟨others, supply''⟩, hothers, h⟩ := Option.bind_eq_some_iff.1 h
    obtain ⟨rfl, -⟩ := Prod.mk.inj (Option.some.inj h)
    refine .cons ?_ (ih hothers)
    rw [(Node.fits_of_ofJson? hn).2]
    exact hn

/-- A graph that is read has what its document lists, without repetitions and without edges whose
ends are missing. -/
theorem listing_of_ofJson? {supply supply' : Supply} {j : Json} {g : FlowGraph}
    (h : ofJson? supply j = some (g, supply')) :
    ∃ nodes edges, Listing j g nodes edges ∧ g.graph = Graph.ofLists nodes edges := by
  obtain ⟨fields, hrecord, h⟩ := Option.bind_eq_some_iff.1 h
  split at h
  · next qualifiedName start finish nodes edges =>
    obtain ⟨name, hname, h⟩ := Option.bind_eq_some_iff.1 h
    obtain ⟨first, hstart, h⟩ := Option.bind_eq_some_iff.1 h
    obtain ⟨last, hfinish, h⟩ := Option.bind_eq_some_iff.1 h
    obtain ⟨items, hitems, h⟩ := Option.bind_eq_some_iff.1 h
    obtain ⟨⟨ns, supply''⟩, hnodes, h⟩ := Option.bind_eq_some_iff.1 h
    obtain ⟨es, hedges, h⟩ := Option.bind_eq_some_iff.1 h
    obtain ⟨rfl, -⟩ := Prod.mk.inj (Option.some.inj h)
    obtain ⟨_, rfl, hname⟩ := Option.bind_eq_some_iff.1 hname
    obtain ⟨_, rfl, hstart⟩ := Option.bind_eq_some_iff.1 hstart
    obtain ⟨_, rfl, hfinish⟩ := Option.bind_eq_some_iff.1 hfinish
    obtain ⟨_, rfl, hitems⟩ := Option.bind_eq_some_iff.1 hitems
    obtain ⟨_, rfl, hedges⟩ := Option.bind_eq_some_iff.1 hedges
    obtain rfl := Json.eq_str_of_str? hname
    obtain ⟨listed, rfl, hlisted⟩ := Json.eq_arr_of_list? hitems
    obtain ⟨flows, rfl, hflows⟩ := Json.eq_arr_of_list? hedges
    obtain rfl : listed = items := by
      have hsame := forall₂_of_mapM hlisted
      simp only [Option.some.injEq, List.forall₂_eq_eq_eq] at hsame
      exact hsame
    exact ⟨ns, es, ⟨_, _, listed, flows, hrecord, hstart, hfinish, forall₂_of_readNodes? hnodes,
      forall₂_of_mapM hflows⟩, rfl⟩
  · cases h

theorem Listing.fits {j : Json} {g : FlowGraph} {nodes : List Node} {edges : List Flow}
    (h : Listing j g nodes edges) (hgraph : g.graph = Graph.ofLists nodes edges) : g.Fits := by
  obtain ⟨start, finish, items, flows, -, hstart, hfinish, hnodes, hedges⟩ := h.fields
  refine ⟨NodeId.fits_of_ofJson? _ _ hstart, NodeId.fits_of_ofJson? _ _ hfinish, ?_, ?_⟩
  · intro n hn
    rw [FlowGraph.nodes, hgraph, Graph.nodes_ofLists] at hn
    exact forall_of_forall₂ hnodes (fun _ _ hread => (Node.fits_of_ofJson? hread).1) n
      ((firsts_sublist Vertex.id nodes).subset hn)
  · intro e he
    rw [FlowGraph.edges, hgraph, Graph.edges_ofLists] at he
    exact forall_of_forall₂ hedges Flow.fits_of_ofJson? e
      (List.mem_of_mem_filter ((firsts_sublist Arc.key _).subset he))

end FlowGraph

namespace Cfg

structure Fits (c : Cfg) : Prop where
  flow : c.flow.Fits
  blocks : ∀ b ∈ c.blocks, b.Fits

theorem ofJson?_toJson {c : Cfg} (hmade : c.flow.graph.Made) (h : c.Fits) (supply : Supply) :
    ofJson? supply c.toJson =
      some (⟨{ c.flow with graph :=
          ⟨FlowGraph.relink supply.nextLink c.flow.nodes, c.flow.edges⟩ }, c.blocks⟩,
        { supply with nextLink := supply.nextLink + c.flow.nodes.length }) := by
  have hblocks : Json.list? BasicBlock.ofJson? (.ofList BasicBlock.toJson c.blocks) =
      some c.blocks := Json.list?_ofList fun b hb => BasicBlock.ofJson?_toJson (h.blocks b hb)
  simp [toJson, ofJson?, Json.record?, List.lookup_cons, FlowGraph.ofJson?_toJson hmade h.flow,
    hblocks]

end Cfg

/-- Links handed out from now on have not been set. -/
theorem Links.get?_of_lt {links : Links} {next : Nat} (h : ∀ entry ∈ links.entries, entry.1.val < next)
    {id : LinkId} (hid : next ≤ id.val) : links.get? id = none := by
  rw [get?, List.lookup_eq_none_iff]
  intro entry hentry
  rw [bne_iff_ne]
  rintro rfl
  have hlt := h entry hentry
  omega

namespace FlowGraph

/-- A graph made by adding nodes and edges is read back from what is written of it: everything is
the same but the links of the nodes, which are new and so not set. A document that is accepted may
list more than a graph can have. What is written of the graph that is read has the first node of
each identity and, of the edges between listed nodes, the first of each key, and from then on
reading and writing change nothing. -/
theorem graphs_are_read_back :
    (∀ (c : Cfg) (supply : Supply), c.flow.graph.Made → c.Fits →
      ∃ d supply', Cfg.ofJson? supply c.toJson = some (d, supply') ∧
        d.qualifiedName = c.qualifiedName ∧ d.flow.start = c.flow.start ∧
        d.flow.finish = c.flow.finish ∧ d.blocks = c.blocks ∧
        d.flow.nodes = relink supply.nextLink c.flow.nodes ∧ d.flow.edges = c.flow.edges ∧
        (∀ id, d.flow.outgoing id = c.flow.outgoing id ∧ d.flow.incoming id = c.flow.incoming id) ∧
        ∀ links : Links, (∀ entry ∈ links.entries, entry.1.val < supply.nextLink) →
          ∀ n ∈ d.flow.nodes, links.get? n.link = none) ∧
    (∀ (j : Json) (supply : Supply) (g : FlowGraph) (supply' : Supply),
      ofJson? supply j = some (g, supply') →
      ∃ nodes edges, Listing j g nodes edges ∧
        g.toJson = .obj [("qualified_name", .str g.qualifiedName), ("start", g.start.toJson),
          ("end", g.finish.toJson), ("nodes", .ofList Node.toJson (firsts Node.id nodes)),
          ("edges", .ofList Flow.toJson (firsts Arc.key (edges.filter fun e =>
            e.source ∈ nodes.map Node.id ∧ e.target ∈ nodes.map Node.id)))] ∧
        ∀ later : Supply, ∃ again later', ofJson? later g.toJson = some (again, later') ∧
          again.toJson = g.toJson) := by
  constructor
  · intro c supply hmade hfits
    refine ⟨_, _, Cfg.ofJson?_toJson hmade hfits supply, rfl, rfl, rfl, rfl, rfl, rfl,
      fun id => ⟨rfl, rfl⟩, ?_⟩
    intro links hlinks n hn
    exact Links.get?_of_lt hlinks (le_link_of_mem_relink hn)
  · intro j supply g supply' h
    obtain ⟨nodes, edges, hlisting, hgraph⟩ := listing_of_ofJson? h
    have hmade : g.graph.Made := hgraph ▸ Graph.Made.ofLists nodes edges
    refine ⟨nodes, edges, hlisting, ?_, ?_⟩
    · rw [toJson, FlowGraph.nodes, FlowGraph.edges, hgraph, Graph.nodes_ofLists, Graph.edges_ofLists]
      rfl
    · intro later
      refine ⟨_, _, ofJson?_toJson hmade (hlisting.fits hgraph) later, ?_⟩
      have hwritten : Json.ofList Node.toJson (relink later.nextLink g.nodes) =
          .ofList Node.toJson g.nodes := by
        rw [Json.ofList, map_relink (fun _ _ => rfl), Json.ofList]
      rw [toJson, toJson, ← hwritten]
      rfl

def loopingCall : Cfg :=
  let callee : MethodRef := ⟨"g", "A.g(int)", "int", "A", ["int"], ⟨0xE201⟩⟩
  let call : Node :=
    { id := 1
      data := .call { kind := .methodCall, callee, actualIns := [2] }
      span := some ⟨3, 0, 3, 4⟩
      label := "g(x)"
      block := some ⟨0⟩
      link := ⟨7⟩ }
  let argument : Node :=
    { id := 2, data := .parameter ⟨.actualIn, 0, "x", "int", false, 1, {}⟩, link := ⟨8⟩ }
  { flow :=
      { qualifiedName := "A.f"
        start := 1
        finish := 2
        graph := .ofLists [call, argument] [⟨1, 2, .fallThrough, none⟩, ⟨2, 1, .onTrue, some 1⟩] }
    blocks := [⟨⟨0⟩, 1, [1, 2]⟩] }

theorem loopingCall_fits : loopingCall.Fits := by
  have hone : NodeId.Fits 1 := by unfold NodeId.Fits; decide
  have htwo : NodeId.Fits 2 := by unfold NodeId.Fits; decide
  have hzero : BlockId.Fits ⟨0⟩ := by unfold BlockId.Fits; decide
  refine ⟨⟨hone, htwo, ?_, ?_⟩, ?_⟩
  · intro n hn
    rcases hn with _ | ⟨_, _ | ⟨_, ⟨⟩⟩⟩
    · exact ⟨hone, ⟨by simp, by simpa using htwo, by simp, by simp⟩, by simpa using hzero⟩
    · exact ⟨htwo, ⟨by decide, hone⟩, by simp⟩
  · intro e he
    rcases he with _ | ⟨_, _ | ⟨_, ⟨⟩⟩⟩
    · exact ⟨hone, htwo, by simp⟩
    · exact ⟨htwo, hone, by simpa using hone⟩
  · intro b hb
    rcases hb with _ | ⟨_, ⟨⟩⟩
    exact ⟨hzero, hone, by simpa using ⟨hone, htwo⟩⟩

def longDocument : Json :=
  let node (id : NodeId) (label : String) : Node := { id, data := .dummy, label, link := ⟨0⟩ }
  .obj [("qualified_name", .str "A.f"), ("start", .ofNat 1), ("end", .ofNat 2),
    ("nodes", .ofList Node.toJson [node 1 "", node 2 "", node 1 "again"]),
    ("edges", .ofList Flow.toJson [⟨1, 2, .fallThrough, none⟩, ⟨1, 2, .fallThrough, some 1⟩,
      ⟨1, 9, .onTrue, none⟩])]

theorem graphs_are_read_back_without_repetitions :
    (loopingCall.flow.graph.Made ∧ loopingCall.Fits ∧
      ∃ d supply, Cfg.ofJson? {} loopingCall.toJson = some (d, supply) ∧
        d.flow.nodes = relink 0 loopingCall.flow.nodes ∧ d.flow.edges = loopingCall.flow.edges) ∧
    ∃ g supply, ofJson? {} longDocument = some (g, supply) ∧
      g.nodes.map Node.label = ["", ""] ∧ g.edges = [⟨1, 2, .fallThrough, none⟩] ∧
      ∀ later, ∃ again later', ofJson? later g.toJson = some (again, later') ∧
        again.toJson = g.toJson := by
  have hmade : loopingCall.flow.graph.Made := Graph.Made.ofLists _ _
  obtain ⟨d, supply, hread, -, -, -, -, hnodes, hedges, -⟩ :=
    graphs_are_read_back.1 loopingCall {} hmade loopingCall_fits
  have hdocument : (ofJson? {} longDocument).map
      (fun r => (r.1.nodes.map Node.label, r.1.edges)) =
        some (["", ""], [⟨1, 2, .fallThrough, none⟩]) := by decide +kernel
  obtain ⟨⟨g, supply'⟩, hg, hparts⟩ := Option.map_eq_some_iff.1 hdocument
  obtain ⟨hlabels, hflows⟩ := Prod.mk.inj hparts
  obtain ⟨_, _, -, -, hagain⟩ := graphs_are_read_back.2 longDocument {} g supply' hg
  exact ⟨⟨hmade, loopingCall_fits, d, supply, hread, hnodes, hedges⟩,
    g, supply', hg, hlabels, hflows, hagain⟩

end FlowGraph

end ProgramFlow
