import ProgramFlow.Proofs.Assembly

/-! How an assembler numbers its nodes: they get the next identities of the supply in the order in
which they are made, each together with the identity of its link, and nothing an operation does
later changes either. An assembler that was opened for a class also keeps the entry of a class. -/
namespace ProgramFlow

/-- A change to a node that leaves alone what the node is known by and, at the entry of a class,
the members it lists. -/
structure Node.Edit (f : Node → Node) : Prop where
  id : ∀ n, (f n).id = n.id
  link : ∀ n, (f n).link = n.link
  classEntry : ∀ n, Node.classEntry? (f n) = n.classEntry?

namespace Assembler

theorem edit_onCall (f : Call → Call) : Node.Edit (onCall f) := by
  refine ⟨fun n => ?_, fun n => ?_, fun n => ?_⟩ <;> unfold onCall <;> split
  · rfl
  · rfl
  · rfl
  · rfl
  · next hc => simp [Node.classEntry?, Node.entry?, hc]
  · rfl

theorem edit_onMethodEntry (f : MethodEntry → MethodEntry) : Node.Edit (onMethodEntry f) := by
  refine ⟨fun n => ?_, fun n => ?_, fun n => ?_⟩ <;> unfold onMethodEntry <;> split
  · split <;> rfl
  · rfl
  · split <;> rfl
  · rfl
  · next he =>
    split
    · next hm => simp [Node.classEntry?, Node.entry?, Entry.classType?, he, hm]
    · rfl
  · rfl

section Operations

variable {motive : Assembler → Prop}

theorem sequence_induction (addFlow : ∀ a e, motive a → motive (a.addFlow e).2)
    {a : Assembler} (h : motive a) (nodes : List NodeId) : motive (a.sequence nodes).2 := by
  fun_induction sequence a nodes with
  | case1 a first second rest added b hb count c hc ih =>
    have hstep : motive (a.connect first second .fallThrough).2 := addFlow a _ h
    rw [hb] at hstep
    rw [hc] at ih
    exact ih hstep
  | case2 => exact h

/-- What every operation consists of: nodes are made, nodes are changed, edges are added. -/
theorem apply_induction (add : ∀ a data, motive a → motive (a.add data).2)
    (edit : ∀ a id f, Node.Edit f → motive a → motive { a with flow := a.flow.modifyNode id f })
    (addFlow : ∀ a e, motive a → motive (a.addFlow e).2) (op : AssemblerOp NodeId) {a : Assembler}
    (h : motive a) : motive (op.apply a).2 := by
  have onCall : ∀ data id f, motive ((a.add data).2.modifyCall id f) := fun data id f =>
    edit _ id _ (edit_onCall f) (add a data h)
  have onEntry : ∀ data f, motive ((a.add data).2.modifyMethodEntry f) := fun data f =>
    edit _ _ _ (edit_onMethodEntry f) (add a data h)
  cases op with
  | statement | call | merge | dummy => exact add a _ h
  | receiver | actualIn | actualOut =>
    simp only [AssemblerOp.apply, AssemblerOp.ofNode?, receiver, actualIn, actualOut]
    split
    · exact h
    · next hc =>
      rw [noteAtCall_add hc]
      exact onCall ..
  | actualOutForReturn =>
    simp only [AssemblerOp.apply, AssemblerOp.ofNode?, actualOutForReturn]
    split
    · exact h
    · next hc =>
      split
      · exact h
      · rw [noteAtCall_add hc]
        exact onCall ..
  | formalIn | formalOut | exceptionTarget =>
    simp only [AssemblerOp.apply, AssemblerOp.ofNode?, formalIn, formalOut, exceptionTarget,
      statement]
    split
    · exact h
    · next hm =>
      rw [noteAtEntry_add hm]
      exact onEntry ..
  | formalOutForReturn =>
    simp only [AssemblerOp.apply, AssemblerOp.ofNode?, formalOutForReturn]
    split
    · exact h
    · next hm =>
      split
      · exact h
      · rw [noteAtEntry_add hm]
        exact onEntry ..
  | annotate id span label =>
    simp only [AssemblerOp.apply, AssemblerOp.ofDone, annotate]
    split
    · exact edit _ id _ ⟨fun _ => rfl, fun _ => rfl, fun _ => rfl⟩ h
    · exact h
  | connect | loopback => exact addFlow a _ h
  | sequence nodes => exact sequence_induction addFlow h nodes
  | peek => exact h

end Operations

end Assembler

def Supply.numbers (s : Supply) (count : Nat) : List (NodeId × LinkId) :=
  (List.range count).map fun i => (⟨s.ids.next + i⟩, ⟨s.nextLink + i⟩)

theorem Supply.numbers_succ (s : Supply) (count : Nat) :
    s.numbers (count + 1) =
      s.numbers count ++ [(⟨s.ids.next + count⟩, ⟨s.nextLink + count⟩)] := by
  simp [numbers, List.range_succ]

theorem Supply.mem_numbers {s : Supply} {count : Nat} {id : NodeId} {link : LinkId} :
    (id, link) ∈ s.numbers count ↔
      ∃ i < count, id = ⟨s.ids.next + i⟩ ∧ link = ⟨s.nextLink + i⟩ := by
  simp only [numbers, List.mem_map, List.mem_range, Prod.mk.injEq]
  constructor
  · rintro ⟨i, hi, rfl, rfl⟩
    exact ⟨i, hi, rfl, rfl⟩
  · rintro ⟨i, hi, rfl, rfl⟩
    exact ⟨i, hi, rfl, rfl⟩

namespace FlowGraph

def identities (g : FlowGraph) : List (NodeId × LinkId) := g.nodes.map fun n => (n.id, n.link)

theorem nodeIds_eq_identities (g : FlowGraph) : g.nodeIds = g.identities.map Prod.fst := by
  simp only [nodeIds, Graph.nodeIds, identities, nodes, List.map_map]
  rfl

theorem identities_modifyNode (g : FlowGraph) (id : NodeId) {f : Node → Node}
    (hid : ∀ n, (f n).id = n.id) (hlink : ∀ n, (f n).link = n.link) :
    (g.modifyNode id f).identities = g.identities := by
  simp only [identities, nodes, modifyNode, Graph.modifyNode, List.map_map]
  refine List.map_congr_left fun n _ => ?_
  simp only [Function.comp_apply]
  split
  · rw [hid, hlink]
  · rfl

theorem identities_addEdge (g : FlowGraph) (e : Flow) :
    (g.addEdge e).2.identities = g.identities := by
  simp [identities, nodes, addEdge]

theorem isSome_node? {g : FlowGraph} {id : NodeId} :
    (g.node? id).isSome = true ↔ id ∈ g.nodeIds :=
  Graph.isSome_node?

theorem node?_modifyNode (g : FlowGraph) (id : NodeId) {f : Node → Node}
    (hid : ∀ n, (f n).id = n.id) (x : NodeId) :
    (g.modifyNode id f).node? x = (g.node? x).map fun n => if x = id then f n else n :=
  Graph.node?_modifyNode hid x

@[simp] theorem node?_addEdge (g : FlowGraph) (e : Flow) (id : NodeId) :
    (g.addEdge e).2.node? id = g.node? id := by
  simp only [node?, Graph.node?, addEdge, Graph.nodes_addEdge]

theorem identities_addNode (g : FlowGraph) {n : Node} (h : n.id ∉ g.nodeIds) :
    (g.addNode n).2.identities = g.identities ++ [(n.id, n.link)] := by
  have hn : ¬g.graph.hasNode (Vertex.id n) = true := by
    rw [Graph.hasNode_iff]
    exact h
  simp [identities, nodes, addNode, Graph.addNode, hn]

end FlowGraph

inductive Assembler.ClassReachable (supply : Supply) : Assembler → Prop where
  | opened (kind name qualifiedName) :
      ClassReachable supply (.classType supply kind name qualifiedName)
  | step {a} (op) : ClassReachable supply a → ClassReachable supply (AssemblerOp.apply op a).2

namespace Assembler

/-- The nodes have the first identities of the supply, and these are gone from it. -/
structure Numbered (supply : Supply) (a : Assembler) : Prop where
  identities : a.flow.identities = supply.numbers a.flow.identities.length
  ids : a.supply.ids.next = supply.ids.next + a.flow.identities.length
  links : a.supply.nextLink = supply.nextLink + a.flow.identities.length
  refs : a.supply.nextRef = supply.nextRef

variable {supply : Supply} {a : Assembler}

theorem Numbered.peek_not_mem (h : Numbered supply a) : a.supply.ids.peek ∉ a.flow.nodeIds := by
  rw [FlowGraph.nodeIds_eq_identities, List.mem_map]
  rintro ⟨⟨id, link⟩, hmem, hid⟩
  rw [h.identities, Supply.mem_numbers] at hmem
  obtain ⟨i, hi, rfl, -⟩ := hmem
  have := congrArg NodeId.val hid
  simp only [IdAllocator.peek, h.ids] at this
  omega

theorem Numbered.add (h : Numbered supply a) (data : NodeData) :
    Numbered supply (a.add data).2 := by
  have happ : (a.add data).2.flow.identities =
      a.flow.identities ++ [(a.supply.ids.peek, ⟨a.supply.nextLink⟩)] :=
    a.flow.identities_addNode h.peek_not_mem
  have hlen : (a.add data).2.flow.identities.length = a.flow.identities.length + 1 := by
    rw [happ, List.length_append, List.length_singleton]
  refine ⟨?_, ?_, ?_, h.refs⟩
  · rw [hlen, Supply.numbers_succ, ← h.identities, happ, IdAllocator.peek, h.ids, h.links]
  · rw [hlen, ← Nat.add_assoc, ← h.ids]
    rfl
  · rw [hlen, ← Nat.add_assoc, ← h.links]
    rfl

theorem Numbered.of_flow {b : Assembler} (h : Numbered supply a) (hs : b.supply = a.supply)
    (hf : b.flow.identities = a.flow.identities) : Numbered supply b := by
  constructor
  · rw [hf]
    exact h.identities
  · rw [hs, hf]
    exact h.ids
  · rw [hs, hf]
    exact h.links
  · rw [hs]
    exact h.refs

theorem identities_openEntry (supply : Supply) (kind : DeclKind)
    (name signature qualifiedName : String) (detail : EntryDetail) :
    (openEntry supply kind name signature qualifiedName detail).flow.identities =
      supply.numbers 2 := by
  simp [openEntry, FlowGraph.identities, FlowGraph.nodes, FlowGraph.addNode, Graph.addNode,
    Graph.hasNode, Supply.numbers, Supply.newId, Supply.newLink, IdAllocator.peek,
    IdAllocator.allocate, Vertex.id, List.range_succ]

theorem numbered_openEntry (supply : Supply) (kind : DeclKind)
    (name signature qualifiedName : String) (detail : EntryDetail) :
    Numbered supply (openEntry supply kind name signature qualifiedName detail) := by
  have hflow := identities_openEntry supply kind name signature qualifiedName detail
  have hlen : (supply.numbers 2).length = 2 := by simp [Supply.numbers]
  constructor
  · rw [hflow, hlen]
  · rw [hflow, hlen]
    rfl
  · rw [hflow, hlen]
    rfl
  · rfl

theorem Reachable.numbered (h : Reachable supply a) : Numbered supply a := by
  induction h with
  | opened h => cases h <;> exact numbered_openEntry ..
  | @step a op _ ih =>
    refine apply_induction (fun a data h => h.add data) ?_ ?_ op ih
    · intro a id f hf h
      exact h.of_flow rfl (a.flow.identities_modifyNode id hf.id hf.link)
    · intro a e h
      exact h.of_flow rfl (a.flow.identities_addEdge e)

structure Entered (entry : Option ClassEntry) (a : Assembler) : Prop where
  start : a.flow.startNode?.isSome = true
  entry : a.flow.classEntry? = entry

theorem entered_openEntry (supply : Supply) (kind : DeclKind)
    (name signature qualifiedName : String) (detail : EntryDetail) {entry : Option ClassEntry}
    (h : Entry.classType? { kind, name, signature, qualifiedName, detail } = entry) :
    (openEntry supply kind name signature qualifiedName detail).Entered entry := by
  subst h
  constructor
  · simp only [openEntry, FlowGraph.startNode?, FlowGraph.node?_addNode]
    simp [FlowGraph.addNode, FlowGraph.node?, Graph.node?]
  · simp only [openEntry, FlowGraph.classEntry?, FlowGraph.startNode?, FlowGraph.node?_addNode]
    simp [FlowGraph.addNode, FlowGraph.node?, Graph.node?, Node.classEntry?, Node.entry?]

theorem entered_apply {entry : Option ClassEntry} (op : AssemblerOp NodeId)
    (h : a.Entered entry) : (op.apply a).2.Entered entry := by
  refine apply_induction ?_ ?_ ?_ op h
  · intro a data h
    have hstart : (a.add data).2.flow.startNode? = a.flow.startNode? :=
      (a.flow.node?_addNode _ _).trans (Option.or_of_isSome h.start)
    constructor
    · rw [hstart]
      exact h.start
    · rw [FlowGraph.classEntry?, hstart]
      exact h.entry
  · intro a id f hf h
    have hstart : (a.flow.modifyNode id f).startNode? =
        a.flow.startNode?.map fun n => if a.flow.start = id then f n else n :=
      a.flow.node?_modifyNode id hf.id _
    constructor
    · rw [hstart, Option.isSome_map]
      exact h.start
    · rw [FlowGraph.classEntry?, hstart, Option.bind_map, ← h.entry]
      refine congrArg (Option.bind _) (funext fun n => ?_)
      simp only [Function.comp_apply]
      split
      · exact hf.classEntry n
      · rfl
  · intro a e h
    have hstart : (a.addFlow e).2.flow.startNode? = a.flow.startNode? :=
      a.flow.node?_addEdge e _
    constructor
    · rw [hstart]
      exact h.start
    · rw [FlowGraph.classEntry?, hstart]
      exact h.entry

theorem ClassReachable.entered (h : ClassReachable supply a) : a.Entered (some ⟨[]⟩) := by
  induction h with
  | opened => exact entered_openEntry _ _ _ _ _ _ rfl
  | step op _ ih => exact entered_apply op ih

theorem Reachable.entered (h : Reachable supply a) :
    a.Entered none ∨ a.Entered (some ⟨[]⟩) := by
  induction h with
  | opened h =>
    cases h with
    | method | field => exact .inl (entered_openEntry _ _ _ _ _ _ rfl)
    | classType => exact .inr (entered_openEntry _ _ _ _ _ _ rfl)
  | step op _ ih => exact ih.imp (entered_apply op) (entered_apply op)

end Assembler

end ProgramFlow
