import ProgramFlow.Assembler.Op
import ProgramFlow.Proofs.GraphAppend

/-! Graphs that come from an assembler, and what every one of its operations keeps: nodes are
only ever appended, so the start is there from the beginning to the end. -/
namespace ProgramFlow

namespace FlowGraph

theorem nodeIds_addNode (g : FlowGraph) (n : Node) :
    g.nodeIds.IsPrefix (g.addNode n).2.nodeIds := by
  simp only [addNode, Graph.addNode, nodeIds, Graph.nodeIds]
  split
  · exact List.prefix_refl _
  · simp

theorem node?_addNode (g : FlowGraph) (n : Node) (id : NodeId) :
    (g.addNode n).2.node? id = (g.node? id).or (if n.id = id then some n else none) :=
  Graph.node?_addNode ..

@[simp] theorem nodeIds_addEdge (g : FlowGraph) (e : Flow) :
    (g.addEdge e).2.nodeIds = g.nodeIds := by
  simp only [addEdge, Graph.addEdge, nodeIds, Graph.nodeIds]
  split <;> rfl

theorem nodeIds_modifyNode (g : FlowGraph) (id : NodeId) {f : Node → Node}
    (hf : ∀ n, (f n).id = n.id) : (g.modifyNode id f).nodeIds = g.nodeIds := by
  simp only [modifyNode, Graph.modifyNode, nodeIds, Graph.nodeIds, List.map_map]
  refine List.map_congr_left fun n _ => ?_
  simp only [Function.comp_apply]
  split
  · exact hf n
  · rfl

end FlowGraph

namespace Assembler

inductive Opened (supply : Supply) : Assembler → Prop where
  | method (kind name signature qualifiedName returnType) :
      Opened supply (.method supply kind name signature qualifiedName returnType)
  | field (kind name qualifiedName) : Opened supply (.field supply kind name qualifiedName)
  | classType (kind name qualifiedName) :
      Opened supply (.classType supply kind name qualifiedName)

/-- The assemblers that operations lead to, failed operations included. -/
inductive Reachable (supply : Supply) : Assembler → Prop where
  | opened {a} : Opened supply a → Reachable supply a
  | step {a} (op) : Reachable supply a → Reachable supply (AssemblerOp.apply op a).2

theorem nodeIds_add (a : Assembler) (data : NodeData) :
    a.flow.nodeIds.IsPrefix (a.add data).2.flow.nodeIds :=
  a.flow.nodeIds_addNode _

@[simp] theorem nodeIds_modifyCall (a : Assembler) (id : NodeId) (f : Call → Call) :
    (a.modifyCall id f).flow.nodeIds = a.flow.nodeIds := by
  refine a.flow.nodeIds_modifyNode id fun n => ?_
  unfold onCall
  split <;> rfl

@[simp] theorem nodeIds_modifyMethodEntry (a : Assembler) (f : MethodEntry → MethodEntry) :
    (a.modifyMethodEntry f).flow.nodeIds = a.flow.nodeIds := by
  refine a.flow.nodeIds_modifyNode a.start fun n => ?_
  unfold onMethodEntry
  split
  · split <;> rfl
  · rfl

@[simp] theorem nodeIds_annotate (a : Assembler) (id : NodeId) (span : Span) (label : String) :
    (a.annotate id span label).2.flow.nodeIds = a.flow.nodeIds := by
  unfold annotate
  split
  · exact a.flow.nodeIds_modifyNode id fun _ => rfl
  · rfl

@[simp] theorem nodeIds_addFlow (a : Assembler) (e : Flow) :
    (a.addFlow e).2.flow.nodeIds = a.flow.nodeIds :=
  a.flow.nodeIds_addEdge e

@[simp] theorem nodeIds_sequence (a : Assembler) (nodes : List NodeId) :
    (a.sequence nodes).2.flow.nodeIds = a.flow.nodeIds := by
  fun_induction sequence a nodes with
  | case1 a first second rest added b hb count c hc ih =>
    have hfst := a.nodeIds_addFlow ⟨first, second, .fallThrough, none⟩
    have hconnect : a.connect first second .fallThrough = (added, b) := hb
    rw [← connect, hconnect] at hfst
    rw [hc] at ih
    exact ih.trans hfst
  | case2 => rfl

theorem node?_add {a : Assembler} {id : NodeId} {n : Node} (h : a.flow.node? id = some n)
    (data : NodeData) : (a.add data).2.flow.node? id = some n := by
  refine (a.flow.node?_addNode _ id).trans ?_
  rw [h, Option.some_or]

theorem callAt_add {a : Assembler} {call : NodeId} {c : Call} (h : a.callAt call = .ok c)
    (data : NodeData) : (a.add data).2.callAt call = .ok c := by
  unfold callAt at h
  split at h
  · next n hn =>
    rw [callAt, node?_add hn]
    split at h
    · next hc => simp only [hc, h]
    · cases h
  · cases h

theorem methodEntry_add {a : Assembler} {m : MethodEntry} (h : a.methodEntry = .ok m)
    (data : NodeData) : (a.add data).2.methodEntry = .ok m := by
  unfold methodEntry at h
  split at h
  · next entry hentry =>
    obtain ⟨n, hn, hm⟩ := Option.bind_eq_some_iff.1 hentry
    have hkept : (a.add data).2.flow.methodEntry? = some entry :=
      Option.bind_eq_some_iff.2 ⟨n, node?_add hn data, hm⟩
    rw [methodEntry, hkept]
    exact h
  · cases h

theorem noteAtCall_add {a : Assembler} {call : NodeId} {c : Call} (h : a.callAt call = .ok c)
    (data : NodeData) (id : NodeId) (f : Call → Call) :
    (a.add data).2.noteAtCall call id f = (.ok id, (a.add data).2.modifyCall call f) := by
  rw [noteAtCall, callAt_add h]

theorem noteAtEntry_add {a : Assembler} {m : MethodEntry} (h : a.methodEntry = .ok m)
    (data : NodeData) (id : NodeId) (f : MethodEntry → MethodEntry) :
    (a.add data).2.noteAtEntry id f = (.ok id, (a.add data).2.modifyMethodEntry f) := by
  rw [noteAtEntry, methodEntry_add h]

theorem nodeIds_add_modifyCall (a : Assembler) (data : NodeData) (id : NodeId) (f : Call → Call) :
    a.flow.nodeIds.IsPrefix ((a.add data).2.modifyCall id f).flow.nodeIds := by
  rw [nodeIds_modifyCall]
  exact a.nodeIds_add data

theorem nodeIds_add_modifyMethodEntry (a : Assembler) (data : NodeData)
    (f : MethodEntry → MethodEntry) :
    a.flow.nodeIds.IsPrefix ((a.add data).2.modifyMethodEntry f).flow.nodeIds := by
  rw [nodeIds_modifyMethodEntry]
  exact a.nodeIds_add data

/-- No operation removes a node or makes one anywhere but at the end. -/
theorem nodeIds_apply (op : AssemblerOp NodeId) (a : Assembler) :
    a.flow.nodeIds.IsPrefix (op.apply a).2.flow.nodeIds := by
  cases op with
  | statement | call | merge | dummy => exact a.nodeIds_add _
  | receiver | actualIn | actualOut =>
    simp only [AssemblerOp.apply, AssemblerOp.ofNode?, receiver, actualIn, actualOut]
    split
    · exact List.prefix_refl _
    · next hc =>
      rw [noteAtCall_add hc]
      exact nodeIds_add_modifyCall ..
  | actualOutForReturn =>
    simp only [AssemblerOp.apply, AssemblerOp.ofNode?, actualOutForReturn]
    split
    · exact List.prefix_refl _
    · next hc =>
      split
      · exact List.prefix_refl _
      · rw [noteAtCall_add hc]
        exact nodeIds_add_modifyCall ..
  | formalIn | formalOut | exceptionTarget =>
    simp only [AssemblerOp.apply, AssemblerOp.ofNode?, formalIn, formalOut, exceptionTarget,
      statement]
    split
    · exact List.prefix_refl _
    · next hm =>
      rw [noteAtEntry_add hm]
      exact nodeIds_add_modifyMethodEntry ..
  | formalOutForReturn =>
    simp only [AssemblerOp.apply, AssemblerOp.ofNode?, formalOutForReturn]
    split
    · exact List.prefix_refl _
    · next hm =>
      split
      · exact List.prefix_refl _
      · rw [noteAtEntry_add hm]
        exact nodeIds_add_modifyMethodEntry ..
  | annotate | connect | loopback =>
    simp only [AssemblerOp.apply, AssemblerOp.ofDone, connect, loopback, nodeIds_annotate,
      nodeIds_addFlow]
    exact List.prefix_refl _
  | sequence nodes =>
    simp only [AssemblerOp.apply, nodeIds_sequence]
    exact List.prefix_refl _
  | peek => exact List.prefix_refl _

theorem nodeIds_opened {supply : Supply} {a : Assembler} (h : Opened supply a) :
    a.flow.nodeIds ≠ [] := by
  cases h <;> simp [method, field, classType, openEntry, FlowGraph.addNode, Graph.addNode,
    Graph.hasNode, FlowGraph.nodeIds, Graph.nodeIds] <;> split <;> simp

theorem Reachable.nodeIds_ne_nil {supply : Supply} {a : Assembler} (h : Reachable supply a) :
    a.flow.nodeIds ≠ [] := by
  induction h with
  | opened h => exact nodeIds_opened h
  | @step a op _ ih =>
    intro hnil
    have hp := nodeIds_apply op a
    rw [hnil, List.prefix_nil] at hp
    exact ih hp

end Assembler

inductive Cfg.Assembled : Cfg → Prop where
  | finished {supply a} : Assembler.Reachable supply a → Assembled a.toCfg
  | computed {c} : Assembled c → Assembled c.computeBlocks

end ProgramFlow
