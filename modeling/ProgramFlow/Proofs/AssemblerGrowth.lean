import ProgramFlow.Proofs.Offering

/-! What the operations of an assembler do to the nodes. Each node stays what it is, at most one is
made, and a new parameter is noted by its owner and by nobody else. `Grows` says this once for all
operations, failed ones included, so that an invariant of the nodes needs one case only. -/
namespace ProgramFlow

def Call.listed (c : Call) : ParameterKind → Bool → List NodeId
  | .actualIn, false => c.actualIns
  | .actualOut, false => c.actualOuts
  | .actualOut, true => c.actualOutForReturn.toList
  | _, _ => []

def MethodEntry.listed (m : MethodEntry) : ParameterKind → Bool → List NodeId
  | .formalIn, false => m.formalIns
  | .formalOut, false => m.formalOuts
  | .formalOut, true => m.formalOutForReturn.toList
  | _, _ => []

namespace Node

def listed (n : Node) (kind : ParameterKind) (forReturn : Bool) : List NodeId :=
  match n.data with
  | .call c => c.listed kind forReturn
  | .entry e => (e.method?.map fun m => m.listed kind forReturn).getD []
  | _ => []

def receiver? (n : Node) : Option NodeId := n.call?.bind (·.receiver)

def exceptions (n : Node) : List NodeId := (n.methodEntry?.map (·.exceptions)).getD []

def canOwn (n : Node) (kind : ParameterKind) : Bool :=
  if kind.isFormal then n.methodEntry?.isSome else n.isCall

def isParameterOf (n : Node) (owner : NodeId) (kind : ParameterKind) (forReturn : Bool) : Bool :=
  n.parameter?.any fun p => p.owner = owner && p.kind = kind && p.forReturn = forReturn

def ordinal (n : Node) : Nat := (n.parameter?.map (·.ordinal)).getD 0

theorem data_of_call? {n : Node} {c : Call} (h : n.call? = some c) : n.data = .call c := by
  unfold call? at h
  split at h
  · next hdata => rw [hdata, Option.some.inj h]
  · cases h

theorem data_of_methodEntry? {n : Node} {m : MethodEntry} (h : n.methodEntry? = some m) :
    ∃ e, n.data = .entry e ∧ e.detail = .method m := by
  obtain ⟨e, he, hm⟩ := Option.bind_eq_some_iff.1 h
  refine ⟨e, ?_, ?_⟩
  · unfold entry? at he
    split at he
    · next hdata => rw [hdata, Option.some.inj he]
    · cases he
  · unfold Entry.method? at hm
    split at hm
    · next hdetail => rw [hdetail, Option.some.inj hm]
    · cases hm

theorem kind_of_listed_forReturn {n : Node} {kind : ParameterKind} (h : n.listed kind true ≠ []) :
    kind = if n.isCall then .actualOut else .formalOut := by
  unfold listed at h
  split at h
  · next c hc => cases kind <;> simp_all [Call.listed, isCall, call?]
  · next e he =>
    cases hm : e.method? <;> cases kind <;> simp_all [MethodEntry.listed, isCall, call?]
  · exact absurd rfl h

theorem length_listed_forReturn (n : Node) (kind : ParameterKind) :
    (n.listed kind true).length ≤ 1 := by
  unfold listed
  split
  · next c _ => cases kind <;> simp [Call.listed, Option.length_toList_le]
  · next e _ => cases e.method? <;> cases kind <;> simp [MethodEntry.listed, Option.length_toList_le]
  · exact Nat.zero_le 1

theorem isParameterOf_iff {n : Node} {owner : NodeId} {kind : ParameterKind} {forReturn : Bool} :
    n.isParameterOf owner kind forReturn = true ↔ ∃ p, n.parameter? = some p ∧
      p.owner = owner ∧ p.kind = kind ∧ p.forReturn = forReturn := by
  simp only [isParameterOf, Option.any_eq_true, Bool.and_eq_true, decide_eq_true_eq, and_assoc]

structure Keeps (f : Node → Node) : Prop where
  id : ∀ n, (f n).id = n.id
  isEntry : ∀ n, (f n).isEntry = n.isEntry
  isExit : ∀ n, (f n).isExit = n.isExit
  name : ∀ n, (f n).qualifiedName? = n.qualifiedName?
  parameter : ∀ n, (f n).parameter? = n.parameter?
  canOwn : ∀ n kind, (f n).canOwn kind = n.canOwn kind

namespace Keeps

variable {f : Node → Node}

theorem refl : Keeps fun n => n :=
  ⟨fun _ => rfl, fun _ => rfl, fun _ => rfl, fun _ => rfl, fun _ => rfl, fun _ _ => rfl⟩

theorem onCall (u : Call → Call) : Keeps (Assembler.onCall u) := by
  have h : ∀ n, Assembler.onCall u n = n ∨ ∃ c, n.data = .call c ∧
      Assembler.onCall u n = { n with data := .call (u c) } := by
    intro n
    unfold Assembler.onCall
    split
    · next c hc => exact .inr ⟨c, hc, rfl⟩
    · exact .inl rfl
  constructor <;> intro n <;> rcases h n with heq | ⟨c, hc, heq⟩ <;> rw [heq]
  · simp [Node.isEntry, entry?, hc]
  · simp [Node.isExit, hc]
  · simp [qualifiedName?, hc]
  · simp [parameter?, hc]
  · exact fun _ => rfl
  · simp [Node.canOwn, methodEntry?, entry?, isCall, call?, hc]

theorem onMethodEntry (u : MethodEntry → MethodEntry) : Keeps (Assembler.onMethodEntry u) := by
  have h : ∀ n, Assembler.onMethodEntry u n = n ∨ ∃ e m, n.data = .entry e ∧
      e.detail = .method m ∧
      Assembler.onMethodEntry u n = { n with data := .entry { e with detail := .method (u m) } } := by
    intro n
    unfold Assembler.onMethodEntry
    split
    · next e he =>
      split
      · next m hm => exact .inr ⟨e, m, he, hm, rfl⟩
      · exact .inl rfl
    · exact .inl rfl
  constructor <;> intro n <;> rcases h n with heq | ⟨e, m, he, hm, heq⟩ <;> rw [heq]
  · simp [Node.isEntry, entry?, he]
  · simp [Node.isExit, he]
  · simp [qualifiedName?, he]
  · simp [parameter?, he]
  · exact fun _ => rfl
  · simp [Node.canOwn, methodEntry?, entry?, Entry.method?, isCall, call?, he, hm]

theorem only (h : Keeps f) (id : NodeId) : Keeps fun n => if n.id = id then f n else n := by
  constructor <;> intro n <;> split
  · exact h.id n
  · rfl
  · exact h.isEntry n
  · rfl
  · exact h.isExit n
  · rfl
  · exact h.name n
  · rfl
  · exact h.parameter n
  · rfl
  · exact h.canOwn n
  · exact fun _ => rfl

theorem isParameterOf (h : Keeps f) (n : Node) (owner : NodeId) (kind : ParameterKind)
    (forReturn : Bool) : (f n).isParameterOf owner kind forReturn =
      n.isParameterOf owner kind forReturn := by
  rw [Node.isParameterOf, h.parameter]
  rfl

theorem ordinal (h : Keeps f) (n : Node) : (f n).ordinal = n.ordinal := by
  rw [Node.ordinal, h.parameter]
  rfl

end Keeps

end Node

namespace FlowGraph

def parametersOf (g : FlowGraph) (owner : NodeId) (kind : ParameterKind) (forReturn : Bool) :
    List Node :=
  g.nodes.filter (·.isParameterOf owner kind forReturn)

/-- What one operation does to a graph. It may change nodes without changing what they are, it may
make one node, and `targets` are the exception targets among what it made. Receivers are not
listed: a call keeps the last one. -/
structure Grows (g : FlowGraph) (f : Node → Node) (fresh : Option Node) (targets : List NodeId)
    (h : FlowGraph) : Prop where
  nodes : h.nodes = g.nodes.map f ++ fresh.toList
  name : h.qualifiedName = g.qualifiedName
  start : h.start = g.start
  finish : h.finish = g.finish
  keeps : Node.Keeps f
  listed : ∀ n ∈ g.nodes, ∀ kind forReturn, (kind = .receiver → forReturn = true) →
    (f n).listed kind forReturn = n.listed kind forReturn ++
      (fresh.toList.filter (·.isParameterOf n.id kind forReturn)).map Node.id
  receiver : ∀ n ∈ g.nodes, (f n).receiver? =
    ((fresh.toList.filter (·.isParameterOf n.id .receiver false)).getLast?.map Node.id).or
      n.receiver?
  exceptions : ∀ n ∈ g.nodes, n.id = g.start → (f n).exceptions = n.exceptions ++ targets
  new : ∀ m ∈ fresh, m.id ∉ g.nodeIds
  blank : ∀ m ∈ fresh, (∀ kind forReturn, m.listed kind forReturn = []) ∧ m.receiver? = none ∧
    m.isEntry = false
  owned : ∀ m ∈ fresh, ∀ p, m.parameter? = some p → ∃ n ∈ g.nodes, n.id = p.owner ∧
    n.canOwn p.kind = true ∧
    ((p.kind = .receiver → p.forReturn = true) →
      p.ordinal = (n.listed p.kind p.forReturn).length)

end FlowGraph

namespace Assembler

variable {a : Assembler}

def newNode (a : Assembler) (data : NodeData) : Node :=
  { id := a.supply.ids.peek, data, link := ⟨a.supply.nextLink⟩ }

@[simp] theorem newNode_id (a : Assembler) (data : NodeData) :
    (a.newNode data).id = a.supply.ids.peek := rfl

/-- No two nodes have the same identity, and the next one is none of theirs. -/
structure Ready (a : Assembler) : Prop where
  nodup : a.flow.nodeIds.Nodup
  fresh : a.supply.ids.peek ∉ a.flow.nodeIds

theorem Reachable.ready {supply : Supply} (h : Reachable supply a) : a.Ready :=
  ⟨h.made.nodup_nodeIds, h.numbered.peek_not_mem⟩

theorem Ready.nodes_add (h : a.Ready) (data : NodeData) :
    (a.add data).2.flow.nodes = a.flow.nodes ++ [a.newNode data] := by
  have hn : ¬a.flow.graph.hasNode (Vertex.id (a.newNode data)) = true := by
    rw [Graph.hasNode_iff]
    exact h.fresh
  change (a.flow.graph.addNode (a.newNode data)).2.nodes = _
  rw [Graph.addNode, if_neg hn]
  rfl

theorem Ready.nodes_add_modifyNode (h : a.Ready) (data : NodeData) {owner : NodeId}
    (ho : owner ∈ a.flow.nodeIds) (f : Node → Node) :
    ((a.add data).2.flow.modifyNode owner f).nodes =
      a.flow.nodes.map (fun n => if n.id = owner then f n else n) ++ [a.newNode data] := by
  have hne : (a.newNode data).id ≠ owner := by
    rintro rfl
    exact h.fresh ho
  change (a.add data).2.flow.nodes.map (fun n => if n.id = owner then f n else n) = _
  rw [h.nodes_add, List.map_append, List.map_singleton, if_neg hne]

theorem grows_refl (a : Assembler) : a.flow.Grows (fun n => n) none [] a.flow := by
  refine ⟨?_, rfl, rfl, rfl, .refl, ?_, ?_, ?_, ?_, ?_, ?_⟩ <;> simp

theorem grows_addFlow {g : FlowGraph} {f : Node → Node} {fresh : Option Node}
    {targets : List NodeId} (h : g.Grows f fresh targets a.flow) (e : Flow) :
    g.Grows f fresh targets (a.addFlow e).2.flow :=
  { h with nodes := (Graph.nodes_addEdge a.flow.graph e).trans h.nodes }

theorem grows_annotate (a : Assembler) (id : NodeId) (span : Span) (label : String) :
    a.flow.Grows (fun n => if n.id = id then { n with span := some span, label } else n) none []
      (a.flow.modifyNode id fun n => { n with span := some span, label }) := by
  have hkeeps : Node.Keeps fun n => { n with span := some span, label } :=
    ⟨fun _ => rfl, fun _ => rfl, fun _ => rfl, fun _ => rfl, fun _ => rfl, fun _ _ => rfl⟩
  refine ⟨?_, rfl, rfl, rfl, hkeeps.only id, ?_, ?_, ?_, by simp, by simp, by simp⟩
  · exact (List.append_nil _).symm
  · intro n _ kind forReturn _
    split <;> exact (List.append_nil _).symm
  · intro n _
    split <;> rfl
  · intro n _ _
    split <;> exact (List.append_nil _).symm

theorem Ready.grows_add (h : a.Ready) {data : NodeData}
    (hparameter : (a.newNode data).parameter? = none)
    (hblank : (∀ kind forReturn, (a.newNode data).listed kind forReturn = []) ∧
      (a.newNode data).receiver? = none ∧ (a.newNode data).isEntry = false) :
    a.flow.Grows (fun n => n) (some (a.newNode data)) [] (a.add data).2.flow := by
  have hnone : ∀ owner kind forReturn,
      (a.newNode data).isParameterOf owner kind forReturn = false := by
    intro owner kind forReturn
    rw [Node.isParameterOf, hparameter]
    rfl
  refine ⟨?_, rfl, rfl, rfl, .refl, ?_, ?_, ?_, ?_, ?_, ?_⟩
  · simp [h.nodes_add]
  · simp [hnone]
  · simp [hnone]
  · simp
  · simpa [newNode] using h.fresh
  · simpa using hblank
  · simp [hparameter]

/-- A node is made, and a node that is there is changed on account of it. -/
theorem Ready.grows_add_modifyNode (h : a.Ready) {data : NodeData} {n : Node} {f : Node → Node}
    {targets : List NodeId} (hn : n ∈ a.flow.nodes) (hf : Node.Keeps f)
    (hlisted : ∀ kind forReturn, (kind = .receiver → forReturn = true) →
      (f n).listed kind forReturn = n.listed kind forReturn ++
        if (a.newNode data).isParameterOf n.id kind forReturn then [a.supply.ids.peek] else [])
    (hreceiver : (f n).receiver? = if (a.newNode data).isParameterOf n.id .receiver false
      then some a.supply.ids.peek else n.receiver?)
    (hexceptions : (f n).exceptions = n.exceptions ++ targets)
    (htargets : targets = [] ∨ n.id = a.flow.start)
    (hblank : (∀ kind forReturn, (a.newNode data).listed kind forReturn = []) ∧
      (a.newNode data).receiver? = none ∧ (a.newNode data).isEntry = false)
    (howned : ∀ p, data = .parameter p → p.owner = n.id ∧ n.canOwn p.kind = true ∧
      ((p.kind = .receiver → p.forReturn = true) →
        p.ordinal = (n.listed p.kind p.forReturn).length)) :
    a.flow.Grows (fun x => if x.id = n.id then f x else x) (some (a.newNode data)) targets
      ((a.add data).2.flow.modifyNode n.id f) := by
  have hid : n.id ∈ a.flow.nodeIds := List.mem_map_of_mem hn
  have hparameter : ∀ p, (a.newNode data).parameter? = some p → data = .parameter p := by
    intro p hp
    simp only [newNode, Node.parameter?] at hp
    split at hp
    · rw [← Option.some.inj hp]
    · cases hp
  -- the changed node is the only one of its identity, and nobody else owns what was made
  have honly : ∀ x ∈ a.flow.nodes, x.id = n.id → x = n := fun x hx heq =>
    List.inj_on_of_nodup_map h.nodup hx hn heq
  have hothers : ∀ x : Node, x.id ≠ n.id → ∀ kind forReturn,
      (a.newNode data).isParameterOf x.id kind forReturn = false := by
    intro x hne kind forReturn
    rw [Bool.eq_false_iff]
    intro hp
    obtain ⟨p, hp, howner, -⟩ := Node.isParameterOf_iff.1 hp
    exact hne (howner.symm.trans (howned p (hparameter p hp)).1)
  refine ⟨?_, rfl, rfl, rfl, hf.only n.id, ?_, ?_, ?_, ?_, ?_, ?_⟩
  · exact h.nodes_add_modifyNode data hid f
  · intro x hx kind forReturn hk
    by_cases hxn : x.id = n.id
    · obtain rfl := honly x hx hxn
      rw [if_pos rfl, hlisted kind forReturn hk]
      cases hp : (a.newNode data).isParameterOf x.id kind forReturn <;> simp [hp]
    · simp [if_neg hxn, hothers x hxn]
  · intro x hx
    by_cases hxn : x.id = n.id
    · obtain rfl := honly x hx hxn
      rw [if_pos rfl, hreceiver]
      cases hp : (a.newNode data).isParameterOf x.id .receiver false <;> simp [hp]
    · simp [if_neg hxn, hothers x hxn]
  · intro x hx hstart
    by_cases hxn : x.id = n.id
    · obtain rfl := honly x hx hxn
      rw [if_pos rfl, hexceptions]
    · rw [if_neg hxn]
      rcases htargets with rfl | heq
      · exact (List.append_nil _).symm
      · exact absurd (hstart.trans heq.symm) hxn
  · rintro m ⟨⟩
    exact h.fresh
  · rintro m ⟨⟩
    exact hblank
  · rintro m ⟨⟩ p hp
    obtain ⟨howner, hown, hordinal⟩ := howned p (hparameter p hp)
    exact ⟨n, hn, howner.symm, hown, hordinal⟩

theorem exists_of_callAt {id : NodeId} {c : Call} (h : a.callAt id = .ok c) :
    ∃ n ∈ a.flow.nodes, n.id = id ∧ n.data = .call c := by
  unfold callAt at h
  split at h
  · next n hn =>
    split at h
    · next hc =>
      cases h
      exact ⟨n, List.mem_of_find?_eq_some hn, FlowGraph.id_of_node? hn, hc⟩
    · cases h
  · cases h

theorem exists_of_methodEntry {m : MethodEntry} (h : a.methodEntry = .ok m) :
    ∃ n ∈ a.flow.nodes, n.id = a.start ∧ ∃ e, n.data = .entry e ∧ e.detail = .method m := by
  unfold methodEntry at h
  split at h
  · next entry hentry =>
    cases h
    obtain ⟨n, hn, hm⟩ := Option.bind_eq_some_iff.1 hentry
    exact ⟨n, List.mem_of_find?_eq_some hn, FlowGraph.id_of_node? hn, Node.data_of_methodEntry? hm⟩
  · cases h

theorem isParameterOf_newNode (a : Assembler) (p : Parameter) (owner : NodeId)
    (kind : ParameterKind) (forReturn : Bool) :
    (a.newNode (.parameter p)).isParameterOf owner kind forReturn =
      (p.owner = owner && p.kind = kind && p.forReturn = forReturn : Bool) := rfl

theorem blank_newNode (a : Assembler) (p : Parameter) :
    (∀ kind forReturn, (a.newNode (.parameter p)).listed kind forReturn = []) ∧
      (a.newNode (.parameter p)).receiver? = none ∧
      (a.newNode (.parameter p)).isEntry = false :=
  ⟨fun _ _ => rfl, rfl, rfl⟩

theorem Ready.grows_onCall (h : a.Ready) {owner : NodeId} {c : Call} (hc : a.callAt owner = .ok c)
    {p : Parameter} (howner : p.owner = owner) (hkind : p.kind.isFormal = false) {u : Call → Call}
    (hlisted : ∀ kind forReturn, (kind = .receiver → forReturn = true) →
      (u c).listed kind forReturn = c.listed kind forReturn ++
        if p.kind = kind ∧ p.forReturn = forReturn then [a.supply.ids.peek] else [])
    (hreceiver : (u c).receiver =
      if p.kind = .receiver ∧ p.forReturn = false then some a.supply.ids.peek else c.receiver)
    (hordinal : (p.kind = .receiver → p.forReturn = true) →
      p.ordinal = (c.listed p.kind p.forReturn).length) :
    ∃ f fresh, a.flow.Grows f fresh [] ((a.add (.parameter p)).2.modifyCall owner u).flow := by
  obtain ⟨n, hn, rfl, hdata⟩ := exists_of_callAt hc
  have hlists : ∀ kind forReturn, n.listed kind forReturn = c.listed kind forReturn := by
    intro kind forReturn
    simp only [Node.listed, hdata]
  refine ⟨_, _, h.grows_add_modifyNode hn (.onCall u) ?_ ?_ ?_ (.inl rfl) (a.blank_newNode p) ?_⟩
  · intro kind forReturn hk
    rw [hlists]
    simp [Node.listed, onCall, hdata, hlisted kind forReturn hk, isParameterOf_newNode, howner]
  · simp [Node.receiver?, Node.call?, onCall, hdata, hreceiver, isParameterOf_newNode, howner]
  · simp [Node.exceptions, Node.methodEntry?, Node.entry?, onCall, hdata]
  · rintro p' ⟨⟩
    refine ⟨howner, ?_, fun hk => ?_⟩
    · simp [Node.canOwn, hkind, Node.isCall, Node.call?, hdata]
    · rw [hlists, hordinal hk]

theorem flow_add_modifyMethodEntry {data : NodeData} (u : MethodEntry → MethodEntry) {id : NodeId}
    (hid : id = a.start) : ((a.add data).2.modifyMethodEntry u).flow =
      (a.add data).2.flow.modifyNode id (onMethodEntry u) := by
  rw [hid]
  rfl

theorem Ready.grows_onMethodEntry (h : a.Ready) {m : MethodEntry} (hm : a.methodEntry = .ok m)
    {p : Parameter} (howner : p.owner = a.start) (hkind : p.kind.isFormal = true)
    {u : MethodEntry → MethodEntry}
    (hlisted : ∀ kind forReturn, (u m).listed kind forReturn = m.listed kind forReturn ++
      if p.kind = kind ∧ p.forReturn = forReturn then [a.supply.ids.peek] else [])
    (hexceptions : (u m).exceptions = m.exceptions)
    (hordinal : p.ordinal = (m.listed p.kind p.forReturn).length) :
    ∃ f fresh, a.flow.Grows f fresh [] ((a.add (.parameter p)).2.modifyMethodEntry u).flow := by
  obtain ⟨n, hn, hid, e, hdata, hdetail⟩ := exists_of_methodEntry hm
  have hlists : ∀ kind forReturn, n.listed kind forReturn = m.listed kind forReturn := by
    intro kind forReturn
    simp [Node.listed, hdata, Entry.method?, hdetail]
  have hreceiver : p.kind ≠ .receiver := by
    intro heq
    rw [heq] at hkind
    cases hkind
  rw [flow_add_modifyMethodEntry u hid]
  refine ⟨_, _, h.grows_add_modifyNode hn (.onMethodEntry u) ?_ ?_ ?_ (.inl rfl)
    (a.blank_newNode p) ?_⟩
  · intro kind forReturn hk
    rw [hlists]
    simp [Node.listed, onMethodEntry, hdata, hdetail, Entry.method?, hlisted, isParameterOf_newNode,
      howner, hid]
  · simp [Node.receiver?, Node.call?, onMethodEntry, hdata, hdetail, isParameterOf_newNode,
      hreceiver]
  · simp [Node.exceptions, Node.methodEntry?, Node.entry?, Entry.method?, onMethodEntry, hdata,
      hdetail, hexceptions]
  · rintro p' ⟨⟩
    refine ⟨howner.trans hid.symm, ?_, fun hk => ?_⟩
    · simp [Node.canOwn, hkind, Node.methodEntry?, Node.entry?, Entry.method?, hdata, hdetail]
    · rw [hlists, hordinal]

theorem Ready.grows_exceptionTarget (h : a.Ready) {m : MethodEntry} (hm : a.methodEntry = .ok m)
    (defUse : DefUse) :
    ∃ f fresh, a.flow.Grows f fresh [a.supply.ids.peek]
      (((a.add (.statement ⟨.catchBlock, defUse⟩)).2.modifyMethodEntry fun m =>
        { m with exceptions := m.exceptions ++ [a.supply.ids.peek] }).flow) := by
  obtain ⟨n, hn, hid, e, hdata, hdetail⟩ := exists_of_methodEntry hm
  rw [flow_add_modifyMethodEntry _ hid]
  refine ⟨_, _, h.grows_add_modifyNode hn (.onMethodEntry _) ?_ ?_ ?_ (.inr hid)
    ⟨fun _ _ => rfl, rfl, rfl⟩ ?_⟩
  · intro kind forReturn hk
    simp [Node.listed, onMethodEntry, hdata, hdetail, Entry.method?, Node.isParameterOf, newNode,
      Node.parameter?, MethodEntry.listed]
  · simp [Node.receiver?, Node.call?, onMethodEntry, hdata, hdetail, Node.isParameterOf, newNode,
      Node.parameter?]
  · simp [Node.exceptions, Node.methodEntry?, Node.entry?, Entry.method?, onMethodEntry, hdata,
      hdetail]
  · rintro p ⟨⟩

end Assembler

namespace AssemblerOp

def caught : AssemblerOp NodeId → Except CfgError OpResult → List NodeId
  | .exceptionTarget _, .ok (.node id) => [id]
  | _, _ => []

def exceptionTargets : List (AssemblerOp NodeId) → Assembler → List NodeId
  | [], _ => []
  | op :: rest, a => op.caught (op.apply a).1 ++ exceptionTargets rest (op.apply a).2

end AssemblerOp

namespace Assembler

variable {a : Assembler}

/-- Every operation makes a graph grow, and a failed one leaves it as it is. -/
theorem Ready.grows_apply (h : a.Ready) (op : AssemblerOp NodeId) :
    ∃ f fresh, a.flow.Grows f fresh (op.caught (op.apply a).1) (op.apply a).2.flow := by
  have hsame : ∃ f fresh, a.flow.Grows f fresh [] a.flow := ⟨_, _, a.grows_refl⟩
  cases op with
  | statement | merge | dummy => exact ⟨_, _, h.grows_add rfl ⟨fun _ _ => rfl, rfl, rfl⟩⟩
  | call kind callee defUse =>
    refine ⟨_, _, h.grows_add rfl ⟨fun kind forReturn => ?_, rfl, rfl⟩⟩
    cases kind <;> cases forReturn <;> rfl
  | receiver =>
    simp only [AssemblerOp.apply, AssemblerOp.ofNode?, receiver]
    split
    · exact hsame
    · next c hc =>
      rw [noteAtCall_add hc]
      refine h.grows_onCall hc rfl rfl (fun kind forReturn hk => ?_) rfl (fun hk => ?_)
      · cases kind <;> cases forReturn <;> simp_all [Call.listed]
      · cases hk rfl
  | actualIn =>
    simp only [AssemblerOp.apply, AssemblerOp.ofNode?, actualIn]
    split
    · exact hsame
    · next c hc =>
      rw [noteAtCall_add hc]
      refine h.grows_onCall hc rfl rfl (fun kind forReturn hk => ?_) rfl (fun hk => rfl)
      cases kind <;> cases forReturn <;> simp [Call.listed, add, Supply.newId]
  | actualOut =>
    simp only [AssemblerOp.apply, AssemblerOp.ofNode?, actualOut]
    split
    · exact hsame
    · next c hc =>
      rw [noteAtCall_add hc]
      refine h.grows_onCall hc rfl rfl (fun kind forReturn hk => ?_) rfl (fun hk => rfl)
      cases kind <;> cases forReturn <;> simp [Call.listed, add, Supply.newId]
  | actualOutForReturn =>
    simp only [AssemblerOp.apply, AssemblerOp.ofNode?, actualOutForReturn]
    split
    · exact hsame
    · next c hc =>
      split
      · exact hsame
      · next hfree =>
        rw [Option.not_isSome_iff_eq_none] at hfree
        rw [noteAtCall_add hc]
        refine h.grows_onCall hc rfl rfl (fun kind forReturn hk => ?_) rfl (fun hk => ?_)
        · cases kind <;> cases forReturn <;> simp [Call.listed, add, Supply.newId, hfree]
        · simp [Call.listed, hfree]
  | formalIn =>
    simp only [AssemblerOp.apply, AssemblerOp.ofNode?, formalIn]
    split
    · exact hsame
    · next m hm =>
      rw [noteAtEntry_add hm]
      refine h.grows_onMethodEntry hm rfl rfl (fun kind forReturn => ?_) rfl rfl
      cases kind <;> cases forReturn <;> simp [MethodEntry.listed, add, Supply.newId]
  | formalOut =>
    simp only [AssemblerOp.apply, AssemblerOp.ofNode?, formalOut]
    split
    · exact hsame
    · next m hm =>
      rw [noteAtEntry_add hm]
      refine h.grows_onMethodEntry hm rfl rfl (fun kind forReturn => ?_) rfl rfl
      cases kind <;> cases forReturn <;> simp [MethodEntry.listed, add, Supply.newId]
  | formalOutForReturn =>
    simp only [AssemblerOp.apply, AssemblerOp.ofNode?, formalOutForReturn]
    split
    · exact hsame
    · next m hm =>
      split
      · exact hsame
      · next hfree =>
        rw [Option.not_isSome_iff_eq_none] at hfree
        rw [noteAtEntry_add hm]
        refine h.grows_onMethodEntry hm rfl rfl (fun kind forReturn => ?_) rfl ?_
        · cases kind <;> cases forReturn <;> simp [MethodEntry.listed, add, Supply.newId, hfree]
        · simp [MethodEntry.listed, hfree]
  | exceptionTarget defUse =>
    simp only [AssemblerOp.apply, AssemblerOp.ofNode?, exceptionTarget, statement]
    split
    · exact hsame
    · next m hm =>
      rw [noteAtEntry_add hm]
      exact h.grows_exceptionTarget hm defUse
  | annotate id span label =>
    simp only [AssemblerOp.apply, AssemblerOp.ofDone, annotate]
    split
    · exact ⟨_, _, a.grows_annotate id span label⟩
    · exact hsame
  | connect | loopback => exact ⟨_, _, grows_addFlow a.grows_refl _⟩
  | sequence nodes =>
    refine ⟨_, _, sequence_induction (motive := fun b => a.flow.Grows (fun n => n) none [] b.flow)
      (fun _ e h => grows_addFlow h e) a.grows_refl nodes⟩
  | peek => exact hsame

end Assembler

end ProgramFlow
