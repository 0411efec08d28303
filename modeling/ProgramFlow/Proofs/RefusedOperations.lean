import ProgramFlow.Proofs.ParameterLinks

/-! Which operations of an assembler fail, and that those leave no trace. An operation looks up the
owner of what it is to make, makes a node, and looks the owner up again to note the node there. A
failure of the second look would leave a node behind that nobody lists. It cannot happen, since a
new node hides none that was there; so whatever fails does so before anything was made. -/
namespace ProgramFlow

def FlowGraph.call? (g : FlowGraph) (id : NodeId) : Option Call := (g.node? id).bind Node.call?

theorem FlowGraph.Grows.startNode? {g h : FlowGraph} {f : Node → Node} {fresh : Option Node}
    {targets : List NodeId} (hg : g.Grows f fresh targets h)
    (hs : g.startNode?.isSome = true) : h.startNode? = g.startNode?.map f := by
  have hids : (fun n : Node => decide (n.id = g.start)) ∘ f = fun n => decide (n.id = g.start) := by
    funext n
    rw [Function.comp_apply, hg.keeps.id]
  have hold : (g.nodes.map f).find? (fun n => decide (n.id = g.start)) = g.startNode?.map f := by
    rw [List.find?_map, hids]
    rfl
  have hnew : h.startNode? = h.nodes.find? fun n => decide (n.id = h.start) := rfl
  rw [hnew, hg.nodes, hg.start, List.find?_append, hold, Option.or_of_isSome]
  rw [Option.isSome_map, hs]

/-- When an operation is to fail: its owner is no call of the graph, the declaration is no method,
or the place for the returned value is taken. -/
def AssemblerOp.Refused (g : FlowGraph) : AssemblerOp NodeId → Prop
  | .receiver owner _ _ _ | .actualIn owner _ _ _ | .actualOut owner _ _ _ => g.call? owner = none
  | .actualOutForReturn owner _ _ =>
    g.call? owner = none ∨ ∃ c, g.call? owner = some c ∧ c.actualOutForReturn.isSome = true
  | .formalIn _ _ _ | .formalOut _ _ _ | .exceptionTarget _ => g.methodEntry? = none
  | .formalOutForReturn _ _ =>
    g.methodEntry? = none ∨ ∃ m, g.methodEntry? = some m ∧ m.formalOutForReturn.isSome = true
  | _ => False

namespace Assembler

variable {a : Assembler}

theorem call?_of_callAt {id : NodeId} {c : Call} (h : a.callAt id = .ok c) :
    a.flow.call? id = some c := by
  unfold callAt at h
  split at h
  · next n hn =>
    split at h
    · next hc =>
      cases h
      rw [FlowGraph.call?, hn, Option.bind_some, Node.call?, hc]
    · cases h
  · cases h

theorem call?_of_callAt_error {id : NodeId} {e : CfgError} (h : a.callAt id = .error e) :
    a.flow.call? id = none := by
  unfold callAt at h
  split at h
  · next n hn =>
    split at h
    · cases h
    · next hc =>
      rw [FlowGraph.call?, hn, Option.bind_some, Node.call?]
      split
      · next c hdata => exact absurd hdata (hc c)
      · rfl
  · next hn => rw [FlowGraph.call?, hn, Option.bind_none]

theorem methodEntry?_of_methodEntry {m : MethodEntry} (h : a.methodEntry = .ok m) :
    a.flow.methodEntry? = some m := by
  unfold methodEntry at h
  split at h
  · next hm => rw [hm, Except.ok.inj h]
  · cases h

theorem methodEntry?_of_methodEntry_error {e : CfgError} (h : a.methodEntry = .error e) :
    a.flow.methodEntry? = none := by
  unfold methodEntry at h
  split at h
  · cases h
  · next hm => exact hm

/-- An answer is a failure exactly under a condition, and then the assembler is the one before. -/
structure FailsCleanly (a : Assembler) (refused : Prop) (answer : Assembled OpResult) : Prop where
  fails_iff : (∃ e, answer.1 = .error e) ↔ refused
  unchanged : ∀ e, answer.1 = .error e → answer.2 = a

variable {refused : Prop}

theorem FailsCleanly.failed (h : refused) (e : CfgError) : a.FailsCleanly refused (.error e, a) :=
  ⟨⟨fun _ => h, fun _ => ⟨e, rfl⟩⟩, fun _ _ => rfl⟩

theorem FailsCleanly.answered (h : ¬ refused) (result : OpResult) (b : Assembler) :
    a.FailsCleanly refused (.ok result, b) := by
  refine ⟨⟨?_, fun hr => absurd hr h⟩, ?_⟩
  · rintro ⟨e, he⟩
    cases he
  · intro e he
    cases he

theorem failsCleanly_apply (a : Assembler) (op : AssemblerOp NodeId) :
    a.FailsCleanly (op.Refused a.flow) (op.apply a) := by
  cases op with
  | statement | call | merge | dummy | annotate | connect | loopback | sequence | peek =>
    exact .answered not_false _ _
  | receiver | actualIn | actualOut =>
    simp only [AssemblerOp.apply, AssemblerOp.ofNode?, receiver, actualIn, actualOut]
    split
    · next he => exact .failed (call?_of_callAt_error he) _
    · next hc =>
      rw [noteAtCall_add hc]
      exact .answered (by simp [AssemblerOp.Refused, call?_of_callAt hc]) _ _
  | actualOutForReturn =>
    simp only [AssemblerOp.apply, AssemblerOp.ofNode?, actualOutForReturn]
    split
    · next he => exact .failed (.inl (call?_of_callAt_error he)) _
    · next c hc =>
      split
      · next htaken => exact .failed (.inr ⟨c, call?_of_callAt hc, htaken⟩) _
      · next hfree =>
        rw [noteAtCall_add hc]
        exact .answered (by simpa [AssemblerOp.Refused, call?_of_callAt hc] using hfree) _ _
  | formalIn | formalOut | exceptionTarget =>
    simp only [AssemblerOp.apply, AssemblerOp.ofNode?, formalIn, formalOut, exceptionTarget,
      statement]
    split
    · next he => exact .failed (methodEntry?_of_methodEntry_error he) _
    · next hm =>
      rw [noteAtEntry_add hm]
      exact .answered (by simp [AssemblerOp.Refused, methodEntry?_of_methodEntry hm]) _ _
  | formalOutForReturn =>
    simp only [AssemblerOp.apply, AssemblerOp.ofNode?, formalOutForReturn]
    split
    · next he => exact .failed (.inl (methodEntry?_of_methodEntry_error he)) _
    · next m hm =>
      split
      · next htaken => exact .failed (.inr ⟨m, methodEntry?_of_methodEntry hm, htaken⟩) _
      · next hfree =>
        rw [noteAtEntry_add hm]
        exact .answered (by simpa [AssemblerOp.Refused, methodEntry?_of_methodEntry hm] using hfree)
          _ _

theorem Reachable.isSome_startNode? {supply : Supply} (h : Reachable supply a) :
    a.flow.startNode?.isSome = true := by
  rcases h.entered with h | h
  · exact h.start
  · exact h.start

/-- No operation turns the declaration into a method or makes it cease to be one. -/
theorem Reachable.isSome_methodEntry?_apply {supply : Supply} (h : Reachable supply a)
    (op : AssemblerOp NodeId) :
    (op.apply a).2.flow.methodEntry?.isSome = a.flow.methodEntry?.isSome := by
  obtain ⟨f, fresh, hgrows⟩ := h.ready.grows_apply op
  have hkept : ∀ n, (Node.methodEntry? (f n)).isSome = n.methodEntry?.isSome := fun n =>
    hgrows.keeps.canOwn n .formalIn
  rw [FlowGraph.methodEntry?, FlowGraph.methodEntry?, hgrows.startNode? h.isSome_startNode?]
  cases a.flow.startNode? with
  | none => rfl
  | some n => exact hkept n

theorem Reachable.isSome_methodEntry?_run {supply : Supply} (h : Reachable supply a)
    (ops : List (AssemblerOp NodeId)) :
    (AssemblerOp.run ops a).flow.methodEntry?.isSome = a.flow.methodEntry?.isSome := by
  induction ops generalizing a with
  | nil => rfl
  | cons op rest ih => exact (ih (h.step op)).trans (h.isSome_methodEntry?_apply op)

theorem methodEntry?_openEntry (supply : Supply) (kind : DeclKind)
    (name signature qualifiedName : String) (detail : EntryDetail) :
    (openEntry supply kind name signature qualifiedName detail).flow.methodEntry? =
      Entry.method? { kind, name, signature, qualifiedName, detail } := by
  have hstart : (openEntry supply kind name signature qualifiedName detail).flow.startNode? =
      (openEntry supply kind name signature qualifiedName detail).flow.nodes.head? := by
    change List.find? _ (openEntry supply kind name signature qualifiedName detail).flow.nodes = _
    rw [nodes_openEntry]
    exact List.find?_cons_of_pos (decide_eq_true rfl)
  rw [FlowGraph.methodEntry?, hstart, nodes_openEntry]
  rfl

/-- Of the assemblers just opened, those of methods and no others have the entry of a method. -/
theorem isSome_methodEntry?_iff {supply : Supply} (h : Opened supply a) :
    a.flow.methodEntry?.isSome = true ↔ ∃ kind name signature qualifiedName returnType,
      a = method supply kind name signature qualifiedName returnType := by
  constructor
  · intro hsome
    cases h with
    | method => exact ⟨_, _, _, _, _, rfl⟩
    | field =>
      rw [field, methodEntry?_openEntry] at hsome
      cases hsome
    | classType =>
      rw [classType, methodEntry?_openEntry] at hsome
      cases hsome
  · rintro ⟨kind, name, signature, qualifiedName, returnType, rfl⟩
    rw [method, methodEntry?_openEntry]
    rfl

/-- An operation fails exactly if it is to be refused, and a failed one leaves the nodes, the edges
and the supply as they were. In the graphs that operations lead to, those of methods and no others
are the ones that have been opened as such. -/
theorem failed_operations_leave_no_trace :
    (∀ (a : Assembler) (op : AssemblerOp NodeId),
      ((∃ e, (op.apply a).1 = .error e) ↔ op.Refused a.flow) ∧
        ∀ e, (op.apply a).1 = .error e → (op.apply a).2 = a) ∧
    ∀ supply a, Opened supply a → ∀ ops,
      ((AssemblerOp.run ops a).flow.methodEntry?.isSome = true ↔
        ∃ kind name signature qualifiedName returnType,
          a = method supply kind name signature qualifiedName returnType) := by
  constructor
  · intro a op
    have h := a.failsCleanly_apply op
    exact ⟨h.fails_iff, h.unchanged⟩
  · intro supply a h ops
    rw [(Reachable.opened h).isSome_methodEntry?_run ops]
    exact isSome_methodEntry?_iff h

def returningCall : List (AssemblerOp NodeId) :=
  [.call .methodCall ⟨"g", "A.g", "int", "A", [], .empty⟩ {}, .actualOutForReturn 3 "int" {}]

/-- The place for the returned value is taken, a parameter is no call, and a field is no method. -/
theorem failed_operations_leave_no_trace_in_field :
    ∃ a, Opened {} a ∧
      (¬ ∃ kind name signature qualifiedName returnType,
        a = method {} kind name signature qualifiedName returnType) ∧
      let b := AssemblerOp.run returningCall a
      ∀ op ∈ [AssemblerOp.actualOutForReturn 3 "int" {}, .actualIn 4 "x" "int" {},
          .formalIn "x" "int" {}],
        (∃ e, (op.apply b).1 = .error e) ∧ (op.apply b).2 = b := by
  obtain ⟨a, ha⟩ : ∃ a, a = field {} .field "x" "A.x" := ⟨_, rfl⟩
  obtain ⟨b, hb⟩ : ∃ b, b = AssemblerOp.run returningCall a := ⟨_, rfl⟩
  have hopened : Opened {} a := ha ▸ .field ..
  have htaken : (b.flow.call? 3).map (·.actualOutForReturn.isSome) = some true := by
    rw [hb, ha]; decide +kernel
  have hparameter : b.flow.call? 4 = none := by rw [hb, ha]; decide +kernel
  have hentry : b.flow.methodEntry? = none := by rw [hb, ha]; decide +kernel
  obtain ⟨hfails, hmethod⟩ := failed_operations_leave_no_trace
  refine ⟨a, hopened, ?_, ?_⟩
  · rw [← hmethod {} a hopened returningCall, ← hb, hentry]
    exact Bool.false_ne_true
  · intro b' op hop
    obtain rfl : b' = b := hb.symm
    have hrefused : op.Refused b'.flow := by
      simp only [List.mem_cons, List.not_mem_nil, or_false] at hop
      rcases hop with rfl | rfl | rfl
      · exact .inr (Option.map_eq_some_iff.1 htaken)
      · exact hparameter
      · exact hentry
    obtain ⟨hfail, hsame⟩ := hfails b' op
    obtain ⟨e, he⟩ := hfail.2 hrefused
    exact ⟨⟨e, he⟩, hsame e he⟩

end Assembler

end ProgramFlow
