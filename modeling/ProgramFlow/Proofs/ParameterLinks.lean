import ProgramFlow.Proofs.CallLinks
import ProgramFlow.Proofs.Registration

/-! Parameters between two methods. The edges of a link join positions of two lists, and by
registration the position of a parameter is its ordinal, so the edges join ordinals. What makes a
graph the graph of a method, parameter lists at its start, is kept by every operation. -/
namespace ProgramFlow

theorem length_passEdges (sources targets : List NodeId) :
    (passEdges sources targets).length = min sources.length targets.length := by
  rw [passEdges, List.length_map, List.length_zip]

theorem getElem?_passEdges {sources targets : List NodeId} {i : Nat} {e : Flow} :
    (passEdges sources targets)[i]? = some e ↔ ∃ x y, sources[i]? = some x ∧
      targets[i]? = some y ∧ e = ⟨x, y, .parameter, none⟩ := by
  rw [passEdges, List.getElem?_map, Option.map_eq_some_iff]
  constructor
  · rintro ⟨⟨x, y⟩, hxy, rfl⟩
    obtain ⟨hx, hy⟩ := List.getElem?_zip_eq_some.1 hxy
    exact ⟨x, y, hx, hy, rfl⟩
  · rintro ⟨x, y, hx, hy, rfl⟩
    exact ⟨(x, y), List.getElem?_zip_eq_some.2 ⟨hx, hy⟩, rfl⟩

structure ParameterRow where
  graph : FlowGraph
  owner : NodeId
  kind : ParameterKind
  forReturn : Bool

namespace ParameterRow

def count (r : ParameterRow) : Nat := (r.graph.parametersOf r.owner r.kind r.forReturn).length

def Has (r : ParameterRow) (ordinal : Nat) (id : NodeId) : Prop :=
  r.graph.HasParameter r.owner r.kind r.forReturn ordinal id

structure Numbered (r : ParameterRow) : Prop where
  exists_iff : ∀ i, (∃ x, r.Has i x) ↔ i < r.count
  unique : ∀ i x y, r.Has i x → r.Has i y → x = y

/-- One edge for each ordinal that both rows have, in the order of the ordinals, from the parameter
of this ordinal in the one row to that in the other. -/
structure PassesTo (source target : ParameterRow) (edges : List Flow) : Prop where
  length : edges.length = min source.count target.count
  edge : ∀ i e, edges[i]? = some e ↔ ∃ x y, source.Has i x ∧ target.Has i y ∧
    e = ⟨x, y, .parameter, none⟩

structure Lists (r : ParameterRow) (ids : List NodeId) : Prop where
  length : ids.length = r.count
  atOrdinal : ∀ i id, ids[i]? = some id ↔ r.Has i id

variable {source target r : ParameterRow} {ids sources targets : List NodeId}

theorem Lists.numbered (h : r.Lists ids) : r.Numbered := by
  constructor
  · intro i
    rw [← h.length, ← exists_congr (h.atOrdinal i)]
    constructor
    · rintro ⟨x, hx⟩
      exact (List.getElem?_eq_some_iff.1 hx).1
    · intro hi
      exact ⟨ids[i], List.getElem?_eq_getElem hi⟩
  · intro i x y hx hy
    rw [← h.atOrdinal] at hx hy
    exact Option.some.inj (hx.symm.trans hy)

theorem Lists.passesTo (hs : source.Lists sources) (ht : target.Lists targets) :
    source.PassesTo target (passEdges sources targets) := by
  constructor
  · rw [length_passEdges, hs.length, ht.length]
  · intro i e
    rw [getElem?_passEdges]
    simp only [hs.atOrdinal, ht.atOrdinal]

end ParameterRow

namespace FlowGraph

variable {g : FlowGraph} {targets : List NodeId}

def TakesParameters (g : FlowGraph) : Prop :=
  ∃ n ∈ g.nodes, n.id = g.start ∧ n.canOwn .formalIn = true

theorem Grows.takesParameters {h : FlowGraph} {f : Node → Node} {fresh : Option Node}
    (hg : g.Grows f fresh targets h) (hm : g.TakesParameters) : h.TakesParameters := by
  obtain ⟨n, hn, hid, hown⟩ := hm
  refine ⟨f n, hg.mem_nodes.2 (.inl ⟨n, hn, rfl⟩), ?_, ?_⟩
  · rw [hg.keeps.id, hg.start, hid]
  · rw [hg.keeps.canOwn, hown]

theorem TakesParameters.methodEntry (h : g.TakesParameters) (hnodup : g.nodeIds.Nodup) :
    ∃ m, g.methodEntry? = some m := by
  obtain ⟨n, hn, hid, hown⟩ := h
  obtain ⟨m, hm⟩ := Option.isSome_iff_exists.1 hown
  refine ⟨m, ?_⟩
  rw [ methodEntry?, startNode?, ← hid, node?_of_mem hnodup hn]
  exact hm

theorem Registered.lists (h : g.Registered targets) (hnodup : g.nodeIds.Nodup) {owner : NodeId}
    {kind : ParameterKind} {forReturn : Bool} (hk : kind = .receiver → forReturn = true)
    {ids : List NodeId} (hids : ids = (g.parametersOf owner kind forReturn).map Node.id) :
    ParameterRow.Lists ⟨g, owner, kind, forReturn⟩ ids := by
  constructor
  · rw [hids, List.length_map]
    rfl
  · intro i id
    rw [hids]
    exact h.getElem?_parametersOf hnodup hk

end FlowGraph

namespace Assembler

theorem Reachable.takesParameters_run {supply : Supply} {a : Assembler} (h : Reachable supply a)
    (hm : a.flow.TakesParameters) (ops : List (AssemblerOp NodeId)) :
    (AssemblerOp.run ops a).flow.TakesParameters := by
  induction ops generalizing a with
  | nil => exact hm
  | cons op rest ih =>
    obtain ⟨f, fresh, hgrows⟩ := h.ready.grows_apply op
    exact ih (h.step op) (hgrows.takesParameters hm)

theorem takesParameters_method (supply : Supply) (kind : DeclKind)
    (name signature qualifiedName returnType : String) :
    (method supply kind name signature qualifiedName returnType).flow.TakesParameters := by
  rw [FlowGraph.TakesParameters, method, nodes_openEntry]
  exact ⟨_, List.mem_cons_self, rfl, rfl⟩

/-- Whatever two graphs operations have made, the second that of a method, each call of the first
has a link to the second, and its edges join parameters of the same ordinal: actual-ins to
formal-ins, then formal-outs to actual-outs, then the one for the returned value to its like. -/
theorem parameters_pass_by_ordinal {supply : Supply} {a : Assembler} (h : Opened supply a)
    (ops : List (AssemblerOp NodeId)) (calleeSupply : Supply) (kind : DeclKind)
    (name signature qualifiedName returnType : String) (calleeOps : List (AssemblerOp NodeId)) :
    let caller := (AssemblerOp.run ops a).flow
    let callee := (AssemblerOp.run calleeOps
      (method calleeSupply kind name signature qualifiedName returnType)).flow
    ∀ s n c, caller.node? s = some n → n.call? = some c →
      let actual (kind : ParameterKind) (forReturn : Bool) : ParameterRow :=
        ⟨caller, s, kind, forReturn⟩
      let formal (kind : ParameterKind) (forReturn : Bool) : ParameterRow :=
        ⟨callee, callee.start, kind, forReturn⟩
      ∃ link ins outs returned, linkCall? caller s callee = some link ∧
        link.parameterEdges = ins ++ outs ++ returned ∧
        (actual .actualIn false).PassesTo (formal .formalIn false) ins ∧
        (formal .formalOut false).PassesTo (actual .actualOut false) outs ∧
        (formal .formalOut true).PassesTo (actual .actualOut true) returned ∧
        returned.length ≤ 1 ∧
        (link.arityMismatch = none ↔
          (actual .actualIn false).count = (formal .formalIn false).count) ∧
        -- an ordinal is that of one parameter at most, so that an edge has no choice of its ends
        (∀ forReturn, (actual .actualIn false).Numbered ∧ (formal .formalIn false).Numbered ∧
          (actual .actualOut forReturn).Numbered ∧ (formal .formalOut forReturn).Numbered) := by
  intro caller callee s n c hn hc actual formal
  have hreach := (Reachable.opened h).run ops
  have hcallerNodup : caller.nodeIds.Nodup := hreach.made.nodup_nodeIds
  have hcaller := (Reachable.opened h).registered_run h.registered ops
  have hopened : Opened calleeSupply (method calleeSupply kind name signature qualifiedName
    returnType) := .method ..
  have hcalleeReach := (Reachable.opened hopened).run calleeOps
  have hcalleeNodup : callee.nodeIds.Nodup := hcalleeReach.made.nodup_nodeIds
  have hcallee := (Reachable.opened hopened).registered_run hopened.registered calleeOps
  obtain ⟨m, hm⟩ := ((Reachable.opened hopened).takesParameters_run
    (takesParameters_method ..) calleeOps).methodEntry hcalleeNodup
  -- the two nodes list the rows
  have hactual : ∀ kind forReturn, kind ≠ .receiver →
      (actual kind forReturn).Lists (c.listed kind forReturn) := by
    intro kind forReturn hne
    have hk : kind = .receiver → forReturn = true := fun h => absurd h hne
    exact hcaller.lists hcallerNodup hk (hcaller.listed_call hn hc hk)
  have hformal : ∀ kind forReturn, kind ≠ .receiver →
      (formal kind forReturn).Lists (m.listed kind forReturn) := by
    intro kind forReturn hne
    have hk : kind = .receiver → forReturn = true := fun h => absurd h hne
    exact hcallee.lists hcalleeNodup hk (hcallee.listed_entry hm hk)
  have hlink : linkCall? caller s callee = some (CallLink.between caller s c callee m) := by
    rw [linkCall?_eq, hn, hm, Option.bind_some, hc, Option.bind_some, Option.map_some]
  refine ⟨_, _, _, _, hlink, rfl, ?_, ?_, ?_, ?_, ?_, ?_⟩
  · exact (hactual .actualIn false (by decide)).passesTo (hformal .formalIn false (by decide))
  · exact (hformal .formalOut false (by decide)).passesTo (hactual .actualOut false (by decide))
  · exact (hformal .formalOut true (by decide)).passesTo (hactual .actualOut true (by decide))
  · have hle := Option.length_toList_le (o := m.formalOutForReturn)
    rw [length_passEdges]
    omega
  · rw [← (hactual .actualIn false (by decide)).length,
      ← (hformal .formalIn false (by decide)).length]
    simp [CallLink.between, Call.listed, MethodEntry.listed]
  · intro forReturn
    exact ⟨(hactual .actualIn false (by decide)).numbered,
      (hformal .formalIn false (by decide)).numbered,
      (hactual .actualOut forReturn (by decide)).numbered,
      (hformal .formalOut forReturn (by decide)).numbered⟩

def actualOps : List (AssemblerOp NodeId) :=
  [.call .methodCall ⟨"g", "A.g", "int", "A", [], .empty⟩ {}, .receiver 5 "a" "A" {},
    .actualOutForReturn 5 "int" {}, .actualIn 5 "x" "int" {}, .actualOut 5 "x" "int" {},
    .actualIn 5 "y" "int" {}, .actualIn 5 "z" "int" {}]

def formalOps : List (AssemblerOp NodeId) :=
  [.formalOut "x" "int" {}, .formalIn "x" "int" {}, .formalOutForReturn "int" {},
    .formalOut "y" "int" {}, .formalIn "y" "int" {}]

theorem parameters_pass_by_ordinal_from_field :
    ∃ a, Opened ⟨⟨3⟩, 0, 0⟩ a ∧
      let caller := (AssemblerOp.run actualOps a).flow
      let callee := (AssemblerOp.run formalOps
        (method ⟨⟨20⟩, 0, 0⟩ .method "g" "g()" "A.g" "int")).flow
      (∃ n c, caller.node? 5 = some n ∧ n.call? = some c) ∧
      ∃ link, linkCall? caller 5 callee = some link ∧
        link.parameterEdges = [⟨8, 23, .parameter, none⟩, ⟨10, 26, .parameter, none⟩,
          ⟨22, 9, .parameter, none⟩, ⟨24, 7, .parameter, none⟩] ∧
        ParameterRow.PassesTo ⟨caller, 5, .actualIn, false⟩ ⟨callee, callee.start, .formalIn, false⟩
          [⟨8, 23, .parameter, none⟩, ⟨10, 26, .parameter, none⟩] ∧
        link.arityMismatch ≠ none := by
  obtain ⟨a, ha⟩ : ∃ a, a = Assembler.field ⟨⟨3⟩, 0, 0⟩ .field "x" "A.x" := ⟨_, rfl⟩
  have hopened : Opened ⟨⟨3⟩, 0, 0⟩ a := ha ▸ .field ..
  have hlinks := parameters_pass_by_ordinal hopened actualOps ⟨⟨20⟩, 0, 0⟩ .method "g" "g()" "A.g"
    "int" formalOps
  refine ⟨a, hopened, ?_⟩
  generalize hcaller : (AssemblerOp.run actualOps a).flow = caller at hlinks ⊢
  generalize hcallee : (AssemblerOp.run formalOps
    (method ⟨⟨20⟩, 0, 0⟩ .method "g" "g()" "A.g" "int")).flow = callee at hlinks ⊢
  have hcall : ((caller.node? 5).map fun n => n.call?.isSome) = some true := by
    rw [← hcaller, ha]; decide +kernel
  obtain ⟨n, hn, hcall⟩ := Option.map_eq_some_iff.1 hcall
  obtain ⟨c, hc⟩ := Option.isSome_iff_exists.1 hcall
  have hedges : (linkCall? caller 5 callee).map CallLink.parameterEdges =
      some [⟨8, 23, .parameter, none⟩, ⟨10, 26, .parameter, none⟩,
          ⟨22, 9, .parameter, none⟩, ⟨24, 7, .parameter, none⟩] := by
    rw [← hcaller, ← hcallee, ha]; decide +kernel
  have hins : (caller.parametersOf 5 .actualIn false).length = 3 := by
    rw [← hcaller, ha]; decide +kernel
  have hformals : (callee.parametersOf callee.start .formalIn false).length = 2 := by
    rw [← hcallee]; decide +kernel
  obtain ⟨link, ins, outs, returned, hlink, happend, hpass, -, -, -, harity, -⟩ := hlinks 5 n c hn hc
  rw [hlink] at hedges
  have hedges := Option.some.inj hedges
  have hlength : ins.length = 2 := by
    rw [hpass.length, ParameterRow.count, hins, ParameterRow.count, hformals]
    rfl
  refine ⟨⟨n, c, hn, hc⟩, link, hlink, hedges, ?_, ?_⟩
  · rw [happend, List.append_assoc] at hedges
    have htake := congrArg (List.take 2) hedges
    rw [List.take_left' hlength] at htake
    rw [htake] at hpass
    exact hpass
  · intro hnone
    have hcount := harity.1 hnone
    rw [ParameterRow.count, hins, ParameterRow.count, hformals] at hcount
    cases hcount

end Assembler

end ProgramFlow
