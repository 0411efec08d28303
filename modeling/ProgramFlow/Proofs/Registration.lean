import ProgramFlow.Proofs.AssemblerGrowth

/-! How an assembler registers parameters and exception targets: what a node lists are the
parameters it owns, in the order in which they were made, and their ordinals count from zero. That
is kept whenever the graph grows, and so by every run of operations. -/
namespace ProgramFlow

namespace FlowGraph

/-- What a node lists are the parameters it owns, and `targets` are what the start lists as
exception targets. -/
structure Registered (g : FlowGraph) (targets : List NodeId) : Prop where
  listed : ∀ n ∈ g.nodes, ∀ kind forReturn, (kind = .receiver → forReturn = true) →
    n.listed kind forReturn = (g.parametersOf n.id kind forReturn).map Node.id
  ordinals : ∀ owner kind forReturn, (kind = .receiver → forReturn = true) →
    (g.parametersOf owner kind forReturn).map Node.ordinal =
      List.range (g.parametersOf owner kind forReturn).length
  receiver : ∀ n ∈ g.nodes,
    n.receiver? = (g.parametersOf n.id .receiver false).getLast?.map Node.id
  owners : ∀ m ∈ g.nodes, ∀ p, m.parameter? = some p →
    ∃ n ∈ g.nodes, n.id = p.owner ∧ n.canOwn p.kind = true
  entries : ∀ n ∈ g.nodes, n.isEntry = true → n.id = g.start
  start : ∃ n ∈ g.nodes, n.id = g.start ∧ n.isEntry = true ∧
    n.qualifiedName? = some g.qualifiedName
  finish : ∃ n ∈ g.nodes, n.id = g.finish ∧ n.isExit = true ∧
    n.qualifiedName? = some g.qualifiedName
  exceptions : ∀ n ∈ g.nodes, n.id = g.start → n.exceptions = targets

namespace Grows

variable {g h : FlowGraph} {f : Node → Node} {fresh : Option Node} {targets : List NodeId}

theorem parametersOf (hg : g.Grows f fresh targets h) (owner : NodeId) (kind : ParameterKind)
    (forReturn : Bool) : h.parametersOf owner kind forReturn =
      (g.parametersOf owner kind forReturn).map f ++
        fresh.toList.filter (·.isParameterOf owner kind forReturn) := by
  rw [FlowGraph.parametersOf, hg.nodes, List.filter_append, List.filter_map]
  congr 3
  funext n
  exact hg.keeps.isParameterOf n owner kind forReturn

theorem map_id (hg : g.Grows f fresh targets h) (l : List Node) :
    (l.map f).map Node.id = l.map Node.id := by
  rw [List.map_map]
  exact List.map_congr_left fun n _ => hg.keeps.id n

theorem mem_nodes (hg : g.Grows f fresh targets h) {m : Node} :
    m ∈ h.nodes ↔ (∃ n ∈ g.nodes, f n = m) ∨ m ∈ fresh := by
  rw [hg.nodes, List.mem_append, List.mem_map, Option.mem_toList]
  exact Iff.rfl

theorem parametersOf_fresh (hg : g.Grows f fresh targets h) {ts : List NodeId}
    (hr : g.Registered ts) {m : Node} (hm : m ∈ fresh) (kind : ParameterKind) (forReturn : Bool) :
    h.parametersOf m.id kind forReturn = [] := by
  have hunowned : ∀ x ∈ h.nodes, ∀ p, x.parameter? = some p → p.owner ≠ m.id := by
    intro x hx p hp howner
    have howned : ∃ n ∈ g.nodes, n.id = p.owner := by
      rcases hg.mem_nodes.1 hx with ⟨y, hy, rfl⟩ | hx
      · rw [hg.keeps.parameter] at hp
        obtain ⟨n, hn, hid, -⟩ := hr.owners y hy p hp
        exact ⟨n, hn, hid⟩
      · obtain ⟨n, hn, hid, -⟩ := hg.owned x hx p hp
        exact ⟨n, hn, hid⟩
    obtain ⟨n, hn, hid⟩ := howned
    apply hg.new m hm
    rw [← howner, ← hid]
    exact List.mem_map_of_mem hn
  rw [FlowGraph.parametersOf, List.filter_eq_nil_iff]
  intro x hx hp
  obtain ⟨p, hp, howner, -⟩ := Node.isParameterOf_iff.1 hp
  exact hunowned x hx p hp howner

/-- The next ordinal is the number of parameters that are there. -/
theorem ordinals (hg : g.Grows f fresh targets h) {ts : List NodeId} (hr : g.Registered ts)
    (owner : NodeId) (kind : ParameterKind) (forReturn : Bool)
    (hk : kind = .receiver → forReturn = true) :
    (h.parametersOf owner kind forReturn).map Node.ordinal =
      List.range (h.parametersOf owner kind forReturn).length := by
  have hold : ((g.parametersOf owner kind forReturn).map f).map Node.ordinal =
      List.range (g.parametersOf owner kind forReturn).length := by
    rw [List.map_map, ← hr.ordinals owner kind forReturn hk]
    exact List.map_congr_left fun n _ => hg.keeps.ordinal n
  rw [hg.parametersOf, List.map_append, hold, List.length_append, List.length_map]
  cases fresh with
  | none => simp
  | some m =>
    cases hm : m.isParameterOf owner kind forReturn with
    | false => simp [hm]
    | true =>
      obtain ⟨p, hp, rfl, rfl, rfl⟩ := Node.isParameterOf_iff.1 hm
      obtain ⟨n, hn, hid, -, hordinal⟩ := hg.owned m rfl p hp
      have hlast : m.ordinal = (g.parametersOf p.owner p.kind p.forReturn).length := by
        rw [Node.ordinal, hp, Option.map_some, Option.getD_some, hordinal hk,
          hr.listed n hn _ _ hk, List.length_map, hid]
      simp [hm, hlast, List.range_succ]

theorem registered (hg : g.Grows f fresh targets h) {ts : List NodeId} (hr : g.Registered ts) :
    h.Registered (ts ++ targets) := by
  constructor
  · intro m hm kind forReturn hk
    rcases hg.mem_nodes.1 hm with ⟨n, hn, rfl⟩ | hm
    · rw [hg.listed n hn kind forReturn hk, hr.listed n hn kind forReturn hk, hg.keeps.id,
        hg.parametersOf, List.map_append, hg.map_id]
    · rw [hg.parametersOf_fresh hr hm, (hg.blank m hm).1]
      rfl
  · exact fun owner kind forReturn hk => hg.ordinals hr owner kind forReturn hk
  · intro m hm
    rcases hg.mem_nodes.1 hm with ⟨n, hn, rfl⟩ | hm
    · rw [hg.receiver n hn, hr.receiver n hn, hg.keeps.id, hg.parametersOf, List.getLast?_append,
        Option.map_or, List.getLast?_map, Option.map_map]
      congr 2
      funext x
      exact (hg.keeps.id x).symm
    · rw [hg.parametersOf_fresh hr hm, (hg.blank m hm).2.1]
      rfl
  · intro m hm p hp
    have howner : ∃ n ∈ g.nodes, n.id = p.owner ∧ n.canOwn p.kind = true := by
      rcases hg.mem_nodes.1 hm with ⟨x, hx, rfl⟩ | hm
      · rw [hg.keeps.parameter] at hp
        exact hr.owners x hx p hp
      · obtain ⟨n, hn, hid, hown, -⟩ := hg.owned m hm p hp
        exact ⟨n, hn, hid, hown⟩
    obtain ⟨n, hn, hid, hown⟩ := howner
    refine ⟨f n, hg.mem_nodes.2 (.inl ⟨n, hn, rfl⟩), ?_, ?_⟩
    · rw [hg.keeps.id, hid]
    · rw [hg.keeps.canOwn, hown]
  · intro m hm hentry
    rcases hg.mem_nodes.1 hm with ⟨n, hn, rfl⟩ | hm
    · rw [hg.keeps.isEntry] at hentry
      rw [hg.keeps.id, hg.start]
      exact hr.entries n hn hentry
    · rw [(hg.blank m hm).2.2] at hentry
      cases hentry
  · obtain ⟨n, hn, hid, hentry, hname⟩ := hr.start
    refine ⟨f n, hg.mem_nodes.2 (.inl ⟨n, hn, rfl⟩), ?_, ?_, ?_⟩
    · rw [hg.keeps.id, hg.start, hid]
    · rw [hg.keeps.isEntry, hentry]
    · rw [hg.keeps.name, hg.name, hname]
  · obtain ⟨n, hn, hid, hexit, hname⟩ := hr.finish
    refine ⟨f n, hg.mem_nodes.2 (.inl ⟨n, hn, rfl⟩), ?_, ?_, ?_⟩
    · rw [hg.keeps.id, hg.finish, hid]
    · rw [hg.keeps.isExit, hexit]
    · rw [hg.keeps.name, hg.name, hname]
  · intro m hm hstart
    rcases hg.mem_nodes.1 hm with ⟨n, hn, rfl⟩ | hm
    · rw [hg.keeps.id, hg.start] at hstart
      rw [hg.exceptions n hn hstart, hr.exceptions n hn hstart]
    · obtain ⟨n, hn, hid, -⟩ := hr.start
      refine absurd ?_ (hg.new m hm)
      rw [hstart, hg.start, ← hid]
      exact List.mem_map_of_mem hn

end Grows

end FlowGraph

namespace Assembler

variable {a : Assembler}

theorem nodes_openEntry (supply : Supply) (kind : DeclKind) (name signature qualifiedName : String)
    (detail : EntryDetail) :
    (openEntry supply kind name signature qualifiedName detail).flow.nodes =
      [{ id := ⟨supply.ids.next⟩
         data := .entry { kind, name, signature, qualifiedName, detail }
         link := ⟨supply.nextLink⟩ },
        { id := ⟨supply.ids.next + 1⟩
          data := .exit { kind, qualifiedName }
          link := ⟨supply.nextLink + 1⟩ }] := by
  simp [openEntry, FlowGraph.nodes, FlowGraph.addNode, Graph.addNode, Graph.hasNode, Supply.newId,
    Supply.newLink, IdAllocator.peek, IdAllocator.allocate, Vertex.id]

theorem registered_openEntry (supply : Supply) (kind : DeclKind)
    (name signature qualifiedName : String) {detail : EntryDetail}
    (hdetail : ∀ m, detail = .method m → ∃ returnType, m = { returnType }) :
    (openEntry supply kind name signature qualifiedName detail).flow.Registered [] := by
  generalize ha : openEntry supply kind name signature qualifiedName detail = a
  have hnodes := nodes_openEntry supply kind name signature qualifiedName detail
  have hstart : a.flow.start = ⟨supply.ids.next⟩ := by rw [← ha]; rfl
  have hfinish : a.flow.finish = ⟨supply.ids.next + 1⟩ := by rw [← ha]; rfl
  have hname : a.flow.qualifiedName = qualifiedName := by rw [← ha]; rfl
  rw [ha] at hnodes
  have hnone : ∀ owner kind' forReturn, a.flow.parametersOf owner kind' forReturn = [] := by
    intro owner kind' forReturn
    rw [FlowGraph.parametersOf, hnodes]
    rfl
  have hempty : ∀ n ∈ a.flow.nodes,
      (∀ kind' forReturn, n.listed kind' forReturn = []) ∧ n.exceptions = [] := by
    intro n hn
    rw [hnodes, List.mem_cons, List.mem_singleton] at hn
    rcases hn with rfl | rfl
    · cases detail with
      | method m =>
        obtain ⟨returnType, rfl⟩ := hdetail m rfl
        exact ⟨fun kind' forReturn => by cases kind' <;> cases forReturn <;> rfl, rfl⟩
      | field | classType => exact ⟨fun _ _ => rfl, rfl⟩
    · exact ⟨fun _ _ => rfl, rfl⟩
  constructor
  · intro n hn kind' forReturn _
    rw [hnone, (hempty n hn).1]
    rfl
  · simp [hnone]
  · simp [hnone, hnodes, Node.receiver?, Node.call?]
  · simp [hnodes, Node.parameter?]
  · simp [hnodes, hstart, Node.isEntry, Node.entry?]
  · simp [hnodes, hstart, hname, Node.isEntry, Node.entry?, Node.qualifiedName?]
  · simp [hnodes, hfinish, hname, Node.isExit, Node.qualifiedName?]
  · exact fun n hn _ => (hempty n hn).2

theorem Opened.registered {supply : Supply} (h : Opened supply a) : a.flow.Registered [] := by
  cases h with
  | method kind name signature qualifiedName returnType =>
    apply registered_openEntry
    rintro m ⟨⟩
    exact ⟨returnType, rfl⟩
  | field | classType =>
    apply registered_openEntry
    rintro m ⟨⟩

theorem Reachable.registered_run {supply : Supply} (h : Reachable supply a) {targets : List NodeId}
    (hr : a.flow.Registered targets) (ops : List (AssemblerOp NodeId)) :
    (AssemblerOp.run ops a).flow.Registered
      (targets ++ AssemblerOp.exceptionTargets ops a) := by
  induction ops generalizing a targets with
  | nil => simpa [AssemblerOp.run, AssemblerOp.exceptionTargets] using hr
  | cons op rest ih =>
    obtain ⟨f, fresh, hgrows⟩ := h.ready.grows_apply op
    have hrest := ih (h.step op) (hgrows.registered hr)
    rw [List.append_assoc] at hrest
    exact hrest

end Assembler

namespace FlowGraph

def HasParameter (g : FlowGraph) (owner : NodeId) (kind : ParameterKind) (forReturn : Bool)
    (ordinal : Nat) (id : NodeId) : Prop :=
  ∃ n p, g.node? id = some n ∧ n.parameter? = some p ∧ p.owner = owner ∧ p.kind = kind ∧
    p.forReturn = forReturn ∧ p.ordinal = ordinal

structure CallRegistered (g : FlowGraph) (owner : NodeId) (c : Call) : Prop where
  ins : ∀ i id, c.actualIns[i]? = some id ↔ g.HasParameter owner .actualIn false i id
  outs : ∀ i id, c.actualOuts[i]? = some id ↔ g.HasParameter owner .actualOut false i id
  forReturn : ∀ id, c.actualOutForReturn = some id ↔
    ∃ i, g.HasParameter owner .actualOut true i id
  receiver : c.receiver = (g.parametersOf owner .receiver false).getLast?.map Node.id

structure EntryRegistered (g : FlowGraph) (m : MethodEntry) : Prop where
  ins : ∀ i id, m.formalIns[i]? = some id ↔ g.HasParameter g.start .formalIn false i id
  outs : ∀ i id, m.formalOuts[i]? = some id ↔ g.HasParameter g.start .formalOut false i id
  forReturn : ∀ id, m.formalOutForReturn = some id ↔
    ∃ i, g.HasParameter g.start .formalOut true i id

/-- If the members of a list are numbered from zero, the numbers are their positions. -/
theorem getElem?_map_of_numbered {α β : Type} {l : List α} {number : α → Nat} {f : α → β}
    (h : l.map number = List.range l.length) {i : Nat} {b : β} :
    (l.map f)[i]? = some b ↔ ∃ x ∈ l, number x = i ∧ f x = b := by
  have hnumber : ∀ j x, l[j]? = some x → number x = j := by
    intro j x hx
    have hj : j < l.length := (List.getElem?_eq_some_iff.1 hx).1
    have hmap : (l.map number)[j]? = some (number x) := by rw [List.getElem?_map, hx]; rfl
    rw [h, List.getElem?_range hj] at hmap
    exact (Option.some.inj hmap).symm
  rw [List.getElem?_map, Option.map_eq_some_iff]
  constructor
  · rintro ⟨x, hx, hb⟩
    exact ⟨x, List.mem_of_getElem? hx, hnumber i x hx, hb⟩
  · rintro ⟨x, hx, hi, hb⟩
    obtain ⟨j, hj⟩ := List.mem_iff_getElem?.1 hx
    rw [hnumber j x hj] at hi
    exact ⟨x, hi ▸ hj, hb⟩

namespace Registered

variable {g : FlowGraph} {targets : List NodeId} {owner : NodeId} {kind : ParameterKind}
  {forReturn : Bool} {i : Nat} {id : NodeId}

theorem hasParameter_iff (hnodup : g.nodeIds.Nodup) :
    g.HasParameter owner kind forReturn i id ↔
      ∃ n ∈ g.parametersOf owner kind forReturn, n.ordinal = i ∧ n.id = id := by
  constructor
  · rintro ⟨n, p, hn, hp, howner, hkind, hreturn, hordinal⟩
    have hof : n.isParameterOf owner kind forReturn = true :=
      Node.isParameterOf_iff.2 ⟨p, hp, howner, hkind, hreturn⟩
    refine ⟨n, List.mem_filter.2 ⟨List.mem_of_find?_eq_some hn, hof⟩, ?_, id_of_node? hn⟩
    rw [Node.ordinal, hp]
    exact hordinal
  · rintro ⟨n, hn, hordinal, rfl⟩
    obtain ⟨hmem, hof⟩ := List.mem_filter.1 hn
    obtain ⟨p, hp, howner, hkind, hreturn⟩ := Node.isParameterOf_iff.1 hof
    refine ⟨n, p, node?_of_mem hnodup hmem, hp, howner, hkind, hreturn, ?_⟩
    rw [Node.ordinal, hp] at hordinal
    exact hordinal

theorem getElem?_parametersOf (h : g.Registered targets) (hnodup : g.nodeIds.Nodup)
    (hk : kind = .receiver → forReturn = true) :
    ((g.parametersOf owner kind forReturn).map Node.id)[i]? = some id ↔
      g.HasParameter owner kind forReturn i id := by
  rw [getElem?_map_of_numbered (h.ordinals owner kind forReturn hk), hasParameter_iff hnodup]

theorem listed_call (h : g.Registered targets) {n : Node} {c : Call} (hn : g.node? owner = some n)
    (hc : n.call? = some c) (hk : kind = .receiver → forReturn = true) :
    c.listed kind forReturn = (g.parametersOf owner kind forReturn).map Node.id := by
  rw [← id_of_node? hn, ← h.listed n (List.mem_of_find?_eq_some hn) kind forReturn hk, Node.listed,
    Node.data_of_call? hc]

theorem listed_entry (h : g.Registered targets) {m : MethodEntry} (hm : g.methodEntry? = some m)
    (hk : kind = .receiver → forReturn = true) :
    m.listed kind forReturn = (g.parametersOf g.start kind forReturn).map Node.id := by
  obtain ⟨n, hn, hm⟩ := Option.bind_eq_some_iff.1 hm
  obtain ⟨e, hdata, hdetail⟩ := Node.data_of_methodEntry? hm
  rw [← id_of_node? hn, ← h.listed n (List.mem_of_find?_eq_some hn) kind forReturn hk, Node.listed,
    hdata]
  simp [Entry.method?, hdetail]

theorem callRegistered (h : g.Registered targets) (hnodup : g.nodeIds.Nodup) {n : Node} {c : Call}
    (hn : g.node? owner = some n) (hc : n.call? = some c) : g.CallRegistered owner c := by
  have hlisted : ∀ kind forReturn, (kind = .receiver → forReturn = true) → ∀ i id,
      (c.listed kind forReturn)[i]? = some id ↔ g.HasParameter owner kind forReturn i id := by
    intro kind forReturn hk i id
    rw [h.listed_call hn hc hk, h.getElem?_parametersOf hnodup hk]
  refine ⟨hlisted .actualIn false (by decide), hlisted .actualOut false (by decide), fun id => ?_, ?_⟩
  · rw [← exists_congr fun i => hlisted .actualOut true (by decide) i id, ← List.mem_iff_getElem?]
    exact Option.mem_toList.symm
  · rw [← id_of_node? hn, ← h.receiver n (List.mem_of_find?_eq_some hn), Node.receiver?, hc]
    rfl

theorem entryRegistered (h : g.Registered targets) (hnodup : g.nodeIds.Nodup) {m : MethodEntry}
    (hm : g.methodEntry? = some m) : g.EntryRegistered m := by
  have hlisted : ∀ kind forReturn, (kind = .receiver → forReturn = true) → ∀ i id,
      (m.listed kind forReturn)[i]? = some id ↔ g.HasParameter g.start kind forReturn i id := by
    intro kind forReturn hk i id
    rw [h.listed_entry hm hk, h.getElem?_parametersOf hnodup hk]
  refine ⟨hlisted .formalIn false (by decide), hlisted .formalOut false (by decide), fun id => ?_⟩
  rw [← exists_congr fun i => hlisted .formalOut true (by decide) i id, ← List.mem_iff_getElem?]
  exact Option.mem_toList.symm

theorem startNode?_eq_some (h : g.Registered targets) (hnodup : g.nodeIds.Nodup) :
    ∃ n e, g.startNode? = some n ∧ n.data = .entry e ∧ e.qualifiedName = g.qualifiedName ∧
      n.exceptions = targets := by
  obtain ⟨n, hn, hid, hentry, hname⟩ := h.start
  have hnode : g.startNode? = some n := by
    rw [startNode?, ← hid]
    exact node?_of_mem hnodup hn
  obtain ⟨e, he⟩ : ∃ e, n.data = .entry e := by
    cases hdata : n.data <;> simp_all [Node.isEntry, Node.entry?]
  rw [Node.qualifiedName?, he] at hname
  exact ⟨n, e, hnode, he, Option.some.inj hname, h.exceptions n hn hid⟩

theorem finishNode?_eq_some (h : g.Registered targets) (hnodup : g.nodeIds.Nodup) :
    ∃ n e, g.finishNode? = some n ∧ n.data = .exit e ∧ e.qualifiedName = g.qualifiedName := by
  obtain ⟨n, hn, hid, hexit, hname⟩ := h.finish
  have hnode : g.finishNode? = some n := by
    rw [finishNode?, ← hid]
    exact node?_of_mem hnodup hn
  obtain ⟨e, he⟩ : ∃ e, n.data = .exit e := by
    cases hdata : n.data <;> simp_all [Node.isExit]
  rw [Node.qualifiedName?, he] at hname
  exact ⟨n, e, hnode, he, Option.some.inj hname⟩

theorem exists_owner (h : g.Registered targets) (hnodup : g.nodeIds.Nodup)
    (hp : g.HasParameter owner kind forReturn i id) :
    ∃ n, g.node? owner = some n ∧ n.canOwn kind = true := by
  obtain ⟨m, p, hm, hp, rfl, rfl, -, -⟩ := hp
  obtain ⟨n, hn, hid, hown⟩ := h.owners m (List.mem_of_find?_eq_some hm) p hp
  exact ⟨n, hid ▸ node?_of_mem hnodup hn, hown⟩

theorem owner_of_formal (h : g.Registered targets) (hnodup : g.nodeIds.Nodup)
    (hp : g.HasParameter owner kind forReturn i id) (hk : kind.isFormal = true) :
    owner = g.start ∧ g.methodEntry?.isSome = true := by
  obtain ⟨n, hn, hown⟩ := h.exists_owner hnodup hp
  rw [Node.canOwn, if_pos hk] at hown
  have hentry : n.isEntry = true := by
    obtain ⟨m, hm⟩ := Option.isSome_iff_exists.1 hown
    obtain ⟨e, he, -⟩ := Option.bind_eq_some_iff.1 hm
    rw [Node.isEntry, he]
    rfl
  have hstart := h.entries n (List.mem_of_find?_eq_some hn) hentry
  rw [id_of_node? hn] at hstart
  refine ⟨hstart, ?_⟩
  rw [ methodEntry?, startNode?, ← hstart, hn]
  exact hown

theorem owner_of_actual (h : g.Registered targets) (hnodup : g.nodeIds.Nodup)
    (hp : g.HasParameter owner kind forReturn i id) (hk : kind.isFormal = false) :
    ∃ n c, g.node? owner = some n ∧ n.call? = some c := by
  obtain ⟨n, hn, hown⟩ := h.exists_owner hnodup hp
  rw [Node.canOwn, hk] at hown
  obtain ⟨c, hc⟩ := Option.isSome_iff_exists.1 hown
  exact ⟨n, c, hn, hc⟩

/-- What carries a returned value is what its owner keeps for that. -/
theorem forReturn_listed (h : g.Registered targets) (hnodup : g.nodeIds.Nodup)
    (hp : g.HasParameter owner kind true i id) :
    ∃ n, g.node? owner = some n ∧ n.listed kind true = [id] := by
  obtain ⟨n, hn, -⟩ := h.exists_owner hnodup hp
  rw [← h.getElem?_parametersOf hnodup fun _ => rfl, ← id_of_node? hn,
    ← h.listed n (List.mem_of_find?_eq_some hn) kind true fun _ => rfl] at hp
  have hmem := List.mem_of_getElem? hp
  have hlength := n.length_listed_forReturn kind
  refine ⟨n, hn, ?_⟩
  match hl : n.listed kind true with
  | [] => rw [hl] at hmem; cases hmem
  | [x] => rw [hl, List.mem_singleton] at hmem; rw [hmem]
  | _ :: _ :: _ => rw [hl] at hlength; simp at hlength

theorem kind_of_forReturn (h : g.Registered targets) (hnodup : g.nodeIds.Nodup)
    (hp : g.HasParameter owner kind true i id) : kind = .actualOut ∨ kind = .formalOut := by
  obtain ⟨n, -, hlisted⟩ := h.forReturn_listed hnodup hp
  have hkind := n.kind_of_listed_forReturn (hlisted ▸ List.cons_ne_nil id [])
  split at hkind
  · exact .inl hkind
  · exact .inr hkind

theorem forReturn_unique (h : g.Registered targets) (hnodup : g.nodeIds.Nodup)
    {kind' : ParameterKind} {i' : Nat} {id' : NodeId} (hp : g.HasParameter owner kind true i id)
    (hp' : g.HasParameter owner kind' true i' id') : id = id' := by
  obtain ⟨n, hn, hlisted⟩ := h.forReturn_listed hnodup hp
  obtain ⟨n', hn', hlisted'⟩ := h.forReturn_listed hnodup hp'
  obtain rfl : n = n' := Option.some.inj (hn.symm.trans hn')
  have hkind := n.kind_of_listed_forReturn (hlisted ▸ List.cons_ne_nil id [])
  have hkind' := n.kind_of_listed_forReturn (hlisted' ▸ List.cons_ne_nil id' [])
  rw [hkind, ← hkind', hlisted'] at hlisted
  exact (List.cons.inj hlisted).1.symm

end Registered

end FlowGraph

namespace Assembler

theorem Numbered.nodeIds {supply : Supply} {a : Assembler} (h : Numbered supply a) :
    a.flow.nodeIds = (List.range a.flow.nodeCount).map fun i => ⟨supply.ids.next + i⟩ := by
  have hcount : a.flow.identities.length = a.flow.nodeCount := List.length_map _
  rw [FlowGraph.nodeIds_eq_identities, h.identities, Supply.numbers, List.map_map, hcount]
  rfl

/-- Whatever operations are applied to an assembler that has been opened, failed ones included:
nodes are numbered in the order in which they are made, the two ends carry the name of the graph,
and calls and the entry of a method list exactly the parameters that they own. -/
theorem parameters_are_registered {supply : Supply} {a : Assembler} (h : Opened supply a)
    (ops : List (AssemblerOp NodeId)) :
    let g := (AssemblerOp.run ops a).flow
    g.nodeIds = (List.range g.nodeCount).map (fun i => ⟨supply.ids.next + i⟩) ∧
    (∃ n e, g.startNode? = some n ∧ n.data = .entry e ∧ e.qualifiedName = g.qualifiedName) ∧
    (∃ n e, g.finishNode? = some n ∧ n.data = .exit e ∧ e.qualifiedName = g.qualifiedName) ∧
    -- the lists of calls and of the entry against the parameters
    (∀ id n c, g.node? id = some n → n.call? = some c → g.CallRegistered id c) ∧
    (∀ m, g.methodEntry? = some m → g.EntryRegistered m) ∧
    -- every parameter has an owner of the right form
    (∀ owner kind forReturn i id, g.HasParameter owner kind forReturn i id →
      if kind.isFormal then owner = g.start ∧ g.methodEntry?.isSome = true
      else ∃ n c, g.node? owner = some n ∧ n.call? = some c) ∧
    -- returned values
    (∀ owner kind i id, g.HasParameter owner kind true i id →
      (kind = .actualOut ∨ kind = .formalOut) ∧
        ∀ kind' i' id', g.HasParameter owner kind' true i' id' → id = id') ∧
    g.startNode?.map Node.exceptions = some (AssemblerOp.exceptionTargets ops a) := by
  intro g
  have hreach : Reachable supply (AssemblerOp.run ops a) := (Reachable.opened h).run ops
  have hnodup : g.nodeIds.Nodup := hreach.made.nodup_nodeIds
  have hr : g.Registered (AssemblerOp.exceptionTargets ops a) :=
    (Reachable.opened h).registered_run h.registered ops
  obtain ⟨start, entry, hstart, hentry, hname, hexceptions⟩ := hr.startNode?_eq_some hnodup
  refine ⟨hreach.numbered.nodeIds, ⟨start, entry, hstart, hentry, hname⟩,
    hr.finishNode?_eq_some hnodup, ?_, ?_, ?_, ?_, ?_⟩
  · exact fun id n c hn hc => hr.callRegistered hnodup hn hc
  · exact fun m hm => hr.entryRegistered hnodup hm
  · intro owner kind forReturn i id hp
    split
    · next hk => exact hr.owner_of_formal hnodup hp hk
    · next hk => exact hr.owner_of_actual hnodup hp (Bool.eq_false_iff.2 hk)
  · intro owner kind i id hp
    exact ⟨hr.kind_of_forReturn hnodup hp, fun kind' i' id' hp' => hr.forReturn_unique hnodup hp hp'⟩
  · rw [hstart, Option.map_some, hexceptions]

def mixedOps : List (AssemblerOp NodeId) :=
  let callee : MethodRef := ⟨"g", "A.g", "int", "A", [], .empty⟩
  [.formalIn "x" "int" {}, .call .methodCall callee {}, .call .methodCall callee {},
    .actualIn 10 "x" "int" {}, .actualIn 11 "x" "int" {}, .receiver 10 "a" "A" {},
    .actualIn 10 "y" "int" {}, .exceptionTarget {}, .actualOutForReturn 10 "int" {},
    .actualOutForReturn 10 "int" {}, .receiver 10 "b" "A" {}, .actualIn 9 "z" "int" {},
    .formalIn "y" "int" {}, .exceptionTarget {}]

/-- The second actual-in of the first call is where the call lists it, although a parameter of the
other call and a receiver were made in between. -/
theorem parameters_are_registered_in_turns :
    ∃ a, Opened ⟨⟨7⟩, 0, 0⟩ a ∧
      let g := (AssemblerOp.run mixedOps a).flow
      g.nodeIds = (List.range 14).map (fun i => ⟨7 + i⟩) ∧
      ∃ n c, g.node? 10 = some n ∧ n.call? = some c ∧ c.actualIns = [12, 15] ∧
        g.HasParameter 10 .actualIn false 1 15 ∧ c.actualOutForReturn = some 17 ∧
        (∃ i, g.HasParameter 10 .actualOut true i 17) ∧ c.receiver = some 18 ∧
        (g.parametersOf 10 .receiver false).getLast?.map Node.id = some 18 ∧
        g.startNode?.map Node.exceptions = some [16, 20] := by
  obtain ⟨a, ha⟩ : ∃ a, a = Assembler.method ⟨⟨7⟩, 0, 0⟩ .method "f" "f()" "A.f" "int" := ⟨_, rfl⟩
  have hopened : Opened ⟨⟨7⟩, 0, 0⟩ a := ha ▸ .method ..
  have hcount : (AssemblerOp.run mixedOps a).flow.nodeCount = 14 := by rw [ha]; decide +kernel
  have htargets : AssemblerOp.exceptionTargets mixedOps a = [16, 20] := by rw [ha]; decide +kernel
  have hcall : ((AssemblerOp.run mixedOps a).flow.node? 10).map (fun n => n.call?.map fun c =>
      (c.actualIns, c.actualOutForReturn, c.receiver)) =
        some (some ([12, 15], some 17, some 18)) := by rw [ha]; decide +kernel
  obtain ⟨n, hn, hcall⟩ := Option.map_eq_some_iff.1 hcall
  obtain ⟨c, hc, hlists⟩ := Option.map_eq_some_iff.1 hcall
  simp only [Prod.mk.injEq] at hlists
  obtain ⟨hins, hreturn, hreceiver⟩ := hlists
  obtain ⟨hids, -, -, hcalls, -, -, -, hexceptions⟩ := parameters_are_registered hopened mixedOps
  have hregistered := hcalls 10 n c hn hc
  rw [hcount] at hids
  refine ⟨a, hopened, hids, n, c, hn, hc, hins, ?_, hreturn, ?_, hreceiver, ?_, ?_⟩
  · exact (hregistered.ins 1 15).1 (by rw [hins]; rfl)
  · exact (hregistered.forReturn 17).1 hreturn
  · rw [← hregistered.receiver, hreceiver]
  · rw [hexceptions, htargets]

end Assembler

end ProgramFlow
