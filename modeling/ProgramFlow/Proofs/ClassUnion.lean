import Mathlib.Data.List.Basic
import Mathlib.Data.List.Induction
import ProgramFlow.Proofs.ClassRevision
import ProgramFlow.Proofs.Numbering

/-! The graph of a class is maintained in two ways, by linking a member when it is registered and
by a rebuild when members have been replaced. `Coherent` says that the two agree: a rebuild would
give the graph that is there. Every operation on a class keeps it, so it holds of what any sequence
of operations leads to and of every class nested in it. -/
namespace ProgramFlow

namespace ClassCfg

theorem addName_id (name : String) (n : Node) : (addName name n).id = n.id := by
  unfold addName
  split
  · split <;> rfl
  · rfl

theorem addName_link (name : String) (n : Node) : (addName name n).link = n.link := by
  unfold addName
  split
  · split <;> rfl
  · rfl

theorem classEntry?_addName (name : String) (n : Node) :
    Node.classEntry? (addName name n) =
      n.classEntry?.map fun entry => ⟨entry.members ++ [name]⟩ := by
  unfold addName
  split
  · next e he =>
    split
    · next hd => simp [Node.classEntry?, Node.entry?, Entry.classType?, he, hd]
    · simp [Node.classEntry?, Node.entry?, Entry.classType?, he]
  · simp [Node.classEntry?, Node.entry?]

section Link

variable (flow member : FlowGraph)

theorem link_eq :
    link flow member = { flow with
      graph := ((((flow.graph.append member.graph).2.addEdge
        ⟨flow.start, member.start, .fallThrough, none⟩).2).addEdge
          ⟨member.finish, flow.finish, .fallThrough, none⟩).2 } := rfl

@[simp] theorem start_link : (link flow member).start = flow.start := rfl

@[simp] theorem finish_link : (link flow member).finish = flow.finish := rfl

theorem node?_link (id : NodeId) :
    (link flow member).node? id = (flow.node? id).or (member.node? id) := by
  have hnodes : (link flow member).graph.nodes = (flow.graph.append member.graph).2.nodes := by
    rw [link_eq, Graph.nodes_addEdge, Graph.nodes_addEdge]
  rw [FlowGraph.node?, Graph.node?, hnodes]
  exact Graph.node?_append flow.graph member.graph id

variable {flow}

theorem link_modifyNode {id : NodeId} {f : Node → Node} (hf : ∀ n, (f n).id = n.id)
    (hid : id ∈ flow.nodeIds) :
    link (flow.modifyNode id f) member = (link flow member).modifyNode id f := by
  rw [link_eq, link_eq]
  simp only [FlowGraph.modifyNode]
  rw [Graph.append_modifyNode hf hid, Graph.addEdge_modifyNode hf, Graph.addEdge_modifyNode hf]

end Link

def linked (names : List String) (graphs : List FlowGraph) : List FlowGraph :=
  names.filterMap fun name => graphs.find? fun g => g.qualifiedName == name

theorem linked_append (names names' : List String) (graphs : List FlowGraph) :
    linked (names ++ names') graphs = linked names graphs ++ linked names' graphs :=
  List.filterMap_append

theorem mem_linked {names : List String} {graphs : List FlowGraph} {g : FlowGraph}
    (h : g ∈ linked names graphs) : g ∈ graphs := by
  obtain ⟨name, -, hg⟩ := List.mem_filterMap.1 h
  exact List.mem_of_find?_eq_some hg

theorem union_eq_foldl (own : FlowGraph) (names : List String) (members : List SharedCfg) :
    union own names members = (linked names (members.map SharedCfg.flow)).foldl link own := by
  have hfind : ∀ name, (members.map SharedCfg.flow).find? (fun g => g.qualifiedName == name) =
      (members.find? fun m => m.qualifiedName == name).map SharedCfg.flow := by
    intro name
    rw [List.find?_map]
    rfl
  induction names generalizing own with
  | nil => rfl
  | cons name rest ih =>
    rw [union, List.foldl_cons, ← union, ih]
    simp only [linked, List.filterMap_cons, hfind]
    cases members.find? fun m => m.qualifiedName == name <;> rfl

theorem start_foldl_link (graphs : List FlowGraph) (own : FlowGraph) :
    (graphs.foldl link own).start = own.start := by
  induction graphs generalizing own with
  | nil => rfl
  | cons g rest ih => rw [List.foldl_cons, ih, start_link]

theorem finish_foldl_link (graphs : List FlowGraph) (own : FlowGraph) :
    (graphs.foldl link own).finish = own.finish := by
  induction graphs generalizing own with
  | nil => rfl
  | cons g rest ih => rw [List.foldl_cons, ih, finish_link]

/-- A node of a union is one of `own`, or else it is that of the first graph that has it. -/
theorem node?_foldl_link (graphs : List FlowGraph) (own : FlowGraph) (id : NodeId) :
    (graphs.foldl link own).node? id =
      (own.node? id).or (graphs.findSome? fun g => g.node? id) := by
  induction graphs generalizing own with
  | nil => simp
  | cons g rest ih =>
    rw [List.foldl_cons, ih, node?_link, Option.or_assoc, List.findSome?_cons]
    cases g.node? id <;> rfl

theorem mem_nodeIds_foldl_link {graphs : List FlowGraph} {own : FlowGraph} {id : NodeId} :
    id ∈ (graphs.foldl link own).nodeIds ↔
      id ∈ own.nodeIds ∨ ∃ g ∈ graphs, id ∈ g.nodeIds := by
  rw [← FlowGraph.isSome_node?, node?_foldl_link, Option.isSome_or, Bool.or_eq_true,
    List.findSome?_isSome_iff]
  simp only [FlowGraph.isSome_node?]

theorem foldl_link_modifyNode (graphs : List FlowGraph) {own : FlowGraph} {id : NodeId}
    {f : Node → Node} (hf : ∀ n, (f n).id = n.id) (hid : id ∈ own.nodeIds) :
    graphs.foldl link (own.modifyNode id f) = (graphs.foldl link own).modifyNode id f := by
  induction graphs generalizing own with
  | nil => rfl
  | cons g rest ih =>
    rw [List.foldl_cons, link_modifyNode g hf hid, List.foldl_cons]
    have hlinked : id ∈ ([g].foldl link own).nodeIds := mem_nodeIds_foldl_link.2 (.inl hid)
    exact ih hlinked

theorem find?_flow {m : SharedCfg} {before after : List SharedCfg}
    (h : ∀ x ∈ before, x.qualifiedName ≠ m.qualifiedName) :
    ((before ++ m :: after).map SharedCfg.flow).find?
      (fun g => g.qualifiedName == m.qualifiedName) = some m.flow := by
  have hbefore : (before.map SharedCfg.flow).find?
      (fun g => g.qualifiedName == m.qualifiedName) = none := by
    rw [List.find?_eq_none]
    intro g hg hname
    obtain ⟨x, hx, rfl⟩ := List.mem_map.1 hg
    exact h x hx (eq_of_beq hname)
  rw [List.map_append, List.find?_append, hbefore, Option.none_or, List.map_cons]
  exact List.find?_cons_of_pos (beq_self_eq_true m.qualifiedName)

section Place

variable (m : SharedCfg) (members : List SharedCfg)

theorem place_eq_append : ∃ before after, members = before ++ after ∧
    place m members = before ++ m :: after := by
  induction members with
  | nil => exact ⟨[], [], rfl, rfl⟩
  | cons other rest ih =>
    unfold place
    split
    · exact ⟨[], other :: rest, rfl, rfl⟩
    · obtain ⟨before, after, hrest, hplace⟩ := ih
      exact ⟨other :: before, after, by rw [hrest]; rfl, by rw [hplace]; rfl⟩

theorem place_perm : (place m members).Perm (m :: members) := by
  obtain ⟨before, after, hmembers, hplace⟩ := place_eq_append m members
  rw [hplace, hmembers]
  exact List.perm_middle

variable {m members}

theorem linked_place {names : List String} (h : m.qualifiedName ∉ names) :
    linked names ((place m members).map SharedCfg.flow) =
      linked names (members.map SharedCfg.flow) := by
  obtain ⟨before, after, hmembers, hplace⟩ := place_eq_append m members
  rw [hplace, hmembers]
  refine List.filterMap_congr fun name hname => ?_
  have hne : (m.flow.qualifiedName == name) = false := by
    refine beq_false_of_ne ?_
    rintro rfl
    exact h hname
  simp [List.find?_append, hne]

theorem linked_place_self (h : m.qualifiedName ∉ members.map SharedCfg.qualifiedName) :
    linked [m.qualifiedName] ((place m members).map SharedCfg.flow) = [m.flow] := by
  obtain ⟨before, after, hmembers, hplace⟩ := place_eq_append m members
  have hbefore : ∀ x ∈ before, x.qualifiedName ≠ m.qualifiedName := fun x hx hname =>
    h (hmembers ▸ List.mem_map.2 ⟨x, List.mem_append_left after hx, hname⟩)
  simp only [linked, List.filterMap_cons, hplace, find?_flow hbefore, List.filterMap_nil]

end Place

/-- A rebuild would give the graph that is there, and the entry lists the members. -/
structure Coherent (c : ClassCfg) : Prop where
  rebuilt : c.flow = union c.own c.memberNames c.members
  entry : c.own.classEntry?.isSome = true
  nodup : c.memberNames.Nodup
  keys : c.memberNames.Perm (c.members.map SharedCfg.qualifiedName)

theorem find?_eq_none_iff {c : ClassCfg} {name : String} :
    c.find? name = none ↔ name ∉ c.members.map SharedCfg.qualifiedName := by
  simp [find?]

theorem mem_descendants_of_find? {c : ClassCfg} {name : String} {m : SharedCfg}
    (h : c.find? name = some m) : m ∈ c.descendants := by
  rw [descendants_eq, SharedCfg.mem_descendantsOf]
  exact ⟨m, List.mem_of_find?_eq_some h, by simp⟩

theorem classEntry?_register (c : ClassCfg) (m : SharedCfg) :
    (c.register m).own.classEntry? =
      c.own.classEntry?.map fun entry => ⟨entry.members ++ [m.qualifiedName]⟩ := by
  have hstart : (c.register m).own.startNode? =
      c.own.startNode?.map fun n =>
        if c.own.start = c.own.start then addName m.qualifiedName n else n :=
    c.own.node?_modifyNode c.own.start (addName_id m.qualifiedName) _
  rw [FlowGraph.classEntry?, hstart, FlowGraph.classEntry?, Option.bind_map, Option.map_bind]
  refine congrArg (Option.bind _) (funext fun n => ?_)
  simp only [Function.comp_apply, if_true]
  exact classEntry?_addName ..

theorem memberNames_register {c : ClassCfg} (h : c.own.classEntry?.isSome = true)
    (m : SharedCfg) : (c.register m).memberNames = c.memberNames ++ [m.qualifiedName] := by
  obtain ⟨entry, he⟩ := Option.isSome_iff_exists.1 h
  simp [memberNames, classEntry?_register, he]

/-- If a graph is a union of others, it is one with a member more after registration. -/
theorem flow_register {c : ClassCfg} {graphs : List FlowGraph}
    (hstart : c.own.start ∈ c.own.nodeIds) (h : c.flow = graphs.foldl link c.own)
    (m : SharedCfg) :
    (c.register m).flow = (graphs ++ [m.flow]).foldl link (c.register m).own := by
  change link (c.flow.modifyNode c.flow.start (addName m.qualifiedName)) m.flow =
    (graphs ++ [m.flow]).foldl link (c.own.modifyNode c.own.start (addName m.qualifiedName))
  rw [List.foldl_append, foldl_link_modifyNode _ (addName_id _) hstart, h, start_foldl_link]
  rfl

theorem memberNames_toClass {a : Assembler} (h : a.Entered (some ⟨[]⟩)) :
    a.toClass.memberNames = [] := by
  have hentry : a.toClass.own.classEntry? = some ⟨[]⟩ := h.entry
  rw [memberNames, hentry]

theorem Revised.memberNames_eq {c c' : ClassCfg} (h : c.Revised c') :
    c'.memberNames = c.memberNames := by
  unfold memberNames
  rw [h.own]

namespace Coherent

variable {c c' : ClassCfg}

theorem flow_eq (h : c.Coherent) :
    c.flow = (linked c.memberNames (c.members.map SharedCfg.flow)).foldl link c.own :=
  h.rebuilt.trans (union_eq_foldl ..)

theorem mem_linked (h : c.Coherent) {m : SharedCfg} (hm : m ∈ c.members) :
    m.flow ∈ linked c.memberNames (c.members.map SharedCfg.flow) := by
  have hd : (c.members.map SharedCfg.qualifiedName).Nodup := h.keys.nodup_iff.1 h.nodup
  have hname : m.qualifiedName ∈ c.memberNames := h.keys.mem_iff.2 (List.mem_map_of_mem hm)
  refine List.mem_filterMap.2 ⟨m.qualifiedName, hname, ?_⟩
  obtain ⟨before, after, hsplit⟩ := List.append_of_mem hm
  rw [hsplit] at hd ⊢
  refine find?_flow fun x hx heq => ?_
  rw [List.map_append, List.nodup_append] at hd
  exact hd.2.2 _ (List.mem_map_of_mem hx) _ List.mem_cons_self heq

theorem start_mem (h : c.Coherent) : c.own.start ∈ c.own.nodeIds := by
  obtain ⟨entry, he⟩ := Option.isSome_iff_exists.1 h.entry
  obtain ⟨n, hn, -⟩ := Option.bind_eq_some_iff.1 he
  exact FlowGraph.isSome_node?.1 (Option.isSome_of_mem hn)

theorem toClass {a : Assembler} (h : a.Entered (some ⟨[]⟩)) : a.toClass.Coherent := by
  have hnames := memberNames_toClass h
  refine ⟨?_, ?_, ?_, ?_⟩
  · change a.flow = union a.flow a.toClass.memberNames []
    rw [hnames]
    rfl
  · change a.flow.classEntry?.isSome = true
    rw [h.entry]
    rfl
  · rw [hnames]
    exact List.nodup_nil
  · rw [hnames]
    exact List.Perm.refl _

/-- Registration does to the graph what a rebuild does with one more name at the end. -/
theorem register (h : c.Coherent) {m : SharedCfg} (hm : c.find? m.qualifiedName = none) :
    (c.register m).Coherent := by
  have hnames := memberNames_register h.entry m
  have hkey : m.qualifiedName ∉ c.members.map SharedCfg.qualifiedName := find?_eq_none_iff.1 hm
  have hnew : m.qualifiedName ∉ c.memberNames := fun hin => hkey (h.keys.mem_iff.1 hin)
  have hmembers : (c.register m).members = place m c.members := rfl
  refine ⟨?_, ?_, ?_, ?_⟩
  · rw [union_eq_foldl, hnames, hmembers, linked_append, linked_place hnew, linked_place_self hkey]
    exact flow_register h.start_mem h.flow_eq m
  · rw [classEntry?_register, Option.isSome_map]
    exact h.entry
  · rw [hnames, List.nodup_append]
    refine ⟨h.nodup, List.pairwise_singleton .., ?_⟩
    rintro name hname _ hlast rfl
    rw [List.mem_singleton] at hlast
    exact hnew (hlast ▸ hname)
  · rw [hnames, hmembers]
    have hperm := (place_perm m c.members).map SharedCfg.qualifiedName
    exact (List.perm_append_singleton ..).trans ((h.keys.cons _).trans hperm.symm)

theorem add (h : c.Coherent) (m : SharedCfg) : (c.add m).2.Coherent := by
  unfold ClassCfg.add
  split
  · split <;> exact h
  · next hm => exact h.register hm

theorem memberNames_add (h : c.Coherent) (m : SharedCfg) :
    (c.add m).2.memberNames =
      if m.qualifiedName ∈ c.memberNames then c.memberNames
      else c.memberNames ++ [m.qualifiedName] := by
  have hkey : m.qualifiedName ∈ c.memberNames ↔ c.find? m.qualifiedName ≠ none := by
    rw [ne_eq, find?_eq_none_iff, not_not, h.keys.mem_iff]
  unfold ClassCfg.add
  split
  · next hm =>
    rw [if_pos (hkey.2 (by simp [hm]))]
    split <;> rfl
  · next hm =>
    rw [if_neg (fun hin => hkey.1 hin hm)]
    exact memberNames_register h.entry m

/-- A class is made again, or else none of its members has another graph than before. -/
theorem revised (h : c.Coherent) (hr : c.Revised c') : c'.Coherent := by
  have hnames := hr.memberNames_eq
  refine ⟨?_, hr.own ▸ h.entry, hnames ▸ h.nodup, ?_⟩
  · rw [hnames, hr.own]
    rcases hr.flow with ⟨hflow, hflows⟩ | hflow
    · rw [hflow, h.flow_eq, union_eq_foldl, hflows]
    · exact hflow
  · rw [hnames, hr.names]
    exact h.keys

end Coherent

theorem mem_members_add {c : ClassCfg} {m x : SharedCfg} (h : x ∈ (c.add m).2.members) :
    x = m ∨ x ∈ c.members := by
  unfold ClassCfg.add at h
  split at h
  · split at h <;> exact .inr h
  · exact List.mem_cons.1 ((place_perm m c.members).mem_iff.1 h)

theorem mem_descendants_add {c : ClassCfg} {m x : SharedCfg}
    (h : x ∈ (c.add m).2.descendants) :
    x ∈ SharedCfg.descendantsOf [m] ∨ x ∈ c.descendants := by
  rw [descendants_eq, SharedCfg.mem_descendantsOf] at h
  obtain ⟨y, hy, hx⟩ := h
  rcases mem_members_add hy with rfl | hy
  · exact .inl hx
  · right
    rw [descendants_eq, SharedCfg.mem_descendantsOf]
    exact ⟨y, hy, hx⟩

end ClassCfg

inductive ClassOp where
  | add (m : SharedCfg)
  | adopt (known : Lookup) (supply : Supply)
  | computeBlocks (supply : Supply)

namespace ClassOp

def apply : ClassOp → ClassCfg → ClassCfg
  | .add m, c => (c.add m).2
  | .adopt known supply, c => (c.adopt known supply).2.1
  | .computeBlocks supply, c => (c.computeMemberBlocks supply).2.1

def run (ops : List ClassOp) (c : ClassCfg) : ClassCfg := ops.foldl (fun c op => op.apply c) c

theorem run_concat (ops : List ClassOp) (op : ClassOp) (c : ClassCfg) :
    run (ops ++ [op]) c = op.apply (run ops c) := by
  simp [run]

/-- If it looks something up, it is given graphs of the names it asks for. -/
def Keyed : ClassOp → Prop
  | .adopt known _ => known.Keyed
  | .add _ | .computeBlocks _ => True

def Brings : ClassOp → SharedCfg → Prop
  | .add m, x => x = m
  | .adopt known _, x => ∃ name, known name = some x
  | .computeBlocks _, _ => False

def offered? : ClassOp → Option String
  | .add m => some m.qualifiedName
  | .adopt _ _ | .computeBlocks _ => none

theorem apply_coherent {op : ClassOp} (hk : op.Keyed) {c : ClassCfg} (h : c.Coherent) :
    (op.apply c).Coherent := by
  cases op with
  | add m => exact h.add m
  | adopt known supply => exact h.revised (c.adopt_revised hk supply)
  | computeBlocks supply => exact h.revised (c.computeMemberBlocks_revised supply)

theorem run_coherent {ops : List ClassOp} (hk : ∀ op ∈ ops, op.Keyed) {c : ClassCfg}
    (h : c.Coherent) : (run ops c).Coherent := by
  induction ops using List.reverseRecOn with
  | nil => exact h
  | append_singleton ops op ih =>
    rw [run_concat]
    simp only [List.mem_append, List.mem_singleton] at hk
    exact apply_coherent (hk op (.inr rfl)) (ih fun op h => hk op (.inl h))

theorem eraseDups_concat (names : List String) (name : String) :
    (names ++ [name]).eraseDups =
      if name ∈ names then names.eraseDups else names.eraseDups ++ [name] := by
  rw [List.eraseDups_append]
  by_cases h : name ∈ names
  · simp [List.removeAll, h]
  · simp [List.removeAll, h, List.eraseDups_cons]

/-- The first offer of a name registers it, and the later ones change nothing. -/
theorem memberNames_run {supply : Supply} {a : Assembler}
    (ha : Assembler.ClassReachable supply a) {ops : List ClassOp} (hk : ∀ op ∈ ops, op.Keyed) :
    (run ops a.toClass).memberNames = (ops.filterMap offered?).eraseDups := by
  induction ops using List.reverseRecOn with
  | nil => exact ClassCfg.memberNames_toClass ha.entered
  | append_singleton ops op ih =>
    simp only [List.mem_append, List.mem_singleton] at hk
    have hops : ∀ op ∈ ops, op.Keyed := fun op h => hk op (.inl h)
    have hc : (run ops a.toClass).Coherent := run_coherent hops (.toClass ha.entered)
    rw [run_concat, List.filterMap_append]
    -- what replaces members leaves the entry alone
    have hkept : ∀ {c'}, (run ops a.toClass).Revised c' →
        c'.memberNames = (ops.filterMap offered? ++ []).eraseDups := by
      intro c' hr
      rw [List.append_nil, ← ih hops]
      exact hr.memberNames_eq
    cases op with
    | add m =>
      have hin : m.qualifiedName ∈ (run ops a.toClass).memberNames ↔
          m.qualifiedName ∈ ops.filterMap offered? := by
        rw [ih hops, List.mem_eraseDups]
      change ((run ops a.toClass).add m).2.memberNames =
        (ops.filterMap offered? ++ [m.qualifiedName]).eraseDups
      rw [hc.memberNames_add, eraseDups_concat, ← ih hops]
      simp only [hin]
    | adopt known supply => exact hkept ((run ops a.toClass).adopt_revised (hk _ (.inr rfl)) supply)
    | computeBlocks supply => exact hkept ((run ops a.toClass).computeMemberBlocks_revised supply)

end ClassOp

def SharedCfg.Holds (P : ClassCfg → Prop) (m : SharedCfg) : Prop :=
  ∀ ref cfg, m = .classType ref cfg → P cfg

theorem SharedCfg.lasting_holds {P : ClassCfg → Prop}
    (hP : ∀ {c c' : ClassCfg}, c.Revised c' → P c → P c') : Lasting fun _ m => m.Holds P := by
  refine ⟨fun _ h => h, ?_, ?_⟩
  · intro n ref cfg _ ref' cfg' heq
    cases heq
  · intro n ref cfg cfg' hr h ref' cfg'' heq
    cases heq
    exact hP hr (h ref cfg rfl)

section Nested

variable {P : ClassCfg → Prop} (hP : ∀ {c c' : ClassCfg}, c.Revised c' → P c → P c')

include hP

theorem ClassOp.apply_nested {op : ClassOp} (hk : op.Keyed)
    (hb : ∀ x, op.Brings x → ∀ m ∈ SharedCfg.descendantsOf [x], m.Holds P) {c : ClassCfg}
    (hc : ∀ m ∈ c.descendants, m.Holds P) : ∀ m ∈ (op.apply c).descendants, m.Holds P := by
  cases op with
  | add x =>
    intro m hm
    rcases ClassCfg.mem_descendants_add hm with hm | hm
    · exact hb x rfl m hm
    · exact hc m hm
  | adopt known supply =>
    exact (SharedCfg.lasting_holds hP).adopt hk (fun name held h => hb held ⟨name, h⟩) hc
  | computeBlocks supply => exact (SharedCfg.lasting_holds hP).computeMemberBlocks hc

theorem ClassOp.run_nested {ops : List ClassOp} (hk : ∀ op ∈ ops, op.Keyed)
    (hb : ∀ op ∈ ops, ∀ x, op.Brings x → ∀ m ∈ SharedCfg.descendantsOf [x], m.Holds P)
    {c : ClassCfg} (hc : ∀ m ∈ c.descendants, m.Holds P) :
    ∀ m ∈ (run ops c).descendants, m.Holds P := by
  induction ops using List.reverseRecOn with
  | nil => exact hc
  | append_singleton ops op ih =>
    simp only [List.mem_append, List.mem_singleton] at hk hb
    rw [run_concat]
    have hops := ih (fun op h => hk op (.inl h)) fun op h => hb op (.inl h)
    exact apply_nested hP (hk op (.inr rfl)) (hb op (.inr rfl)) hops

end Nested

namespace ClassCfg

/-- A class of an assembler with any sequence of operations done to it, in which every class that
is brought in has been made in this way too. -/
inductive Composed : ClassCfg → Prop where
  | run {supply a ops} (ha : Assembler.ClassReachable supply a) (hk : ∀ op ∈ ops, op.Keyed)
      (hn : ∀ op ∈ ops, ∀ ref cfg, op.Brings (.classType ref cfg) → Composed cfg) :
      Composed (ClassOp.run ops a.toClass)

/-- The entry came from an assembler and lists the names offered since, each where it was offered
first. -/
def ListsOffers (c : ClassCfg) : Prop :=
  ∃ supply a ops, Assembler.ClassReachable supply a ∧
    c.own = (ClassOp.run ops a.toClass).own ∧
    c.memberNames = (ops.filterMap ClassOp.offered?).eraseDups

theorem Revised.listsOffers {c c' : ClassCfg} (hr : c.Revised c') (h : c.ListsOffers) :
    c'.ListsOffers := by
  obtain ⟨supply, a, ops, ha, hown, hnames⟩ := h
  exact ⟨supply, a, ops, ha, hr.own.trans hown, hr.memberNames_eq.trans hnames⟩

theorem Composed.coherent {c : ClassCfg} (h : c.Composed) :
    (c.Coherent ∧ c.ListsOffers) ∧
      ∀ m ∈ c.descendants, m.Holds fun nested => nested.Coherent ∧ nested.ListsOffers := by
  have hP : ∀ {c c' : ClassCfg}, c.Revised c' → c.Coherent ∧ c.ListsOffers →
      c'.Coherent ∧ c'.ListsOffers :=
    fun hr h => ⟨h.1.revised hr, hr.listsOffers h.2⟩
  induction h with
  | @run supply a ops ha hk hn ih =>
    refine ⟨⟨ClassOp.run_coherent hk (.toClass ha.entered), ?_⟩, ?_⟩
    · exact ⟨supply, a, ops, ha, rfl, ClassOp.memberNames_run ha hk⟩
    · refine ClassOp.run_nested hP hk (fun op hop x hx m hm => ?_) ?_
      · cases x with
        | method ref cfg =>
          obtain rfl := SharedCfg.mem_descendantsOf_method.1 hm
          intro ref cfg heq
          cases heq
        | classType ref cfg =>
          obtain ⟨hcfg, hnested⟩ := ih op hop ref cfg hx
          rcases SharedCfg.mem_descendantsOf_classType.1 hm with rfl | hm
          · intro ref' cfg' heq
            cases heq
            exact hcfg
          · exact hnested m hm
      · intro m hm
        rw [descendants_eq] at hm
        simp [Assembler.toClass, ofFlow] at hm

/-- Whatever has been done to a class, a rebuild would give the graph it has, at every depth, and
its entry lists each member once, in the order of registration. -/
theorem union_is_what_a_rebuild_gives {supply : Supply} {a : Assembler} {ops : List ClassOp}
    (ha : Assembler.ClassReachable supply a) (hk : ∀ op ∈ ops, op.Keyed)
    (hn : ∀ op ∈ ops, ∀ ref cfg, op.Brings (.classType ref cfg) → cfg.Composed) :
    let c := ClassOp.run ops a.toClass
    c.flow = union c.own c.memberNames c.members ∧
      c.memberNames = (ops.filterMap ClassOp.offered?).eraseDups ∧
      c.memberNames.Nodup ∧ c.memberNames.Perm (c.members.map SharedCfg.qualifiedName) ∧
      ∀ ref nested, .classType ref nested ∈ c.descendants →
        nested.flow = union nested.own nested.memberNames nested.members ∧
          nested.ListsOffers ∧ nested.memberNames.Nodup ∧
          nested.memberNames.Perm (nested.members.map SharedCfg.qualifiedName) := by
  intro c
  obtain ⟨⟨hc, -⟩, hnested⟩ := (Composed.run ha hk hn).coherent
  refine ⟨hc.rebuilt, ClassOp.memberNames_run ha hk, hc.nodup, hc.keys, ?_⟩
  intro ref nested hin
  obtain ⟨hm, hoffers⟩ := hnested _ hin ref nested rfl
  exact ⟨hm.rebuilt, hoffers, hm.nodup, hm.keys⟩

/-- A class with a method and a nested class is offered the method a second time. Then the method
of the nested class is replaced by one that is known, and both methods get their blocks. -/
theorem union_is_what_a_rebuild_gives_nested :
    ∃ (c : ClassCfg) (ref : Ref) (nested : ClassCfg), c.memberNames = ["A.f", "A.B"] ∧
      .classType ref nested ∈ c.descendants ∧
      nested.memberNames = ["A.B.g"] ∧ c.flow.nodeIds = [1, 2, 3, 4, 5, 6, 9, 10] ∧
      c.flow = union c.own c.memberNames c.members ∧
      nested.flow = union nested.own nested.memberNames nested.members := by
  let a := Assembler.classType {} .classType "A" "A"
  let f := Assembler.method a.supply .method "f" "f()" "A.f" "void"
  let b := Assembler.classType f.supply .classType "B" "A.B"
  let g := Assembler.method b.supply .method "g" "g()" "A.B.g" "void"
  let g' := Assembler.method g.supply .method "g" "g()" "A.B.g" "void"
  let known : Lookup := fun name =>
    if name = "A.B.g" then some (.method ⟨3⟩ g'.toCfg) else none
  let inner := ClassOp.run [.add (.method ⟨0⟩ g.toCfg)] b.toClass
  let ops : List ClassOp := [.add (.method ⟨1⟩ f.toCfg), .add (.classType ⟨2⟩ inner),
    .add (.method ⟨1⟩ f.toCfg), .adopt known { nextRef := 4 }, .computeBlocks { nextRef := 5 }]
  have hinner : inner.Composed := by
    refine .run (.opened ..) ?_ ?_
    · simp [ClassOp.Keyed]
    · simp [ClassOp.Brings]
  have hknown : known.Keyed := by
    intro name held h
    simp only [known] at h
    split at h
    · next hname =>
      cases h
      exact hname.symm
    · cases h
  have hkeyed : ∀ op ∈ ops, op.Keyed := by simp [ops, ClassOp.Keyed, hknown]
  have hbrought : ∀ op ∈ ops, ∀ ref cfg, op.Brings (.classType ref cfg) → cfg.Composed := by
    intro op hop ref cfg hb
    simp only [ops, List.mem_cons, List.not_mem_nil, or_false] at hop
    rcases hop with rfl | rfl | rfl | rfl | rfl
    · cases hb
    · cases hb
      exact hinner
    · cases hb
    · obtain ⟨name, hname⟩ := hb
      simp only [known] at hname
      split at hname <;> cases hname
    · cases hb
  have ha : Assembler.ClassReachable {} a := .opened ..
  obtain ⟨hrebuilt, hnames, -, -, hnested⟩ := union_is_what_a_rebuild_gives ha hkeyed hbrought
  have hoffers : (ops.filterMap ClassOp.offered?).eraseDups = ["A.f", "A.B"] := by decide +kernel
  have hids : (ClassOp.run ops a.toClass).flow.nodeIds = [1, 2, 3, 4, 5, 6, 9, 10] := by
    decide +kernel
  have hfind : ((ClassOp.run ops a.toClass).find? "A.B").map
      (fun m => m.classType?.map memberNames) = some (some ["A.B.g"]) := by
    decide +kernel
  obtain ⟨m, hm, hc⟩ := Option.map_eq_some_iff.1 hfind
  obtain ⟨nested, hclass, hinside⟩ := Option.map_eq_some_iff.1 hc
  cases m with
  | method => cases hclass
  | classType ref cfg =>
    cases hclass
    have hin := mem_descendants_of_find? hm
    exact ⟨_, ref, nested, hnames.trans hoffers, hin, hinside, hids, hrebuilt,
      (hnested ref nested hin).1⟩

end ClassCfg

end ProgramFlow
