import Mathlib.Data.List.Nodup
import ProgramFlow.Proofs.ClassUnion
import ProgramFlow.Proofs.PostDominance

/-! Questions about a node have the same answers in the graph of a class as in that of the member
the node is in, but for the way out. A walk that starts in a member can leave it in one place, at
its goal, and comes to the goal of the class, from where it cannot go on. -/
namespace ProgramFlow

namespace FlowGraph

variable {g : FlowGraph} {direction : Direction} {loopbackOk : Bool} {u v : NodeId}

def goal (g : FlowGraph) : Direction → NodeId
  | .forward => g.finish
  | .backward => g.start

theorem mem_of_leads (h : g.graph.WellFormed) {e : Flow} (he : e ∈ g.edges)
    (hl : e.Leads direction u v) : u ∈ g.nodeIds ∧ v ∈ g.nodeIds := by
  obtain ⟨hs, ht⟩ := h.ends e he
  cases direction with
  | forward => exact ⟨hl.1 ▸ hs, hl.2 ▸ ht⟩
  | backward => exact ⟨hl.1 ▸ ht, hl.2 ▸ hs⟩

/-- The nodes of `g` are not in `h`, and walks do not leave `h` at one of them. -/
structure Apart (g h : FlowGraph) : Prop where
  nodes : ∀ id ∈ g.nodeIds, id ∉ h.nodeIds
  start : h.start ∉ g.nodeIds
  finish : h.finish ∉ g.nodeIds

instance (g h : FlowGraph) : Decidable (g.Apart h) :=
  decidable_of_iff
    ((∀ id ∈ g.nodeIds, id ∉ h.nodeIds) ∧ h.start ∉ g.nodeIds ∧ h.finish ∉ g.nodeIds)
    ⟨fun ⟨hn, hs, hf⟩ => ⟨hn, hs, hf⟩, fun ⟨hn, hs, hf⟩ => ⟨hn, hs, hf⟩⟩

theorem Apart.goal {h : FlowGraph} (hgh : g.Apart h) (direction : Direction) :
    h.goal direction ∉ g.nodeIds := by
  cases direction with
  | forward => exact hgh.finish
  | backward => exact hgh.start

structure Bare (g : FlowGraph) : Prop where
  made : g.graph.Made
  edges : g.edges = []
  goal : ∀ direction, g.goal direction ∈ g.nodeIds
  ends : g.start ≠ g.finish

theorem Bare.goal_inj (h : g.Bare) {d d' : Direction} (heq : g.goal d = g.goal d') : d = d' := by
  cases d <;> cases d'
  · rfl
  · exact absurd heq.symm h.ends
  · exact absurd heq h.ends
  · rfl

theorem Bare.modifyNode (h : g.Bare) (id : NodeId) {f : Node → Node}
    (hf : ∀ n, (f n).id = n.id) : (g.modifyNode id f).Bare := by
  refine ⟨h.made.modifyNode hf id, h.edges, fun direction => ?_, h.ends⟩
  have hids : (g.modifyNode id f).nodeIds = g.nodeIds := Graph.nodeIds_modifyNode hf
  rw [hids]
  cases direction with
  | forward => exact h.goal .forward
  | backward => exact h.goal .backward

end FlowGraph

namespace ClassCfg

def bridge (own g : FlowGraph) : Direction → Flow
  | .forward => ⟨g.finish, own.finish, .fallThrough, none⟩
  | .backward => ⟨own.start, g.start, .fallThrough, none⟩

section Bridge

variable {own g : FlowGraph} {d d' : Direction} {u v : NodeId}

theorem bridge_leads (own g : FlowGraph) (d : Direction) :
    (bridge own g d).Leads d (g.goal d) (own.goal d) := by
  cases d <;> exact ⟨rfl, rfl⟩

theorem isLoopback_bridge (own g : FlowGraph) (d : Direction) :
    (bridge own g d).isLoopback = false := by
  cases d <;> rfl

/-- In its own direction a bridge leads out of the member, in the other one into it. -/
theorem eq_of_bridge_leads (h : (bridge own g d').Leads d u v) :
    (u = g.goal d ∧ v = own.goal d) ∨ (d' ≠ d ∧ u = own.goal d') := by
  cases d <;> cases d' <;> obtain ⟨hu, hv⟩ := h
  · exact .inl ⟨hu.symm, hv.symm⟩
  · exact .inr ⟨by simp, hu.symm⟩
  · exact .inr ⟨by simp, hu.symm⟩
  · exact .inl ⟨hu.symm, hv.symm⟩

theorem goal_foldl_link (graphs : List FlowGraph) (own : FlowGraph) (d : Direction) :
    (graphs.foldl link own).goal d = own.goal d := by
  cases d with
  | forward => exact finish_foldl_link graphs own
  | backward => exact start_foldl_link graphs own

theorem bridge_foldl_link (graphs : List FlowGraph) (own g : FlowGraph) (d : Direction) :
    bridge (graphs.foldl link own) g d = bridge own g d := by
  cases d with
  | forward => rw [bridge, finish_foldl_link, bridge]
  | backward => rw [bridge, start_foldl_link, bridge]

end Bridge

section Edges

variable {own g : FlowGraph} {graphs : List FlowGraph} {e : Flow}

theorem edges_link (own g : FlowGraph) :
    (link own g).edges =
      ((((own.graph.append g.graph).2.addEdge (bridge own g .backward)).2).addEdge
        (bridge own g .forward)).2.edges := rfl

theorem mem_edges_link (h : e ∈ (link own g).edges) :
    e ∈ own.edges ∨ e ∈ g.edges ∨ ∃ d, e = bridge own g d := by
  rw [edges_link] at h
  rcases Graph.mem_edges_addEdge h with h | h
  · rcases Graph.mem_edges_addEdge h with h | h
    · rcases Graph.mem_edges_addEdges h with h | h
      · rw [Graph.edges_addNodes] at h
        exact .inl h
      · exact .inr (.inl h)
    · exact .inr (.inr ⟨.backward, h⟩)
  · exact .inr (.inr ⟨.forward, h⟩)

theorem mem_edges_link_of_mem (h : e ∈ (own.graph.append g.graph).2.edges) :
    e ∈ (link own g).edges := by
  rw [edges_link]
  exact Graph.mem_edges_addEdge_of_mem (Graph.mem_edges_addEdge_of_mem h _) _

theorem mem_edges_foldl_link (h : e ∈ (graphs.foldl link own).edges) :
    e ∈ own.edges ∨ ∃ g ∈ graphs, e ∈ g.edges ∨ ∃ d, e = bridge own g d := by
  induction graphs using List.reverseRecOn with
  | nil => exact .inl h
  | append_singleton graphs g ih =>
    rw [List.foldl_append] at h
    rcases mem_edges_link h with h | h
    · rcases ih h with h | ⟨g', hg', h⟩
      · exact .inl h
      · exact .inr ⟨g', List.mem_append_left _ hg', h⟩
    · simp only [bridge_foldl_link] at h
      exact .inr ⟨g, by simp, h⟩

theorem mem_edges_foldl_link_of_mem (h : e ∈ own.edges) (graphs : List FlowGraph) :
    e ∈ (graphs.foldl link own).edges := by
  induction graphs generalizing own with
  | nil => exact h
  | cons g rest ih =>
    refine ih (mem_edges_link_of_mem (Graph.mem_edges_addEdges_of_mem ?_ _))
    rw [Graph.edges_addNodes]
    exact h

theorem exists_bridge (d : Direction) (hown : own.goal d ∈ own.nodeIds)
    (hg : g.goal d ∈ g.nodeIds) :
    ∃ x ∈ (link own g).edges, Arc.key x = Arc.key (bridge own g d) := by
  have hnodes : ∀ id, id ∈ (own.graph.append g.graph).2.nodeIds ↔
      id ∈ own.nodeIds ∨ id ∈ g.nodeIds := by
    intro id
    rw [← Graph.isSome_node?, Graph.node?_append, Option.isSome_or, Bool.or_eq_true,
      Graph.isSome_node?, Graph.isSome_node?]
    rfl
  rw [edges_link]
  cases d with
  | forward =>
    refine Graph.exists_edge_addEdge ?_ ?_
    · rw [Graph.nodeIds_addEdge]
      exact (hnodes _).2 (.inr hg)
    · rw [Graph.nodeIds_addEdge]
      exact (hnodes _).2 (.inl hown)
  | backward =>
    obtain ⟨x, hx, hkey⟩ := Graph.exists_edge_addEdge (e := bridge own g .backward)
      ((hnodes _).2 (.inl hown)) ((hnodes _).2 (.inr hg))
    exact ⟨x, Graph.mem_edges_addEdge_of_mem hx _, hkey⟩

end Edges

/-- A graph among those that are linked to `own`: none of them has an end of `own`, and the others
are apart from it. -/
structure Joined (own : FlowGraph) (graphs : List FlowGraph) (g : FlowGraph) : Prop where
  bare : own.Bare
  wellFormed : ∀ h ∈ graphs, h.graph.WellFormed
  outside : ∀ h ∈ graphs, ∀ d, own.goal d ∉ h.nodeIds
  mem : g ∈ graphs
  apart : ∀ h ∈ graphs, h = g ∨ g.Apart h

namespace Joined

variable {own g : FlowGraph} {graphs : List FlowGraph} {d : Direction} {e : Flow} {u v : NodeId}

/-- What an edge of the union can do: it is inside one of the graphs, it is a way out of one, or it
comes from the goal of the other direction. -/
theorem leads_cases (h : Joined own graphs g) (he : e ∈ (graphs.foldl link own).edges)
    (hl : e.Leads d u v) :
    (∃ h ∈ graphs, e ∈ h.edges ∧ u ∈ h.nodeIds ∧ v ∈ h.nodeIds) ∨
    (∃ h ∈ graphs, u = h.goal d ∧ v = own.goal d ∧ e.isLoopback = false) ∨
    ∃ d' ≠ d, u = own.goal d' := by
  rcases mem_edges_foldl_link he with he | ⟨x, hx, he | ⟨d', rfl⟩⟩
  · rw [h.bare.edges] at he
    cases he
  · exact .inl ⟨x, hx, he, FlowGraph.mem_of_leads (h.wellFormed x hx) he hl⟩
  · rcases eq_of_bridge_leads hl with ⟨hu, hv⟩ | ⟨hd, hu⟩
    · exact .inr (.inl ⟨x, hx, hu, hv, isLoopback_bridge own x d'⟩)
    · exact .inr (.inr ⟨d', hd, hu⟩)

theorem leads_from (h : Joined own graphs g) (he : e ∈ (graphs.foldl link own).edges)
    (hl : e.Leads d u v) (hu : u ∈ g.nodeIds) :
    e ∈ g.edges ∨ (u = g.goal d ∧ v = own.goal d) := by
  rcases h.leads_cases he hl with ⟨x, hx, he, hux, -⟩ | ⟨x, hx, rfl, hv, -⟩ | ⟨d', -, rfl⟩
  · rcases h.apart x hx with rfl | hapart
    · exact .inl he
    · exact absurd hux (hapart.nodes u hu)
  · rcases h.apart x hx with rfl | hapart
    · exact .inr ⟨rfl, hv⟩
    · exact absurd hu (hapart.goal d)
  · exact absurd hu (h.outside g h.mem d')

theorem mem_edges (h : Joined own graphs g) (he : e ∈ g.edges) :
    e ∈ (graphs.foldl link own).edges := by
  -- when the graph is linked for the first time, no edge leaves one of its nodes yet, so none of
  -- its own edges is refused for its key
  obtain ⟨before, after, rfl, hbefore⟩ := List.eq_append_cons_of_mem h.mem
  rw [List.foldl_append, List.foldl_cons]
  refine mem_edges_foldl_link_of_mem (mem_edges_link_of_mem ?_) after
  rw [Graph.edges_append (h.wellFormed g h.mem)]
  · exact List.mem_append_right _ he
  · intro x hx hsource
    rcases mem_edges_foldl_link hx with hx | ⟨y, hy, hx⟩
    · rw [h.bare.edges] at hx
      cases hx
    · have hin : y ∈ before ++ g :: after := List.mem_append_left _ hy
      have hapart : g.Apart y := (h.apart y hin).resolve_left fun heq => hbefore (heq ▸ hy)
      rcases hx with hx | ⟨d, rfl⟩
      · exact hapart.nodes _ hsource ((h.wellFormed y hin).ends x hx).1
      · cases d with
        | forward => exact hapart.finish hsource
        | backward => exact h.outside g h.mem .backward hsource

theorem exists_way_out (h : Joined own graphs g) (hg : g.goal d ∈ g.nodeIds) :
    ∃ e ∈ (graphs.foldl link own).edges, e.Leads d (g.goal d) (own.goal d) ∧
      e.isLoopback = false := by
  obtain ⟨before, after, hsplit⟩ := List.append_of_mem h.mem
  have hown : (before.foldl link own).goal d ∈ (before.foldl link own).nodeIds := by
    rw [goal_foldl_link, mem_nodeIds_foldl_link]
    exact .inl (h.bare.goal d)
  obtain ⟨x, hx, hkey⟩ := exists_bridge d hown hg
  have hx : x ∈ (graphs.foldl link own).edges := by
    rw [hsplit, List.foldl_append]
    exact mem_edges_foldl_link_of_mem hx after
  rw [bridge_foldl_link] at hkey
  have hl : x.Leads d (g.goal d) (own.goal d) := (bridge_leads own g d).of_key hkey
  refine ⟨x, hx, hl, ?_⟩
  -- only a bridge comes to the goal, and a bridge is no back edge
  rcases h.leads_cases hx hl with ⟨y, hy, -, -, hv⟩ | ⟨y, hy, -, -, hloop⟩ | ⟨d', -, hu⟩
  · exact absurd hv (h.outside y hy d)
  · exact hloop
  · exact absurd (hu ▸ hg) (h.outside g h.mem d')

variable {loopbackOk : Bool}

theorem step_iff (h : Joined own graphs g) (hu : u ∈ g.nodeIds) :
    (graphs.foldl link own).Step d loopbackOk u v ↔
      g.Step d loopbackOk u v ∨ (u = g.goal d ∧ v = own.goal d) := by
  rw [FlowGraph.step_iff, FlowGraph.step_iff]
  constructor
  · rintro ⟨⟨e, he, hl, hloop⟩, -⟩
    rcases h.leads_from he hl hu with he | hout
    · have hv := (FlowGraph.mem_of_leads (h.wellFormed g h.mem) he hl).2
      exact .inl ⟨⟨e, he, hl, hloop⟩, hv⟩
    · exact .inr hout
  · rintro (⟨⟨e, he, hl, hloop⟩, hv⟩ | ⟨rfl, rfl⟩)
    · exact ⟨⟨e, h.mem_edges he, hl, hloop⟩, mem_nodeIds_foldl_link.2 (.inr ⟨g, h.mem, hv⟩)⟩
    · obtain ⟨e, he, hl, hloop⟩ := h.exists_way_out hu
      exact ⟨⟨e, he, hl, by simp [hloop]⟩, mem_nodeIds_foldl_link.2 (.inl (h.bare.goal d))⟩

theorem step_goal (h : Joined own graphs g)
    (hs : (graphs.foldl link own).Step d loopbackOk (own.goal d) v) : v = own.goal d := by
  obtain ⟨⟨e, he, hl, -⟩, -⟩ := FlowGraph.step_iff.1 hs
  rcases h.leads_cases he hl with ⟨x, hx, -, hu, -⟩ | ⟨x, hx, -, hv, -⟩ | ⟨d', hd, hu⟩
  · exact absurd hu (h.outside x hx d)
  · exact hv
  · exact absurd (h.bare.goal_inj hu).symm hd

/-- A route from a node of the graph stays in it, or it ends at the goal of the union and has come
there through that of the graph. -/
theorem route_iff (h : Joined own graphs g) {avoid : Set NodeId} {n x : NodeId}
    (hn : n ∈ g.nodeIds) :
    (graphs.foldl link own).Route d loopbackOk avoid n x ↔
      g.Route d loopbackOk avoid n x ∨
        (x = own.goal d ∧ own.goal d ∉ avoid ∧ g.Route d loopbackOk avoid n (g.goal d)) := by
  have hinside : ∀ {x}, g.Route d loopbackOk avoid n x →
      (graphs.foldl link own).Route d loopbackOk avoid n x := by
    intro x hx
    induction hx with
    | refl => exact .refl
    | tail hr hstep ih =>
      have hb := FlowGraph.Route.mem_nodeIds hr hn
      exact ih.tail ⟨(h.step_iff hb).2 (.inl hstep.1), hstep.2⟩
  constructor
  · intro hx
    induction hx with
    | refl => exact .inl .refl
    | tail _ hstep ih =>
      rcases ih with hr | ⟨rfl, havoid, hr⟩
      · rcases (h.step_iff (hr.mem_nodeIds hn)).1 hstep.1 with hs | ⟨rfl, rfl⟩
        · exact .inl (hr.tail ⟨hs, hstep.2⟩)
        · exact .inr ⟨rfl, hstep.2, hr⟩
      · exact .inr ⟨h.step_goal hstep.1, havoid, hr⟩
  · rintro (hr | ⟨rfl, havoid, hr⟩)
    · exact hinside hr
    · have hstep : (graphs.foldl link own).Step d loopbackOk (g.goal d) (own.goal d) :=
        (h.step_iff (hr.mem_nodeIds hn)).2 (.inr ⟨rfl, rfl⟩)
      exact (hinside hr).tail ⟨hstep, havoid⟩

theorem mem_nodeIds (h : Joined own graphs g) {n : NodeId} (hn : n ∈ g.nodeIds) :
    n ∈ (graphs.foldl link own).nodeIds :=
  mem_nodeIds_foldl_link.2 (.inr ⟨g, h.mem, hn⟩)

/-- A free walk reaches what it reaches in the graph, and the goal of the union if it reaches that
of the graph. -/
theorem reached_eq (h : Joined own graphs g) {n : NodeId} (hn : n ∈ g.nodeIds) :
    (graphs.foldl link own).reached n d loopbackOk (fun _ => false) =
      if g.goal d ∈ g.reached n d loopbackOk (fun _ => false) then
        (g.reached n d loopbackOk fun _ => false).insert (own.goal d)
      else g.reached n d loopbackOk fun _ => false := by
  refine NodeSet.ext fun x => ?_
  rw [FlowGraph.mem_reached_free, h.route_iff hn]
  split
  · next hgoal =>
    rw [FlowGraph.mem_reached_free] at hgoal
    rw [NodeSet.mem_insert, FlowGraph.mem_reached_free]
    simp [hn, hgoal.2, h.mem_nodeIds hn, or_comm]
  · next hgoal =>
    rw [FlowGraph.mem_reached_free] at hgoal
    rw [FlowGraph.mem_reached_free]
    have hroute : ¬ g.Route d loopbackOk ∅ n (g.goal d) := fun hr => hgoal ⟨hn, hr⟩
    simp [hn, hroute, h.mem_nodeIds hn]

theorem postDominates_eq (h : Joined own graphs g) {n p : NodeId} (hn : n ∈ g.nodeIds)
    (hp : p ∈ g.nodeIds) (hne : p ≠ g.finish) :
    (graphs.foldl link own).postDominates n p = g.postDominates n p := by
  have hgoal : own.finish ∉ g.nodeIds := h.outside g h.mem .forward
  have hpg : p ≠ own.finish := fun heq => hgoal (heq ▸ hp)
  -- a route in the member does not come to the finish of the class
  have hinside : ∀ avoid, ¬ g.Path avoid n own.finish := fun avoid hr => hgoal (hr.mem_nodeIds hn)
  have hreach : (graphs.foldl link own).Path ∅ n p ↔ g.Path ∅ n p := by
    rw [FlowGraph.Path, h.route_iff hn]
    exact ⟨fun hr => hr.resolve_right fun hout => hpg hout.1, .inl⟩
  have havoid : (graphs.foldl link own).Path {p} n own.finish ↔ g.Path {p} n g.finish := by
    rw [FlowGraph.Path, h.route_iff hn]
    constructor
    · intro hr
      exact (hr.resolve_left (hinside {p})).2.2
    · intro hr
      exact .inr ⟨rfl, fun heq => hpg heq.symm, hr⟩
  rw [Bool.eq_iff_iff, FlowGraph.postDominates_iff, FlowGraph.postDominates_iff, finish_foldl_link,
    hreach, havoid]
  simp [hn, h.mem_nodeIds hn, hpg, hne]

end Joined

end ClassCfg

theorem Assembler.bare_openEntry (supply : Supply) (kind : DeclKind)
    (name signature qualifiedName : String) (detail : EntryDetail) :
    (openEntry supply kind name signature qualifiedName detail).flow.Bare := by
  have hids : (openEntry supply kind name signature qualifiedName detail).flow.nodeIds =
      [⟨supply.ids.next⟩, ⟨supply.ids.next + 1⟩] := by
    rw [FlowGraph.nodeIds_eq_identities, identities_openEntry]
    rfl
  have hstart : (openEntry supply kind name signature qualifiedName detail).flow.start =
      ⟨supply.ids.next⟩ := rfl
  have hfinish : (openEntry supply kind name signature qualifiedName detail).flow.finish =
      ⟨supply.ids.next + 1⟩ := rfl
  refine ⟨(Graph.Made.empty.addNode _).addNode _, ?_, fun direction => ?_, ?_⟩
  · simp [FlowGraph.edges, openEntry, FlowGraph.addNode]
  · rw [hids]
    cases direction with
    | forward => simp [FlowGraph.goal, hfinish]
    | backward => simp [FlowGraph.goal, hstart]
  · rw [hstart, hfinish]
    simp

theorem Assembler.Opened.bare {supply : Supply} {a : Assembler} (h : Opened supply a) :
    a.flow.Bare := by
  cases h <;> exact bare_openEntry ..

theorem AssemblerOp.made_apply (op : AssemblerOp NodeId) {a : Assembler}
    (h : a.flow.graph.Made) : (op.apply a).2.flow.graph.Made := by
  refine Assembler.apply_induction (motive := fun a => a.flow.graph.Made) ?_ ?_ ?_ op h
  · intro a data h
    exact h.addNode _
  · intro a id f hf h
    exact h.modifyNode hf.id id
  · intro a e h
    exact h.addEdge e

theorem AssemblerOp.made_run (ops : List (AssemblerOp NodeId)) {a : Assembler}
    (h : a.flow.graph.Made) : (run ops a).flow.graph.Made := by
  induction ops generalizing a with
  | nil => exact h
  | cons op rest ih => exact ih (op.made_apply h)

/-- Linking changes what the entry of a class lists, and nothing else in `own`. -/
theorem ClassOp.bare_apply {op : ClassOp} (hk : op.Keyed) {c : ClassCfg} (h : c.own.Bare) :
    (op.apply c).own.Bare := by
  cases op with
  | add m =>
    change (c.add m).2.own.Bare
    unfold ClassCfg.add
    split
    · split <;> exact h
    · exact h.modifyNode _ (ClassCfg.addName_id _)
  | adopt known supply =>
    have hr := c.adopt_revised hk supply
    exact hr.own ▸ h
  | computeBlocks supply =>
    have hr := c.computeMemberBlocks_revised supply
    exact hr.own ▸ h

theorem ClassOp.bare_run {ops : List ClassOp} (hk : ∀ op ∈ ops, op.Keyed) {c : ClassCfg}
    (h : c.own.Bare) : (run ops c).own.Bare := by
  induction ops using List.reverseRecOn with
  | nil => exact h
  | append_singleton ops op ih =>
    rw [run_concat]
    simp only [List.mem_append, List.mem_singleton] at hk
    exact bare_apply (hk op (.inr rfl)) (ih fun op h => hk op (.inl h))

theorem ClassOp.mem_members_run {members : List SharedCfg} {a : Assembler} {x : SharedCfg}
    (h : x ∈ (run (members.map add) a.toClass).members) : x ∈ members := by
  induction members using List.reverseRecOn with
  | nil => exact h
  | append_singleton members m ih =>
    rw [List.map_append, List.map_singleton, run_concat] at h
    rcases ClassCfg.mem_members_add h with rfl | h
    · simp
    · exact List.mem_append_left _ (ih h)

namespace ClassCfg

variable {c : ClassCfg}

theorem Coherent.goal_eq (h : c.Coherent) (d : Direction) : c.flow.goal d = c.own.goal d := by
  rw [h.flow_eq, goal_foldl_link]

/-- The graph of a class is made by operations on graphs, whatever its members are. -/
theorem Coherent.made (h : c.Coherent) (hb : c.own.Bare) : c.flow.graph.Made := by
  rw [h.flow_eq]
  generalize linked c.memberNames (c.members.map SharedCfg.flow) = graphs
  induction graphs using List.reverseRecOn with
  | nil => exact hb.made
  | append_singleton graphs g ih =>
    rw [List.foldl_append]
    exact ((ih.append g.graph).addEdge _).addEdge _

section Opened

variable {supply : Supply} {kind : DeclKind} {name qualifiedName : String} {ops : List ClassOp}

theorem coherent_of_opened (hk : ∀ op ∈ ops, op.Keyed) :
    (ClassOp.run ops (Assembler.classType supply kind name qualifiedName).toClass).Coherent := by
  have hopened : Assembler.ClassReachable supply (.classType supply kind name qualifiedName) :=
    .opened ..
  exact ClassOp.run_coherent hk (.toClass hopened.entered)

theorem bare_of_opened (hk : ∀ op ∈ ops, op.Keyed) :
    (ClassOp.run ops (Assembler.classType supply kind name qualifiedName).toClass).own.Bare :=
  have hopened : Assembler.Opened supply (.classType supply kind name qualifiedName) :=
    .classType ..
  ClassOp.bare_run hk hopened.bare

end Opened

theorem Coherent.joined (h : c.Coherent) (hb : c.own.Bare)
    (hmade : ∀ m ∈ c.members, m.flow.graph.Made)
    (hends : ∀ m ∈ c.members, c.flow.start ∉ m.flow.nodeIds ∧ c.flow.finish ∉ m.flow.nodeIds)
    (hapart : ∀ x ∈ c.members, ∀ y ∈ c.members, x.qualifiedName ≠ y.qualifiedName →
      x.flow.Apart y.flow) {m : SharedCfg} (hm : m ∈ c.members) :
    Joined c.own (linked c.memberNames (c.members.map SharedCfg.flow)) m.flow := by
  have hmember : ∀ g ∈ linked c.memberNames (c.members.map SharedCfg.flow),
      ∃ x ∈ c.members, x.flow = g := fun g hg => List.mem_map.1 (ClassCfg.mem_linked hg)
  refine ⟨hb, fun g hg => ?_, fun g hg d => ?_, h.mem_linked hm, fun g hg => ?_⟩
  · obtain ⟨x, hx, rfl⟩ := hmember g hg
    exact (hmade x hx).wellFormed
  · obtain ⟨x, hx, rfl⟩ := hmember g hg
    rw [← h.goal_eq]
    cases d with
    | forward => exact (hends x hx).2
    | backward => exact (hends x hx).1
  · obtain ⟨x, hx, rfl⟩ := hmember g hg
    by_cases hname : m.qualifiedName = x.qualifiedName
    · have hkeys : (c.members.map SharedCfg.qualifiedName).Nodup := h.keys.nodup_iff.1 h.nodup
      rw [List.inj_on_of_nodup_map hkeys hm hx hname]
      exact .inl rfl
    · exact .inr (hapart m hm x hx hname)

/-- A free walk from a node of a member reaches in the class what it reaches in the member, and the
end of the class exactly if it reaches that of the member; and among the nodes of a member the
class has the post-dominators of the member, where the end of the member does not count. -/
theorem member_queries_agree {supply : Supply} {kind : DeclKind} {name qualifiedName : String}
    {ops : List ClassOp} (hk : ∀ op ∈ ops, op.Keyed) {c : ClassCfg}
    (hc : c = ClassOp.run ops (Assembler.classType supply kind name qualifiedName).toClass)
    (hmade : ∀ m ∈ c.members, m.flow.graph.Made)
    (hends : ∀ m ∈ c.members, c.flow.start ∉ m.flow.nodeIds ∧ c.flow.finish ∉ m.flow.nodeIds)
    (hapart : ∀ x ∈ c.members, ∀ y ∈ c.members, x.qualifiedName ≠ y.qualifiedName →
      x.flow.Apart y.flow) {m : SharedCfg} (hm : m ∈ c.members) {n : NodeId}
    (hn : n ∈ m.flow.nodeIds) (loopbackOk : Bool) :
    (c.flow.forwardReachable n loopbackOk (fun _ => false) =
      let inside := m.flow.forwardReachable n loopbackOk fun _ => false
      if m.flow.finish ∈ inside then inside.insert c.flow.finish else inside) ∧
    (c.flow.backwardReachable n loopbackOk (fun _ => false) =
      let inside := m.flow.backwardReachable n loopbackOk fun _ => false
      if m.flow.start ∈ inside then inside.insert c.flow.start else inside) ∧
    ∀ p ∈ m.flow.nodeIds, p ≠ m.flow.finish →
      c.flow.postDominates n p = m.flow.postDominates n p := by
  have hcoherent : c.Coherent := hc ▸ coherent_of_opened hk
  have hjoined := hcoherent.joined (hc ▸ bare_of_opened hk) hmade hends hapart hm
  have hreached : ∀ d, c.flow.reached n d loopbackOk (fun _ => false) =
      if m.flow.goal d ∈ m.flow.reached n d loopbackOk (fun _ => false) then
        (m.flow.reached n d loopbackOk fun _ => false).insert (c.flow.goal d)
      else m.flow.reached n d loopbackOk fun _ => false := by
    intro d
    rw [hcoherent.goal_eq, ← hjoined.reached_eq hn, ← hcoherent.flow_eq]
  refine ⟨hreached .forward, hreached .backward, fun p hp hne => ?_⟩
  rw [hcoherent.flow_eq]
  exact hjoined.postDominates_eq hn hp hne

/-- A class with a method and a nested class. The questions are about a node in the method of the
nested class, and the member that answers them too is the nested class. -/
theorem member_queries_agree_nested :
    ∃ (c : ClassCfg) (m : SharedCfg), m ∈ c.members ∧ m.isClass = true ∧
      c.flow.nodeIds = [1, 2, 3, 4, 5, 6, 7, 8, 9, 10] ∧ m.flow.nodeIds = [6, 7, 8, 9, 10] ∧
      (∀ x ∈ c.members, ∀ y ∈ c.members, x.qualifiedName ≠ y.qualifiedName →
        x.flow.Apart y.flow) ∧
      c.flow.forwardReachable 10 false (fun _ => false) =
        (m.flow.forwardReachable 10 false fun _ => false).insert 2 ∧
      c.flow.backwardReachable 10 false (fun _ => false) =
        (m.flow.backwardReachable 10 false fun _ => false).insert 1 ∧
      c.flow.postDominates 8 10 = m.flow.postDominates 8 10 := by
  let a := Assembler.classType {} .classType "A" "A"
  let f := AssemblerOp.run [.dummy, .sequence [3, 5, 4], .loopback 5 5 .fallThrough]
    (Assembler.method a.supply .method "f" "f()" "A.f" "void")
  let b := Assembler.classType f.supply .classType "B" "A.B"
  let g := AssemblerOp.run [.dummy, .sequence [8, 10, 9]]
    (Assembler.method b.supply .method "g" "g()" "A.B.g" "void")
  let inner := ClassOp.run [.add (.method ⟨0⟩ g.toCfg)] b.toClass
  let members : List SharedCfg := [.method ⟨1⟩ f.toCfg, .classType ⟨2⟩ inner]
  obtain ⟨c, hc⟩ : ∃ c, c = ClassOp.run (members.map .add) a.toClass := ⟨_, rfl⟩
  have hmembers : ∀ x ∈ c.members, x ∈ members := by
    rw [hc]
    exact fun x hx => ClassOp.mem_members_run hx
  have hmade : ∀ x ∈ c.members, x.flow.graph.Made := by
    -- for any two graphs, so that these are not evaluated to compare them
    have hboth : ∀ {f inner}, f.flow.graph.Made → inner.flow.graph.Made →
        ∀ x ∈ [SharedCfg.method ⟨1⟩ (Assembler.toCfg f), .classType ⟨2⟩ inner],
          x.flow.graph.Made :=
      fun hf hinner => List.forall_mem_cons.2 ⟨hf, List.forall_mem_singleton.2 hinner⟩
    have hopened : Assembler.Opened a.supply (.method a.supply .method "f" "f()" "A.f" "void") :=
      .method ..
    have hkeyed : ∀ op ∈ [ClassOp.add (.method ⟨0⟩ g.toCfg)], op.Keyed := by simp [ClassOp.Keyed]
    have hinner : inner.Coherent := coherent_of_opened hkeyed
    exact fun x hx => hboth (AssemblerOp.made_run _ hopened.bare.made)
      (hinner.made (bare_of_opened hkeyed)) x (hmembers x hx)
  have hstart : c.flow.start = 1 := by
    rw [hc]
    decide +kernel
  have hfinish : c.flow.finish = 2 := by
    rw [hc]
    decide +kernel
  have hends : ∀ x ∈ c.members,
      c.flow.start ∉ x.flow.nodeIds ∧ c.flow.finish ∉ x.flow.nodeIds := by
    have hnone : ∀ x ∈ members, 1 ∉ x.flow.nodeIds ∧ 2 ∉ x.flow.nodeIds := by decide +kernel
    rw [hstart, hfinish]
    exact fun x hx => hnone x (hmembers x hx)
  have hapart : ∀ x ∈ c.members, ∀ y ∈ c.members, x.qualifiedName ≠ y.qualifiedName →
      x.flow.Apart y.flow := by
    have hall : ∀ x ∈ members, ∀ y ∈ members, x.qualifiedName ≠ y.qualifiedName →
        x.flow.Apart y.flow := by
      decide +kernel
    exact fun x hx y hy => hall x (hmembers x hx) y (hmembers y hy)
  have hkeyed : ∀ op ∈ members.map ClassOp.add, op.Keyed := by
    intro op hop
    obtain ⟨x, -, rfl⟩ := List.mem_map.1 hop
    trivial
  have hfind : (c.find? "A.B").map (fun m => (m.isClass, m.flow.nodeIds,
      decide (m.flow.finish ∈ m.flow.forwardReachable 10 false fun _ => false),
      decide (m.flow.start ∈ m.flow.backwardReachable 10 false fun _ => false),
      decide (m.flow.finish = 10))) = some (true, [6, 7, 8, 9, 10], true, true, false) := by
    rw [hc]
    decide +kernel
  obtain ⟨m, hm, hfacts⟩ := Option.map_eq_some_iff.1 hfind
  simp only [Prod.mk.injEq, decide_eq_true_eq, decide_eq_false_iff_not] at hfacts
  obtain ⟨hclass, hids, hout, hback, hne⟩ := hfacts
  have hin : m ∈ c.members := List.mem_of_find?_eq_some hm
  have h8 : 8 ∈ m.flow.nodeIds := by simp [hids]
  have h10 : 10 ∈ m.flow.nodeIds := by simp [hids]
  obtain ⟨hforward, hbackward, -⟩ :=
    member_queries_agree hkeyed hc hmade hends hapart hin h10 false
  obtain ⟨-, -, hdominates⟩ := member_queries_agree hkeyed hc hmade hends hapart hin h8 false
  have hall : c.flow.nodeIds = [1, 2, 3, 4, 5, 6, 7, 8, 9, 10] := by
    rw [hc]
    decide +kernel
  refine ⟨c, m, hin, hclass, hall, hids, hapart, ?_, ?_, hdominates 10 h10 (Ne.symm hne)⟩
  · rw [← hfinish, hforward]
    exact if_pos hout
  · rw [← hstart, hbackward]
    exact if_pos hback

/-- That the members have no node in common is not enough. Here walks leave `A.g` backward at `12`,
which is a node of `A.f`, so the class has an edge from its start to it. -/
theorem member_starting_in_another_leads_out :
    ∃ (c : ClassCfg) (members : List SharedCfg) (m : SharedCfg),
      c = ClassOp.run (members.map .add) (Assembler.classType {} .classType "A" "A").toClass ∧
      (∀ x ∈ c.members, x.flow.graph.Made) ∧
      (∀ x ∈ c.members, c.flow.start ∉ x.flow.nodeIds ∧ c.flow.finish ∉ x.flow.nodeIds) ∧
      (∀ x ∈ c.members, ∀ y ∈ c.members, x.qualifiedName ≠ y.qualifiedName →
        ∀ id ∈ x.flow.nodeIds, id ∉ y.flow.nodeIds) ∧
      m ∈ c.members ∧ 12 ∈ m.flow.nodeIds ∧
      m.flow.start ∉ m.flow.backwardReachable 12 true (fun _ => false) ∧
      c.flow.start ∈ c.flow.backwardReachable 12 true (fun _ => false) := by
  let node : NodeId → Node := fun id => { id, data := .dummy, link := ⟨id.val⟩ }
  let f : FlowGraph :=
    { qualifiedName := "A.f", start := 10, finish := 11,
      graph := .ofLists [node 10, node 11, node 12] [] }
  let g : FlowGraph :=
    { qualifiedName := "A.g", start := 12, finish := 21, graph := .ofLists [node 21] [] }
  let members : List SharedCfg := [.method ⟨0⟩ { flow := f }, .method ⟨1⟩ { flow := g }]
  obtain ⟨c, hc⟩ : ∃ c, c = ClassOp.run (members.map .add)
      (Assembler.classType {} .classType "A" "A").toClass := ⟨_, rfl⟩
  have hmembers : ∀ x ∈ c.members, x ∈ members := by
    rw [hc]
    exact fun x hx => ClassOp.mem_members_run hx
  have hmade : ∀ x ∈ members, x.flow.graph.Made :=
    List.forall_mem_cons.2 ⟨.ofLists .., List.forall_mem_singleton.2 (.ofLists ..)⟩
  have hends : c.flow.start = 1 ∧ c.flow.finish = 2 := by
    rw [hc]
    decide +kernel
  have hnone : ∀ x ∈ members, 1 ∉ x.flow.nodeIds ∧ 2 ∉ x.flow.nodeIds := by decide +kernel
  have hapart : ∀ x ∈ members, ∀ y ∈ members, x.qualifiedName ≠ y.qualifiedName →
      ∀ id ∈ x.flow.nodeIds, id ∉ y.flow.nodeIds := by
    decide +kernel
  have hfind : (c.find? "A.f").map (fun m => (decide (12 ∈ m.flow.nodeIds),
      decide (m.flow.start ∈ m.flow.backwardReachable 12 true fun _ => false))) =
        some (true, false) := by
    rw [hc]
    decide +kernel
  obtain ⟨m, hm, hfacts⟩ := Option.map_eq_some_iff.1 hfind
  simp only [Prod.mk.injEq, decide_eq_true_eq, decide_eq_false_iff_not] at hfacts
  refine ⟨c, members, m, hc, fun x hx => hmade x (hmembers x hx), ?_,
    fun x hx y hy => hapart x (hmembers x hx) y (hmembers y hy), List.mem_of_find?_eq_some hm,
    hfacts.1, hfacts.2, ?_⟩
  · rw [hends.1, hends.2]
    exact fun x hx => hnone x (hmembers x hx)
  · rw [hc]
    decide +kernel

end ClassCfg

end ProgramFlow
