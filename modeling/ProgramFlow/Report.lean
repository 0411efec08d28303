import ProgramFlow.Codec.Analysis
import ProgramFlow.Session

/-! What a reader of graphs is shown: short forms of edges, and descriptions of nodes, blocks,
links, call graphs and handles. -/
namespace ProgramFlow.Report

def flag (b : Bool) : Json := .bool b

def ids (l : List NodeId) : Json := .ofList NodeId.toJson l

def id? (id : Option NodeId) : Json := .ofOption NodeId.toJson id

def texts (l : List String) : Json := .ofList Json.str l

def text? (s : Option String) : Json := .ofOption Json.str s

def nodeSet (s : NodeSet) : Json := ids s.toList

def positions (l : List NodeId) (count : Nat) : Json :=
  .ofList (fun i => id? l[i]?) (List.range count)

def edge (e : Flow) : Json :=
  .arr [e.source.toJson, e.target.toJson, .str e.kind.text, id? e.loopback]

def edges (l : List Flow) : Json := .ofList edge l

def span (s : Span) : Json :=
  .arr [.ofNat s.startLine.toNat, .ofNat s.startCol.toNat, .ofNat s.endLine.toNat,
    .ofNat s.endCol.toNat]

def entry (e : Entry) : Json :=
  .obj [("name", .str e.name), ("signature", .str e.signature), ("owner", .str e.qualifiedName),
    ("method", flag e.method?.isSome),
    ("class", .ofOption (fun c => texts c.members) e.classType?)]

def call (c : Call) : Json :=
  .obj [("callee", .str c.callee.qualifiedName), ("receiver", id? c.receiver),
    ("ins", ids c.actualIns), ("outs", ids c.actualOuts), ("ret", id? c.actualOutForReturn)]

def callParameters (count : Nat) (c : Call) : Json :=
  .obj [("callee", .str c.callee.qualifiedName), ("receiver", id? c.receiver),
    ("ins", positions c.actualIns count), ("outs", positions c.actualOuts count),
    ("ret", id? c.actualOutForReturn)]

def methodEntry (count : Nat) (m : MethodEntry) : Json :=
  .obj [("return_type", .str m.returnType), ("void", flag m.isVoid),
    ("ins", positions m.formalIns count), ("outs", positions m.formalOuts count),
    ("ret", id? m.formalOutForReturn), ("exceptions", ids m.exceptions)]

def parameter (p : Parameter) : Json :=
  .arr [.str p.kind.text, .ofNat p.ordinal, .str p.name, .str p.typeName, flag p.forReturn,
    p.owner.toJson]

def defUse (d : DefUse) : Json :=
  .obj [("defs", texts (d.defs.items.map (·.qualifiedName))),
    ("uses", texts (d.uses.items.map (·.qualifiedName)))]

def pdg? (p : Option PdgNode) : Json := .ofOption (fun p => .ofNat p.val) p

def node (links : Links) (n : Node) : Json :=
  .obj [("id", n.id.toJson), ("kind", .str n.kind.text), ("node_kind", n.kind.toJson),
    ("data_kind", .str n.data.kind.text), ("label", .str n.label),
    ("span", .ofOption span n.span), ("block", .ofOption BlockId.toJson n.block),
    ("pdg", pdg? (links.get? n.link)), ("qualified_name", text? n.qualifiedName?),
    ("flags", .ofList flag
      [n.isEntry, n.isExit, n.isCall, n.isParameter, n.isMerge, n.isDummy]),
    ("entry", .ofOption entry n.entry?),
    ("statement", .ofOption (fun s => .str s.kind.text) n.statement?),
    ("call", .ofOption call n.call?), ("parameter", .ofOption parameter n.parameter?),
    ("def_use", .ofOption defUse n.defUse?)]

def linkedNodes (links : Links) (g : FlowGraph) : Json :=
  .arr (g.nodes.filterMap fun n =>
    (links.get? n.link).map fun p => .arr [n.id.toJson, .ofNat p.val])

def nodeBlocks (g : FlowGraph) : Json :=
  .ofList (fun n => .arr [n.id.toJson, .ofOption BlockId.toJson n.block]) g.nodes

def surroundings (g : FlowGraph) (id : NodeId) : Json :=
  .obj [("id", id.toJson), ("out", edges (g.outgoing id)), ("in", edges (g.incoming id)),
    ("succ", ids (g.successors id)), ("pred", ids (g.predecessors id)),
    ("csucc", ids (g.controlSuccessors id)), ("cpred", ids (g.controlPredecessors id)),
    ("branch", flag (g.isBranch id)), ("loop", flag (g.isLoop id)),
    ("join", flag (g.isJoin id)), ("next_to_branch", flag (g.isNextToBranch id)),
    ("true", .ofOption edge (g.flowFrom? id .onTrue)),
    ("false", .ofOption edge (g.flowFrom? id .onFalse)),
    ("true_succ", id? ((g.successorOn? id .onTrue).map (·.id))),
    ("false_succ", id? ((g.successorOn? id .onFalse).map (·.id)))]

def block (b : BasicBlock) : Json :=
  .obj [("id", b.id.toJson), ("leader", b.leader.toJson), ("nodes", ids b.nodes),
    ("len", .ofNat b.nodes.length), ("empty", flag b.nodes.isEmpty)]

def blockOf (c : Cfg) (id : NodeId) : Json :=
  .ofOption (fun b => .arr [b.id.toJson, flag (b.leader = id), flag (id ∈ b.nodes)])
    (c.blockOf? id)

def member (m : SharedCfg) : Json :=
  .arr [.str m.qualifiedName, .str (if m.isClass then "Class" else "Method"),
    .ofOption (fun c => .ofNat c.members.length) m.classType?, .ofNat m.flow.nodeCount]

def diagnostic (d : Diagnostic) : Json :=
  .obj [("qualified_name", .str d.qualifiedName), ("kind", .str d.kind.name),
    ("message", .str d.message), ("display", .str d.text)]

def callLink (l : CallLink) : Json :=
  match l.toJson with
  | .obj fields => .obj (fields ++ [("aligned", flag l.isAligned), ("edges", edges l.edges)])
  | other => other

def linkIndex (g : InterproceduralGraph) (l : CallLink) : Json :=
  .arr [texts ((g.calleesOf l.callSite).map (·.callee)),
    ids ((g.callersOf l.calleeEntry).map (·.callSite))]

def interprocedural (g : InterproceduralGraph) : Json :=
  .obj [("links", .ofList callLink g.links), ("edges", edges g.edges),
    ("unresolved", .ofList UnresolvedCall.toJson g.unresolved),
    ("unresolved_count", .ofNat g.unresolvedCount), ("link_count", .ofNat g.linkCount),
    ("empty", flag g.isEmpty), ("index", .ofList (linkIndex g) g.links)]

def callNode (n : CallNode) : Json := .arr [n.entry.toJson, .str n.qualifiedName]

def callNeighbours (g : CallGraph) (n : CallNode) : Json :=
  .obj [("entry", n.entry.toJson), ("callees", .ofList callNode (g.callees n.entry)),
    ("callers", .ofList callNode (g.callers n.entry)),
    ("transitive", nodeSet (g.transitiveCallees n.entry))]

def callGraph (g : CallGraph) : Json :=
  .obj [("nodes", .ofList CallNode.toJson g.nodes), ("edges", .ofList CallEdge.toJson g.edges),
    ("counts", .arr [.ofNat g.graph.nodeCount, .ofNat g.graph.edgeCount]),
    ("empty", flag g.graph.isEmpty), ("entry_points", .ofList callNode g.entryPoints),
    ("leaves", .ofList callNode g.leaves),
    ("per_node", .ofList (callNeighbours g) g.nodes)]

def ends (g : FlowGraph) : Json :=
  .arr [.str g.qualifiedName, text? (g.startNode?.map (·.kind.text)),
    text? (g.finishNode?.map (·.kind.text)), id? (g.startNode?.map (·.id))]

def summary (h : Handle) : Json :=
  let g := h.graph
  let base (form : String) : List (String × Json) :=
    [("form", .str form), ("qualified_name", .str g.qualifiedName), ("start", g.start.toJson),
      ("end", g.finish.toJson), ("nodes", .ofNat g.nodeCount), ("edges", .ofNat g.edgeCount)]
  match h with
  | .flow _ => .obj (base "Flow")
  | .shared (.method _ cfg) =>
    .obj (base "Method" ++ [("common", ends g), ("blocks", .ofNat cfg.blocks.length),
      ("has_blocks", flag cfg.hasBlocks)])
  | .shared (.classType _ cfg) =>
    .obj (base "Class" ++ [("common", ends g), ("members", .ofNat cfg.members.length)])

def store (s : Session) : Json :=
  let ids := s.supply.ids
  .obj [("len", .ofNat s.store.cache.size), ("empty", flag s.store.cache.isEmpty),
    ("methods", texts (s.store.methods.map (·.qualifiedName))),
    ("diagnostics", .ofList diagnostic s.store.diagnostics),
    ("allocated", .ofNat ids.allocated), ("peek", ids.peek.toJson),
    ("config", s.store.config.toJson), ("calls", .ofNat s.buildCount)]

end ProgramFlow.Report
