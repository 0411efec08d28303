import ProgramFlow.Store

/-! Links from call sites to the methods they call. A link has one call edge and the parameter
edges between actuals and formals of the same position. The edges join two graphs, so they are
kept with the link and belong to neither graph. -/
namespace ProgramFlow

structure CallLink where
  caller : String
  callerEntry : NodeId
  callSite : NodeId
  callee : String
  calleeEntry : NodeId
  callEdge : Flow
  parameterEdges : List Flow
  /-- The numbers of actual-ins and formal-ins, where they differ. -/
  arityMismatch : Option (Nat × Nat)
  deriving DecidableEq, Inhabited, Repr

namespace CallLink

def edges (l : CallLink) : List Flow := l.callEdge :: l.parameterEdges

def isAligned (l : CallLink) : Bool := l.arityMismatch.isNone

end CallLink

def passEdges (sources targets : List NodeId) : List Flow :=
  (sources.zip targets).map fun (source, target) => ⟨source, target, .parameter, none⟩

/-- Actual-ins flow to formal-ins, formal-outs to actual-outs, and the returned value last. -/
def parameterEdges (call : Call) (formals : MethodEntry) : List Flow :=
  passEdges call.actualIns formals.formalIns ++ passEdges formals.formalOuts call.actualOuts ++
    passEdges formals.formalOutForReturn.toList call.actualOutForReturn.toList

def linkCall? (caller : FlowGraph) (site : NodeId) (callee : FlowGraph) : Option CallLink := do
  let call ← (← caller.node? site).call?
  let formals ← callee.methodEntry?
  let actualCount := call.actualIns.length
  let formalCount := formals.formalIns.length
  return {
    caller := caller.qualifiedName
    callerEntry := caller.start
    callSite := site
    callee := callee.qualifiedName
    calleeEntry := callee.start
    callEdge := ⟨site, callee.start, .methodCall, none⟩
    parameterEdges := parameterEdges call formals
    arityMismatch := if actualCount = formalCount then none else some (actualCount, formalCount) }

structure UnresolvedCall where
  caller : String
  callSite : NodeId
  callee : String
  deriving DecidableEq, Inhabited, Repr

structure LinkIndex where
  entries : List (NodeId × List Nat) := []

namespace LinkIndex

def positions (index : LinkIndex) (id : NodeId) : List Nat := (index.entries.lookup id).getD []

def note (index : LinkIndex) (id : NodeId) (position : Nat) : LinkIndex :=
  ⟨(id, index.positions id ++ [position]) :: index.entries.filter fun entry => entry.1 != id⟩

end LinkIndex

structure InterproceduralGraph where
  links : List CallLink := []
  unresolved : List UnresolvedCall := []
  unresolvedCount : Nat := 0
  byCallSite : LinkIndex := {}
  byCalleeEntry : LinkIndex := {}

namespace InterproceduralGraph

def edges (g : InterproceduralGraph) : List Flow := g.links.flatMap CallLink.edges

def linkCount (g : InterproceduralGraph) : Nat := g.links.length

def isEmpty (g : InterproceduralGraph) : Bool := g.links.isEmpty

/-- Adds a link behind the others and notes its position in both indexes. -/
def push (g : InterproceduralGraph) (link : CallLink) : InterproceduralGraph :=
  { g with
    links := g.links ++ [link]
    byCallSite := g.byCallSite.note link.callSite g.links.length
    byCalleeEntry := g.byCalleeEntry.note link.calleeEntry g.links.length }

def indexed (g : InterproceduralGraph) (index : LinkIndex) (id : NodeId) : List CallLink :=
  (index.positions id).filterMap fun position => g.links[position]?

def calleesOf (g : InterproceduralGraph) (site : NodeId) : List CallLink :=
  g.indexed g.byCallSite site

def callersOf (g : InterproceduralGraph) (entry : NodeId) : List CallLink :=
  g.indexed g.byCalleeEntry entry

/-- Every call node of every method and field of a store, by the name of the caller and then in
the order of its graph. -/
def callSites (s : Store) : List (FlowGraph × NodeId × Call) :=
  s.methods.flatMap fun caller =>
    caller.flow.nodes.filterMap fun n => n.call?.map fun call => (caller.flow, n.id, call)

def arityEvents (config : LinkageConfig) (link : CallLink) : List Event :=
  match link.arityMismatch with
  | some (actuals, formals) =>
    let level := if config.warnOnArityMismatch then Level.warn else Level.debug
    [.arityMismatch level link.callee link.caller actuals formals]
  | none => []

/-- Takes up one call site. A callee that is not held is counted, and listed if the configuration
asks for it; a callee without method entry gives no link. -/
def addSite (s : Store) (config : LinkageConfig) (state : InterproceduralGraph × List Event)
    (site : FlowGraph × NodeId × Call) : InterproceduralGraph × List Event :=
  let (g, events) := state
  let (caller, id, call) := site
  let calleeName := call.callee.qualifiedName
  match s.method? calleeName with
  | none =>
    let listed : List UnresolvedCall :=
      if config.linkUnresolved then [⟨caller.qualifiedName, id, calleeName⟩] else []
    ({ g with
        unresolved := g.unresolved ++ listed
        unresolvedCount := g.unresolvedCount + 1 },
      events ++ [.unresolvedCallee calleeName id caller.qualifiedName])
  | some callee =>
    match linkCall? caller id callee.flow with
    | some link => (g.push link, events ++ arityEvents config link)
    | none => (g, events)

def build (s : Store) (config : LinkageConfig) : InterproceduralGraph × List Event :=
  let (g, events) := (callSites s).foldl (addSite s config) ({}, [])
  (g, events ++ [.linked g.linkCount g.unresolvedCount])

end InterproceduralGraph

end ProgramFlow
