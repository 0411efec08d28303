import ProgramFlow.CallGraph
import ProgramFlow.Codec.Graph
import ProgramFlow.FlowGraph.DominatorCache
import ProgramFlow.Script

/-! One analysis with everything it keeps: the store over a scripted front end, named handles to
graphs, the links to dependence graphs, the last interprocedural graph and call graph, and the
memory of post-dominators. Every operation takes a session and gives the next one. -/
namespace ProgramFlow

inductive Handle where
  | shared (held : SharedCfg)
  | flow (graph : FlowGraph)

namespace Handle

def graph : Handle → FlowGraph
  | .shared held => held.flow
  | .flow graph => graph

/-- The same object; bare graphs are never the same. -/
def same : Handle → Handle → Bool
  | .shared a, .shared b => a.same b
  | _, _ => false

end Handle

structure Session where
  store : Store := {}
  catalog : Script.Catalog := {}
  handles : NameMap Handle := {}
  links : Links := {}
  interprocedural : InterproceduralGraph := {}
  callGraph : CallGraph := {}
  dominators : DominatorCache := {}
  /-- What has happened, in order. -/
  trace : List Event := []

namespace Session

def handle? (s : Session) (name : String) : Option Handle := s.handles.find? name

/-- Every one of the names has been bound. A step that names a graph otherwise is passed over. -/
def knows (s : Session) (names : List String) : Bool :=
  names.all fun name => (s.handle? name).isSome

def bind (s : Session) (name : String) (h : Handle) : Session :=
  { s with handles := s.handles.insert name h }

def withSupply (s : Session) (supply : Supply) : Session :=
  { s with store := { s.store with supply } }

def supply (s : Session) : Supply := s.store.supply

def buildCount (s : Session) : Nat :=
  s.trace.countP fun
    | .building _ => true
    | _ => false

def holdMethod (s : Session) (cfg : Cfg) : SharedCfg × Session :=
  let (ref, supply) := s.supply.newRef
  (.method ref cfg, s.withSupply supply)

def holdClass (s : Session) (cfg : ClassCfg) : SharedCfg × Session :=
  let (ref, supply) := s.supply.newRef
  (.classType ref cfg, s.withSupply supply)

def copy (s : Session) : SharedCfg → SharedCfg × Session
  | .method _ cfg => s.holdMethod cfg
  | .classType _ cfg => s.holdClass cfg

/-- Runs a script without asking the store; failed steps are answered and passed over. -/
def build (s : Session) (head : Script.Head) :
    List (Except CfgError OpResult) × SharedCfg × Session :=
  let (results, run) := (Script.Run.ofHead head s.supply).steps head.steps
  let s := s.withSupply run.assembler.supply
  match head.product run.assembler with
  | .method cfg => (results, s.holdMethod cfg)
  | .classType cfg => (results, s.holdClass cfg)

def loadFlow? (s : Session) (j : Json) : Option (Handle × Session) :=
  (FlowGraph.ofJson? s.supply j).map fun (g, supply) => (.flow g, s.withSupply supply)

def loadCfg? (s : Session) (j : Json) : Option (Handle × Session) :=
  (Cfg.ofJson? s.supply j).map fun (cfg, supply) =>
    let (held, s) := (s.withSupply supply).holdMethod cfg
    (.shared held, s)

/-- Writes a graph and reads it back; a class comes back as a bare graph. -/
def reload? (s : Session) : Handle → Option (Handle × Session)
  | .shared (.method _ cfg) => s.loadCfg? cfg.toJson
  | h => s.loadFlow? h.graph.toJson

def asMethod (s : Session) (h : Handle) : Handle × Session :=
  let (held, s) := s.holdMethod ⟨h.graph, []⟩
  (.shared held, s)

/-- Adds a member to a copy of a class, and answers with the object the class names for it and
with the copy. Unless it is to be shared, the member is copied first. -/
def addMember (s : Session) (cfg : ClassCfg) (member : SharedCfg) (share : Bool) :
    SharedCfg × ClassCfg × SharedCfg × Session :=
  let (entering, s) := if share then (member, s) else s.copy member
  let (answered, cfg) := cfg.add entering
  let (held, s) := s.holdClass cfg
  (answered, cfg, held, s)

def setLink (s : Session) (g : FlowGraph) (id : NodeId) (pdg : PdgNode) : Bool × Session :=
  match g.node? id with
  | none => (false, s)
  | some n =>
    let (done, links) := s.links.set n.link pdg
    (done, { s with links })

def request (s : Session) (d : Declaration) : Except CfgError SharedCfg × Session :=
  let reply := s.store.request s.catalog.builder d
  (reply.result, { s with store := reply.store, trace := s.trace ++ reply.events })

def allocate (s : Session) : NodeId × Session :=
  let (id, store) := s.store.allocate
  (id, { s with store })

def resetIds (s : Session) : Session :=
  let (store, events) := s.store.resetIds
  { s with store, trace := s.trace ++ events }

def destroy (s : Session) : Session :=
  let (store, events) := s.store.destroy
  { s with store, trace := s.trace ++ events }

def linkCalls (s : Session) (config : LinkageConfig) : Session :=
  let (interprocedural, events) := InterproceduralGraph.build s.store config
  { s with interprocedural, trace := s.trace ++ events }

def makeCallGraph (s : Session) : Session :=
  { s with callGraph := .ofInterprocedural s.interprocedural }

def appendCallGraph (s : Session) : Nat × Session :=
  let (count, callGraph) := s.callGraph.append (.ofInterprocedural s.interprocedural)
  (count, { s with callGraph })

def postDominators (s : Session) (g : FlowGraph) (anchor : NodeId) : NodeSet × Session :=
  let (set, dominators) := s.dominators.postDominators g anchor
  (set, { s with dominators })

end Session

end ProgramFlow
