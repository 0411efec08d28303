import ProgramFlow.DefUse
import ProgramFlow.Graph
import ProgramFlow.Kind
import ProgramFlow.Span
import ProgramFlow.Supply

/-! Nodes and edges of control-flow graphs. The identity of a node is its `NodeId`; the identity
of an edge is its two ends and its kind, so a back-edge mark does not tell edges apart. -/
namespace ProgramFlow

structure BlockId where
  val : Nat
  deriving DecidableEq, Inhabited, Repr

/-- What the entry node of a method knows about its parameters, each list in order of
position. -/
structure MethodEntry where
  returnType : String
  formalIns : List NodeId := []
  formalOuts : List NodeId := []
  formalOutForReturn : Option NodeId := none
  exceptions : List NodeId := []
  deriving DecidableEq, Inhabited, Repr

def MethodEntry.isVoid (m : MethodEntry) : Bool := m.returnType == "void" || m.returnType == ""

structure ClassEntry where
  members : List String := []
  deriving DecidableEq, Inhabited, Repr

inductive EntryDetail where
  | method (entry : MethodEntry)
  | field
  | classType (entry : ClassEntry)
  deriving DecidableEq, Inhabited, Repr

structure Entry where
  kind : DeclKind
  name : String
  signature : String
  qualifiedName : String
  detail : EntryDetail
  deriving DecidableEq, Inhabited, Repr

namespace Entry

def method? (e : Entry) : Option MethodEntry :=
  match e.detail with
  | .method m => some m
  | _ => none

def classType? (e : Entry) : Option ClassEntry :=
  match e.detail with
  | .classType c => some c
  | _ => none

end Entry

structure Exit where
  kind : DeclKind
  qualifiedName : String
  deriving DecidableEq, Inhabited, Repr

structure Statement where
  kind : StatementKind
  defUse : DefUse
  deriving DecidableEq, Inhabited, Repr

structure Call where
  kind : CallKind
  callee : MethodRef
  receiver : Option NodeId := none
  actualIns : List NodeId := []
  actualOuts : List NodeId := []
  actualOutForReturn : Option NodeId := none
  defUse : DefUse := {}
  deriving DecidableEq, Inhabited, Repr

/-- A parameter node; its owner is a call for actuals, an entry for formals. -/
structure Parameter where
  kind : ParameterKind
  ordinal : Nat
  name : String
  typeName : String
  forReturn : Bool
  owner : NodeId
  defUse : DefUse
  deriving DecidableEq, Inhabited, Repr

inductive NodeData where
  | entry (entry : Entry)
  | exit (exit : Exit)
  | statement (statement : Statement)
  | call (call : Call)
  | parameter (parameter : Parameter)
  | merge
  | dummy
  deriving DecidableEq, Inhabited, Repr

namespace NodeData

def kind : NodeData → NodeKind
  | .entry e => .entry e.kind
  | .exit e => .exit e.kind
  | .statement s => .statement s.kind
  | .call c => .call c.kind
  | .parameter p => .parameter p.kind
  | .merge => .merge
  | .dummy => .dummy

end NodeData

structure Node where
  id : NodeId
  data : NodeData
  span : Option Span := none
  label : String := ""
  block : Option BlockId := none
  link : LinkId
  deriving DecidableEq, Inhabited, Repr

instance : Vertex Node := ⟨Node.id⟩

namespace Node

def kind (n : Node) : NodeKind := n.data.kind

def entry? (n : Node) : Option Entry :=
  match n.data with
  | .entry e => some e
  | _ => none

def methodEntry? (n : Node) : Option MethodEntry := n.entry?.bind Entry.method?

def classEntry? (n : Node) : Option ClassEntry := n.entry?.bind Entry.classType?

def statement? (n : Node) : Option Statement :=
  match n.data with
  | .statement s => some s
  | _ => none

def call? (n : Node) : Option Call :=
  match n.data with
  | .call c => some c
  | _ => none

def parameter? (n : Node) : Option Parameter :=
  match n.data with
  | .parameter p => some p
  | _ => none

def defUse? (n : Node) : Option DefUse :=
  match n.data with
  | .statement s => some s.defUse
  | .call c => some c.defUse
  | .parameter p => some p.defUse
  | _ => none

/-- Only entry and exit nodes carry the name of their declaration. -/
def qualifiedName? (n : Node) : Option String :=
  match n.data with
  | .entry e => some e.qualifiedName
  | .exit e => some e.qualifiedName
  | _ => none

def isEntry (n : Node) : Bool := n.entry?.isSome

def isExit (n : Node) : Bool :=
  match n.data with
  | .exit _ => true
  | _ => false

def isCall (n : Node) : Bool := n.call?.isSome

def isParameter (n : Node) : Bool := n.parameter?.isSome

def isMerge (n : Node) : Bool := n.data = .merge

def isDummy (n : Node) : Bool := n.data = .dummy

def isStatement (n : Node) (kind : StatementKind) : Bool := n.kind = .statement kind

end Node

/-- An edge of a control-flow graph. A back edge names the loop header it returns to. -/
structure Flow where
  source : NodeId
  target : NodeId
  kind : FlowKind
  loopback : Option NodeId := none
  deriving DecidableEq, Inhabited, Repr

instance : Arc Flow FlowKind := ⟨Flow.source, Flow.target, Flow.kind⟩

namespace Flow

def isLoopback (e : Flow) : Bool := e.loopback.isSome

def isControl (e : Flow) : Bool := e.kind.isControl

def sameEdge (a b : Flow) : Bool := Arc.key a = Arc.key b

def withLoopback (e : Flow) (header : NodeId) : Flow := { e with loopback := some header }

end Flow

end ProgramFlow
