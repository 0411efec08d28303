import ProgramFlow.CfgError
import ProgramFlow.ClassCfg

/-! Construction of the flow graph of one declaration. Every node made takes the next identity
of the supply. Parameter nodes and exception targets are registered with the call or entry that
owns them; edges are added only as asked for. An operation that fails changes nothing. -/
namespace ProgramFlow

structure Assembler where
  supply : Supply
  flow : FlowGraph

abbrev Assembled (α : Type) := Except CfgError α × Assembler

namespace Assembler

def start (a : Assembler) : NodeId := a.flow.start

def finish (a : Assembler) : NodeId := a.flow.finish

def add (a : Assembler) (data : NodeData) : NodeId × Assembler :=
  let (id, supply) := a.supply.newId
  let (link, supply) := supply.newLink
  (id, ⟨supply, (a.flow.addNode { id, data, link }).2⟩)

/-- Takes two identities for the start and the finish, in this order, and makes both nodes. -/
def openEntry (supply : Supply) (kind : DeclKind) (name signature qualifiedName : String)
    (detail : EntryDetail) : Assembler :=
  let (start, supply) := supply.newId
  let (finish, supply) := supply.newId
  let (startLink, supply) := supply.newLink
  let (finishLink, supply) := supply.newLink
  let flow : FlowGraph := { qualifiedName, start, finish }
  let entry : Node :=
    { id := start
      data := .entry { kind, name, signature, qualifiedName, detail }
      link := startLink }
  let exit : Node := { id := finish, data := .exit { kind, qualifiedName }, link := finishLink }
  ⟨supply, ((flow.addNode entry).2.addNode exit).2⟩

def method (supply : Supply) (kind : DeclKind)
    (name signature qualifiedName returnType : String) : Assembler :=
  openEntry supply kind name signature qualifiedName (.method { returnType })

def field (supply : Supply) (kind : DeclKind) (name qualifiedName : String) : Assembler :=
  openEntry supply kind name name qualifiedName .field

def classType (supply : Supply) (kind : DeclKind) (name qualifiedName : String) : Assembler :=
  openEntry supply kind name name qualifiedName (.classType {})

def annotate (a : Assembler) (id : NodeId) (span : Span) (label : String) : Bool × Assembler :=
  if a.flow.contains id then
    (true, { a with flow := a.flow.modifyNode id fun n => { n with span := some span, label } })
  else (false, a)

def statement (a : Assembler) (kind : StatementKind) (defUse : DefUse) : NodeId × Assembler :=
  a.add (.statement { kind, defUse })

def call (a : Assembler) (kind : CallKind) (callee : MethodRef) (defUse : DefUse) :
    NodeId × Assembler := a.add (.call { kind, callee, defUse })

def merge (a : Assembler) : NodeId × Assembler := a.add .merge

def dummy (a : Assembler) : NodeId × Assembler := a.add .dummy

def fault (a : Assembler) (f : BuildFault) : CfgError := .build a.flow.qualifiedName f

def callAt (a : Assembler) (id : NodeId) : Except CfgError Call :=
  match a.flow.node? id with
  | some n =>
    match n.data with
    | .call c => .ok c
    | _ => .error (a.fault (.notACall id))
  | none => .error (a.fault (.unknownNode id))

def methodEntry (a : Assembler) : Except CfgError MethodEntry :=
  match a.flow.methodEntry? with
  | some entry => .ok entry
  | none => .error (a.fault .noParameters)

def onCall (f : Call → Call) (n : Node) : Node :=
  match n.data with
  | .call c => { n with data := .call (f c) }
  | _ => n

def onMethodEntry (f : MethodEntry → MethodEntry) (n : Node) : Node :=
  match n.data with
  | .entry e =>
    match e.detail with
    | .method entry => { n with data := .entry { e with detail := .method (f entry) } }
    | _ => n
  | _ => n

def modifyCall (a : Assembler) (id : NodeId) (f : Call → Call) : Assembler :=
  { a with flow := a.flow.modifyNode id (onCall f) }

def modifyMethodEntry (a : Assembler) (f : MethodEntry → MethodEntry) : Assembler :=
  { a with flow := a.flow.modifyNode a.start (onMethodEntry f) }

/-- Notes a node with the call that owns it, which is looked up once more. -/
def noteAtCall (a : Assembler) (call id : NodeId) (f : Call → Call) : Assembled NodeId :=
  match a.callAt call with
  | .error e => (.error e, a)
  | .ok _ => (.ok id, a.modifyCall call f)

def noteAtEntry (a : Assembler) (id : NodeId) (f : MethodEntry → MethodEntry) :
    Assembled NodeId :=
  match a.methodEntry with
  | .error e => (.error e, a)
  | .ok _ => (.ok id, a.modifyMethodEntry f)

def returnName : String := "$ret"

/-- The receiver of a call; a later one takes the place of an earlier one. -/
def receiver (a : Assembler) (call : NodeId) (name typeName : String) (defUse : DefUse) :
    Assembled NodeId :=
  match a.callAt call with
  | .error e => (.error e, a)
  | .ok _ =>
    let (id, b) := a.add (.parameter
      ⟨.receiver, 0, name, typeName, false, call, defUse⟩)
    b.noteAtCall call id fun c => { c with receiver := some id }

def actualIn (a : Assembler) (call : NodeId) (name typeName : String) (defUse : DefUse) :
    Assembled NodeId :=
  match a.callAt call with
  | .error e => (.error e, a)
  | .ok c =>
    let (id, b) := a.add (.parameter
      ⟨.actualIn, c.actualIns.length, name, typeName, false, call, defUse⟩)
    b.noteAtCall call id fun c => { c with actualIns := c.actualIns ++ [id] }

def actualOut (a : Assembler) (call : NodeId) (name typeName : String) (defUse : DefUse) :
    Assembled NodeId :=
  match a.callAt call with
  | .error e => (.error e, a)
  | .ok c =>
    let (id, b) := a.add (.parameter
      ⟨.actualOut, c.actualOuts.length, name, typeName, false, call, defUse⟩)
    b.noteAtCall call id fun c => { c with actualOuts := c.actualOuts ++ [id] }

/-- The one actual-out for the value a call returns. -/
def actualOutForReturn (a : Assembler) (call : NodeId) (typeName : String) (defUse : DefUse) :
    Assembled NodeId :=
  match a.callAt call with
  | .error e => (.error e, a)
  | .ok c =>
    if c.actualOutForReturn.isSome then (.error (a.fault (.callReturnTaken call)), a)
    else
      let (id, b) := a.add (.parameter
        ⟨.actualOut, 0, returnName, typeName, true, call, defUse⟩)
      b.noteAtCall call id fun c => { c with actualOutForReturn := some id }

def formalIn (a : Assembler) (name typeName : String) (defUse : DefUse) : Assembled NodeId :=
  match a.methodEntry with
  | .error e => (.error e, a)
  | .ok entry =>
    let (id, b) := a.add (.parameter
      ⟨.formalIn, entry.formalIns.length, name, typeName, false, a.start, defUse⟩)
    b.noteAtEntry id fun m => { m with formalIns := m.formalIns ++ [id] }

def formalOut (a : Assembler) (name typeName : String) (defUse : DefUse) : Assembled NodeId :=
  match a.methodEntry with
  | .error e => (.error e, a)
  | .ok entry =>
    let (id, b) := a.add (.parameter
      ⟨.formalOut, entry.formalOuts.length, name, typeName, false, a.start, defUse⟩)
    b.noteAtEntry id fun m => { m with formalOuts := m.formalOuts ++ [id] }

def formalOutForReturn (a : Assembler) (typeName : String) (defUse : DefUse) :
    Assembled NodeId :=
  match a.methodEntry with
  | .error e => (.error e, a)
  | .ok entry =>
    if entry.formalOutForReturn.isSome then (.error (a.fault .methodReturnTaken), a)
    else
      let (id, b) := a.add (.parameter
        ⟨.formalOut, 0, returnName, typeName, true, a.start, defUse⟩)
      b.noteAtEntry id fun m => { m with formalOutForReturn := some id }

def exceptionTarget (a : Assembler) (defUse : DefUse) : Assembled NodeId :=
  match a.methodEntry with
  | .error e => (.error e, a)
  | .ok _ =>
    let (id, b) := a.statement .catchBlock defUse
    b.noteAtEntry id fun m => { m with exceptions := m.exceptions ++ [id] }

def addFlow (a : Assembler) (e : Flow) : Bool × Assembler :=
  let (added, flow) := a.flow.addEdge e
  (added, { a with flow })

def connect (a : Assembler) (source target : NodeId) (kind : FlowKind) : Bool × Assembler :=
  a.addFlow ⟨source, target, kind, none⟩

def loopback (a : Assembler) (source header : NodeId) (kind : FlowKind) : Bool × Assembler :=
  a.addFlow ⟨source, header, kind, some header⟩

/-- Chains nodes by fall-through edges; the count is that of the edges added. -/
def sequence (a : Assembler) : List NodeId → Nat × Assembler
  | first :: second :: rest =>
    let (added, a) := a.connect first second .fallThrough
    let (count, a) := a.sequence (second :: rest)
    (if added then count + 1 else count, a)
  | _ => (0, a)

def toCfg (a : Assembler) : Cfg := ⟨a.flow, []⟩

def toClass (a : Assembler) : ClassCfg := .ofFlow a.flow

end Assembler

end ProgramFlow
