import ProgramFlow.Codec.Reference
import ProgramFlow.Node

/-! The document form of nodes and edges. A node is written without its link to a dependence
graph and is given a new one when it is read. -/
namespace ProgramFlow

namespace BlockId

def toJson (id : BlockId) : Json := .ofNat id.val

def ofJson? (j : Json) : Option BlockId := j.nat32?.map BlockId.mk

end BlockId

namespace MethodEntry

def toJson (m : MethodEntry) : Json :=
  .obj [("return_type", .str m.returnType), ("formal_ins", .ofList NodeId.toJson m.formalIns),
    ("formal_outs", .ofList NodeId.toJson m.formalOuts),
    ("formal_out_for_return", .ofOption NodeId.toJson m.formalOutForReturn),
    ("exceptions", .ofList NodeId.toJson m.exceptions)]

def ofJson? (j : Json) : Option MethodEntry := do
  let [returnType, formalIns, formalOuts, formalOutForReturn, exceptions] ←
    j.record? ["return_type", "formal_ins", "formal_outs", "formal_out_for_return",
      "exceptions"] | none
  return {
    returnType := ← Json.required Json.str? returnType
    formalIns := ← Json.required (Json.list? NodeId.ofJson?) formalIns
    formalOuts := ← Json.required (Json.list? NodeId.ofJson?) formalOuts
    formalOutForReturn := ← Json.optional NodeId.ofJson? formalOutForReturn
    exceptions := ← Json.required (Json.list? NodeId.ofJson?) exceptions }

end MethodEntry

namespace ClassEntry

def toJson (c : ClassEntry) : Json := .obj [("members", .ofList Json.str c.members)]

def ofJson? (j : Json) : Option ClassEntry := do
  let [members] ← j.record? ["members"] | none
  return { members := ← Json.required (Json.list? Json.str?) members }

end ClassEntry

namespace EntryDetail

def toJson : EntryDetail → Json
  | .method m => .variant "Method" m.toJson
  | .field => .str "Field"
  | .classType c => .variant "Class" c.toJson

def ofJson? (j : Json) : Option EntryDetail :=
  match j.variant? with
  | some ("Method", some payload) => (MethodEntry.ofJson? payload).map .method
  | some ("Class", some payload) => (ClassEntry.ofJson? payload).map .classType
  | _ => if j.tag? = some "Field" then some .field else none

end EntryDetail

namespace Entry

def toJson (e : Entry) : Json :=
  .obj [("kind", e.kind.toJson), ("name", .str e.name), ("signature", .str e.signature),
    ("qualified_name", .str e.qualifiedName), ("detail", e.detail.toJson)]

def ofJson? (j : Json) : Option Entry := do
  let [kind, name, signature, qualifiedName, detail] ←
    j.record? ["kind", "name", "signature", "qualified_name", "detail"] | none
  return {
    kind := ← Json.required DeclKind.ofJson? kind
    name := ← Json.required Json.str? name
    signature := ← Json.required Json.str? signature
    qualifiedName := ← Json.required Json.str? qualifiedName
    detail := ← Json.required EntryDetail.ofJson? detail }

end Entry

namespace Exit

def toJson (e : Exit) : Json :=
  .obj [("kind", e.kind.toJson), ("qualified_name", .str e.qualifiedName)]

def ofJson? (j : Json) : Option Exit := do
  let [kind, qualifiedName] ← j.record? ["kind", "qualified_name"] | none
  return {
    kind := ← Json.required DeclKind.ofJson? kind
    qualifiedName := ← Json.required Json.str? qualifiedName }

end Exit

namespace Statement

def toJson (s : Statement) : Json :=
  .obj [("kind", s.kind.toJson), ("def_use", s.defUse.toJson)]

def ofJson? (j : Json) : Option Statement := do
  let [kind, defUse] ← j.record? ["kind", "def_use"] | none
  return {
    kind := ← Json.required StatementKind.ofJson? kind
    defUse := ← Json.required DefUse.ofJson? defUse }

end Statement

namespace Call

def toJson (c : Call) : Json :=
  .obj [("kind", c.kind.toJson), ("callee", c.callee.toJson),
    ("receiver", .ofOption NodeId.toJson c.receiver),
    ("actual_ins", .ofList NodeId.toJson c.actualIns),
    ("actual_outs", .ofList NodeId.toJson c.actualOuts),
    ("actual_out_for_return", .ofOption NodeId.toJson c.actualOutForReturn),
    ("def_use", c.defUse.toJson)]

def ofJson? (j : Json) : Option Call := do
  let [kind, callee, receiver, actualIns, actualOuts, actualOutForReturn, defUse] ←
    j.record? ["kind", "callee", "receiver", "actual_ins", "actual_outs",
      "actual_out_for_return", "def_use"] | none
  return {
    kind := ← Json.required CallKind.ofJson? kind
    callee := ← Json.required MethodRef.ofJson? callee
    receiver := ← Json.optional NodeId.ofJson? receiver
    actualIns := ← Json.required (Json.list? NodeId.ofJson?) actualIns
    actualOuts := ← Json.required (Json.list? NodeId.ofJson?) actualOuts
    actualOutForReturn := ← Json.optional NodeId.ofJson? actualOutForReturn
    defUse := ← Json.required DefUse.ofJson? defUse }

end Call

namespace Parameter

def toJson (p : Parameter) : Json :=
  .obj [("kind", p.kind.toJson), ("ordinal", .ofNat p.ordinal), ("name", .str p.name),
    ("type_name", .str p.typeName), ("for_return", .bool p.forReturn),
    ("owner", p.owner.toJson), ("def_use", p.defUse.toJson)]

def ofJson? (j : Json) : Option Parameter := do
  let [kind, ordinal, name, typeName, forReturn, owner, defUse] ←
    j.record? ["kind", "ordinal", "name", "type_name", "for_return", "owner", "def_use"] | none
  return {
    kind := ← Json.required ParameterKind.ofJson? kind
    ordinal := ← Json.required Json.nat64? ordinal
    name := ← Json.required Json.str? name
    typeName := ← Json.required Json.str? typeName
    forReturn := ← Json.required Json.bool? forReturn
    owner := ← Json.required NodeId.ofJson? owner
    defUse := ← Json.required DefUse.ofJson? defUse }

end Parameter

namespace NodeData

def toJson : NodeData → Json
  | .entry e => .variant "Entry" e.toJson
  | .exit e => .variant "Exit" e.toJson
  | .statement s => .variant "Statement" s.toJson
  | .call c => .variant "Call" c.toJson
  | .parameter p => .variant "Parameter" p.toJson
  | .merge => .str "Merge"
  | .dummy => .str "Dummy"

def ofJson? (j : Json) : Option NodeData :=
  match j.variant? with
  | some ("Entry", some payload) => (Entry.ofJson? payload).map .entry
  | some ("Exit", some payload) => (Exit.ofJson? payload).map .exit
  | some ("Statement", some payload) => (Statement.ofJson? payload).map .statement
  | some ("Call", some payload) => (Call.ofJson? payload).map .call
  | some ("Parameter", some payload) => (Parameter.ofJson? payload).map .parameter
  | _ =>
    match j.tag? with
    | some "Merge" => some .merge
    | some "Dummy" => some .dummy
    | _ => none

end NodeData

namespace Node

def toJson (n : Node) : Json :=
  .obj [("id", n.id.toJson), ("data", n.data.toJson), ("span", .ofOption Span.toJson n.span),
    ("label", .str n.label), ("block", .ofOption BlockId.toJson n.block)]

def ofJson? (link : LinkId) (j : Json) : Option Node := do
  let [id, data, span, label, block] ←
    j.record? ["id", "data", "span", "label", "block"] | none
  return {
    id := ← Json.required NodeId.ofJson? id
    data := ← Json.required NodeData.ofJson? data
    span := ← Json.optional Span.ofJson? span
    label := ← Json.required Json.str? label
    block := ← Json.optional BlockId.ofJson? block
    link := link }

end Node

namespace Flow

def toJson (e : Flow) : Json :=
  .obj [("source", e.source.toJson), ("target", e.target.toJson), ("kind", e.kind.toJson),
    ("loopback", .ofOption NodeId.toJson e.loopback)]

def ofJson? (j : Json) : Option Flow := do
  let [source, target, kind, loopback] ←
    j.record? ["source", "target", "kind", "loopback"] | none
  return {
    source := ← Json.required NodeId.ofJson? source
    target := ← Json.required NodeId.ofJson? target
    kind := ← Json.required FlowKind.ofJson? kind
    loopback := ← Json.optional NodeId.ofJson? loopback }

end Flow

end ProgramFlow
