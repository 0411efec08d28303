import ProgramFlow.Codec.Reference
import ProgramFlow.Script

/-! The document form of scripts. References are given in short: the class, the name and what
differs from the usual; the qualified name is computed unless it is given too. -/
namespace ProgramFlow

namespace Modifiers

def ofBits? (j : Json) : Option Modifiers :=
  (j.natBelow? 0x10000).map fun n => ⟨n.toUInt16⟩

end Modifiers

namespace Span

/-- A span given as its four numbers, or as a line and two columns. -/
def ofNumbers? (j : Json) : Option Span :=
  match Json.list? Json.uint32? j with
  | some [startLine, startCol, endLine, endCol] => some ⟨startLine, startCol, endLine, endCol⟩
  | some [line, startCol, endCol] => some (onLine line startCol endCol)
  | _ => none

end Span

namespace MethodRef

def ofShort? (j : Json) : Option MethodRef := do
  let declaringClass ← j.need "class" Json.str?
  let name ← j.need "name" Json.str?
  let parameterTypes ← j.getOr "params" [] (Json.list? Json.str?)
  let returnType ← j.getOr "return" "void" Json.str?
  let r := of declaringClass name parameterTypes returnType
  let modifiers ← j.getOr "modifiers" r.modifiers Modifiers.ofBits?
  let qualifiedName ← j.getOr "qualified_name" r.qualifiedName Json.str?
  return { r with modifiers, qualifiedName }

end MethodRef

namespace FieldRef

def ofShort? (j : Json) : Option FieldRef := do
  let declaringClass ← j.need "class" Json.str?
  let name ← j.need "name" Json.str?
  let typeName ← j.getOr "type" "int" Json.str?
  let r := of declaringClass name typeName
  let modifiers ← j.getOr "modifiers" r.modifiers Modifiers.ofBits?
  let qualifiedName ← j.getOr "qualified_name" r.qualifiedName Json.str?
  return { r with modifiers, qualifiedName }

end FieldRef

namespace LocalRef

def ofShort? (j : Json) : Option LocalRef := do
  let declaringClass ← j.need "class" Json.str?
  let declaringMethod ← j.need "method" Json.str?
  let name ← j.need "name" Json.str?
  let typeName ← j.getOr "type" "int" Json.str?
  let isParameter ← j.getOr "parameter" false Json.bool?
  let r := of declaringClass declaringMethod name typeName
  let modifiers ← j.getOr "modifiers" r.modifiers Modifiers.ofBits?
  let qualifiedName ← j.getOr "qualified_name" r.qualifiedName Json.str?
  return { r with modifiers, qualifiedName, isParameter }

end LocalRef

namespace Reference

def ofShort? (j : Json) : Option Reference := do
  match ← j.need "ref" Json.str? with
  | "field" => return .field (← FieldRef.ofShort? j)
  | "local" => return .localVariable (← LocalRef.ofShort? j)
  | "method" => return .method (← MethodRef.ofShort? j)
  | _ => none

end Reference

namespace DefUse

def ofShort? (j : Json) : Option DefUse := do
  let defs ← j.getOr "defs" [] (Json.list? Reference.ofShort?)
  let uses ← j.getOr "uses" [] (Json.list? Reference.ofShort?)
  return ofLists defs uses

end DefUse

namespace Script

namespace NodeName

def ofJson? : Json → Option NodeName
  | .str name => some (.named name)
  | j => (NodeId.ofJson? j).map .id

end NodeName

namespace Step

def connectOf? (j : Json) (kind : FlowKind) : Option (AssemblerOp NodeName) := do
  let source ← j.need "s" NodeName.ofJson?
  let target ← j.need "t" NodeName.ofJson?
  return .connect source target kind

def opOf? (j : Json) : Option (AssemblerOp NodeName) := do
  let defUse ← j.getOr "du" {} DefUse.ofShort?
  let name ← j.getOr "name" "" Json.str?
  let typeName ← j.getOr "type" "int" Json.str?
  let owner := j.need "call" NodeName.ofJson?
  match ← j.need "a" Json.str? with
  | "stmt" => return .statement (← j.need "kind" StatementKind.ofJson?) defUse
  | "call" =>
    let kind ← j.getOr "kind" .methodCall CallKind.ofJson?
    return .call kind (← j.need "callee" MethodRef.ofShort?) defUse
  | "merge" => return .merge
  | "dummy" => return .dummy
  | "receiver" => return .receiver (← owner) name typeName defUse
  | "actual_in" => return .actualIn (← owner) name typeName defUse
  | "actual_out" => return .actualOut (← owner) name typeName defUse
  | "actual_out_ret" => return .actualOutForReturn (← owner) typeName defUse
  | "formal_in" => return .formalIn name typeName defUse
  | "formal_out" => return .formalOut name typeName defUse
  | "formal_out_ret" => return .formalOutForReturn typeName defUse
  | "catch" => return .exceptionTarget defUse
  | "annotate" =>
    let node ← j.need "node" NodeName.ofJson?
    return .annotate node (← j.need "span" Span.ofNumbers?) (← j.getOr "text" "" Json.str?)
  | "edge" => connectOf? j (← j.need "kind" FlowKind.ofJson?)
  | "ft" => connectOf? j .fallThrough
  | "true" => connectOf? j .onTrue
  | "false" => connectOf? j .onFalse
  | "loop" =>
    let source ← j.need "s" NodeName.ofJson?
    let header ← j.need "t" NodeName.ofJson?
    return .loopback source header (← j.getOr "kind" .fallThrough FlowKind.ofJson?)
  | "seq" => return .sequence (← j.need "nodes" (Json.list? NodeName.ofJson?))
  | "peek" => return .peek
  | _ => none

def ofJson? (j : Json) : Option Step := do
  return ⟨← opOf? j, ← j.maybe "as" Json.str?⟩

end Step

namespace Form

def ofJson? (j : Json) : Option Form :=
  match j.str? with
  | some "method" => some .method
  | some "field" => some .field
  | some "class" => some .classType
  | _ => none

def declKind : Form → DeclKind
  | .method => .method
  | .field => .field
  | .classType => .classType

end Form

namespace Head

/-- Names that are not given are taken from each other, the qualified name from the
declaration. -/
def ofJson? (declared : String) (j : Json) : Option Head := do
  let form ← j.need "form" Form.ofJson?
  let qualifiedName ← j.getOr "qualified_name" declared Json.str?
  let name ← j.getOr "name" qualifiedName Json.str?
  return {
    form
    kind := ← j.getOr "kind" form.declKind DeclKind.ofJson?
    name
    signature := ← j.getOr "signature" name Json.str?
    qualifiedName
    returnType := ← j.getOr "return_type" "void" Json.str?
    asClass := ← j.getOr "finish" (decide (form = .classType)) fun f => f.str?.map (· == "class")
    steps := ← j.getOr "asm" [] (Json.list? Step.ofJson?) }

def unknown (declared : String) : Head where
  form := .method
  kind := .method
  name := declared
  signature := declared
  qualifiedName := declared
  asClass := false

end Head

namespace Member

def ofJson? (j : Json) : Option Member := do
  return ⟨← j.need "decl" Json.str?, ← j.getOr "reuse" false Json.bool?⟩

end Member

def failureOf? (declared : String) (j : Json) : Option CfgError := do
  match ← j.need "kind" Json.str? with
  | "resolution" =>
    return .resolution (← j.getOr "name" declared Json.str?) (← j.need "text" Json.str?)
  | "build" =>
    return .build (← j.getOr "name" declared Json.str?) (.reported (← j.need "text" Json.str?))
  | "limit" => return .limit declared (← j.need "nodes" Json.nat64?) (← j.need "max" Json.nat64?)
  | "config" =>
    return .config (.unsupportedVersion (← j.need "found" Json.nat32?)
      (← j.need "supported" (Json.list? Json.nat32?)))
  | _ => none

namespace Spec

def ofJson? (declared : String) (j : Json) : Option Spec := do
  return {
    head := ← if (j.get? "form").isSome then Head.ofJson? declared j else some (.unknown declared)
    failure := ← j.maybe "fail" (failureOf? declared)
    members := ← j.getOr "members" [] (Json.list? Member.ofJson?)
    blocks := ← j.getOr "blocks" false Json.bool? }

end Spec

namespace Catalog

def ofJson? : Json → Option Catalog
  | .obj fields => fields.foldlM
    (fun catalog (name, j) => (Spec.ofJson? name j).map (NameMap.insert catalog name)) NameMap.empty
  | _ => none

end Catalog

end Script

end ProgramFlow
