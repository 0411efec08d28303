import ProgramFlow.Codec.Value
import ProgramFlow.DefUse

/-! The document form of references and of definitions and uses. A list of references is read as
it is, repeated targets included. -/
namespace ProgramFlow

namespace FieldRef

def toJson (r : FieldRef) : Json :=
  .obj [("name", .str r.name), ("qualified_name", .str r.qualifiedName),
    ("type_name", .str r.typeName), ("declaring_class", .str r.declaringClass),
    ("modifiers", r.modifiers.toJson)]

def ofJson? (j : Json) : Option FieldRef := do
  let [name, qualifiedName, typeName, declaringClass, modifiers] ←
    j.record? ["name", "qualified_name", "type_name", "declaring_class", "modifiers"] | none
  return {
    name := ← Json.required Json.str? name
    qualifiedName := ← Json.required Json.str? qualifiedName
    typeName := ← Json.required Json.str? typeName
    declaringClass := ← Json.required Json.str? declaringClass
    modifiers := ← Json.required Modifiers.ofJson? modifiers }

end FieldRef

namespace LocalRef

def toJson (r : LocalRef) : Json :=
  .obj [("name", .str r.name), ("qualified_name", .str r.qualifiedName),
    ("type_name", .str r.typeName), ("declaring_class", .str r.declaringClass),
    ("declaring_method", .str r.declaringMethod), ("modifiers", r.modifiers.toJson),
    ("is_parameter", .bool r.isParameter)]

def ofJson? (j : Json) : Option LocalRef := do
  let [name, qualifiedName, typeName, declaringClass, declaringMethod, modifiers, isParameter] ←
    j.record? ["name", "qualified_name", "type_name", "declaring_class", "declaring_method",
      "modifiers", "is_parameter"] | none
  return {
    name := ← Json.required Json.str? name
    qualifiedName := ← Json.required Json.str? qualifiedName
    typeName := ← Json.required Json.str? typeName
    declaringClass := ← Json.required Json.str? declaringClass
    declaringMethod := ← Json.required Json.str? declaringMethod
    modifiers := ← Json.required Modifiers.ofJson? modifiers
    isParameter := ← Json.required Json.bool? isParameter }

end LocalRef

namespace MethodRef

def toJson (r : MethodRef) : Json :=
  .obj [("name", .str r.name), ("qualified_name", .str r.qualifiedName),
    ("return_type", .str r.returnType), ("declaring_class", .str r.declaringClass),
    ("parameter_types", .ofList Json.str r.parameterTypes), ("modifiers", r.modifiers.toJson)]

def ofJson? (j : Json) : Option MethodRef := do
  let [name, qualifiedName, returnType, declaringClass, parameterTypes, modifiers] ←
    j.record? ["name", "qualified_name", "return_type", "declaring_class", "parameter_types",
      "modifiers"] | none
  return {
    name := ← Json.required Json.str? name
    qualifiedName := ← Json.required Json.str? qualifiedName
    returnType := ← Json.required Json.str? returnType
    declaringClass := ← Json.required Json.str? declaringClass
    parameterTypes := ← Json.required (Json.list? Json.str?) parameterTypes
    modifiers := ← Json.required Modifiers.ofJson? modifiers }

end MethodRef

def ReferenceKind.name : ReferenceKind → String
  | .field => "Field"
  | .localVariable => "Local"
  | .method => "Method"

namespace Reference

def toJson : Reference → Json
  | .field r => .variant "Field" r.toJson
  | .localVariable r => .variant "Local" r.toJson
  | .method r => .variant "Method" r.toJson

def ofJson? (j : Json) : Option Reference :=
  match j.variant? with
  | some ("Field", some payload) => (FieldRef.ofJson? payload).map .field
  | some ("Local", some payload) => (LocalRef.ofJson? payload).map .localVariable
  | some ("Method", some payload) => (MethodRef.ofJson? payload).map .method
  | _ => none

end Reference

namespace ReferenceList

def toJson (l : ReferenceList) : Json := .ofList Reference.toJson l.items

def ofJson? (j : Json) : Option ReferenceList :=
  (Json.list? Reference.ofJson? j).map ReferenceList.mk

end ReferenceList

namespace DefUse

def toJson (d : DefUse) : Json := .obj [("defs", d.defs.toJson), ("uses", d.uses.toJson)]

def ofJson? (j : Json) : Option DefUse := do
  let [defs, uses] ← j.record? ["defs", "uses"] | none
  return {
    defs := ← Json.required ReferenceList.ofJson? defs
    uses := ← Json.required ReferenceList.ofJson? uses }

end DefUse

end ProgramFlow
