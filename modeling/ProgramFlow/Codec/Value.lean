import ProgramFlow.Json
import ProgramFlow.Kind
import ProgramFlow.Modifiers
import ProgramFlow.NodeId
import ProgramFlow.Span

/-! The document form of small values. Identities are numbers of 32 bits, kinds are given by
name, modifiers by their text. -/
namespace ProgramFlow

namespace NodeId

def toJson (id : NodeId) : Json := .ofNat id.val

def ofJson? (j : Json) : Option NodeId := j.nat32?.map NodeId.mk

end NodeId

namespace Location

def toJson (l : Location) : Json :=
  .obj [("line", .ofNat l.line.toNat), ("column", .ofNat l.column.toNat)]

end Location

namespace Span

def toJson (s : Span) : Json :=
  .obj [("start_line", .ofNat s.startLine.toNat), ("start_col", .ofNat s.startCol.toNat),
    ("end_line", .ofNat s.endLine.toNat), ("end_col", .ofNat s.endCol.toNat)]

def ofJson? (j : Json) : Option Span := do
  let [startLine, startCol, endLine, endCol] ←
    j.record? ["start_line", "start_col", "end_line", "end_col"] | none
  return {
    startLine := ← Json.required Json.uint32? startLine
    startCol := ← Json.required Json.uint32? startCol
    endLine := ← Json.required Json.uint32? endLine
    endCol := ← Json.required Json.uint32? endCol }

end Span

namespace Modifiers

def toJson (m : Modifiers) : Json := .str m.text

def ofJson? (j : Json) : Option Modifiers := j.str?.bind ofText?

end Modifiers

namespace DeclKind

def toJson (k : DeclKind) : Json := .str k.name

def ofJson? (j : Json) : Option DeclKind := j.tag?.bind ofName?

end DeclKind

namespace StatementKind

def toJson (k : StatementKind) : Json := .str k.name

def ofJson? (j : Json) : Option StatementKind := j.tag?.bind ofName?

end StatementKind

namespace CallKind

def toJson (k : CallKind) : Json := .str k.name

def ofJson? (j : Json) : Option CallKind := j.tag?.bind ofName?

end CallKind

namespace ParameterKind

def toJson (k : ParameterKind) : Json := .str k.name

def ofJson? (j : Json) : Option ParameterKind := j.tag?.bind ofName?

end ParameterKind

namespace FlowKind

def toJson (k : FlowKind) : Json := .str k.name

def ofJson? (j : Json) : Option FlowKind := j.tag?.bind ofName?

end FlowKind

namespace NodeKind

def toJson : NodeKind → Json
  | .entry k => .variant "Entry" k.toJson
  | .exit k => .variant "Exit" k.toJson
  | .statement k => .variant "Statement" k.toJson
  | .call k => .variant "Call" k.toJson
  | .parameter k => .variant "Parameter" k.toJson
  | .merge => .str "Merge"
  | .dummy => .str "Dummy"

def ofJson? (j : Json) : Option NodeKind :=
  match j.variant? with
  | some ("Entry", some payload) => (DeclKind.ofJson? payload).map .entry
  | some ("Exit", some payload) => (DeclKind.ofJson? payload).map .exit
  | some ("Statement", some payload) => (StatementKind.ofJson? payload).map .statement
  | some ("Call", some payload) => (CallKind.ofJson? payload).map .call
  | some ("Parameter", some payload) => (ParameterKind.ofJson? payload).map .parameter
  | _ =>
    match j.tag? with
    | some "Merge" => some .merge
    | some "Dummy" => some .dummy
    | _ => none

end NodeKind

end ProgramFlow
