import ProgramFlow.Codec.Node
import ProgramFlow.FlowGraph

/-! The document form of the conditions a walk stops at. -/
namespace ProgramFlow

namespace FlowGraph

def nodeOf? (g : FlowGraph) : Json → Option NodeId
  | .str "start" => some g.start
  | .str "end" => some g.finish
  | j => NodeId.ofJson? j

end FlowGraph

namespace Node

def condition? : String → Option (Node → Bool)
  | "none" => some fun _ => false
  | "all" => some fun _ => true
  | "entry" => some isEntry
  | "exit" => some isExit
  | "call" => some isCall
  | "parameter" => some isParameter
  | "merge" => some isMerge
  | "dummy" => some isDummy
  | _ => none

def conditionOn? (g : FlowGraph) (name : String) (argument : Json) : Option (Node → Bool) :=
  match name with
  | "ids" => do
    let ids ← Json.list? g.nodeOf? argument
    return fun n => n.id ∈ ids
  | "kind" => do
    let kind ← argument.str?
    return fun n => n.kind.text == kind
  | "statement" => do
    let kind ← StatementKind.ofJson? argument
    return fun n => n.isStatement kind
  | "defines" => do
    let name ← argument.str?
    return fun n => n.defUse?.any (·.defines name)
  | "uses" => do
    let name ← argument.str?
    return fun n => n.defUse?.any (·.usesVariable name)
  | _ => none

def conditionOfJson? (g : FlowGraph) : Json → Option (Node → Bool)
  | .str name => condition? name
  | .obj [(name, argument)] => conditionOn? g name argument
  | _ => none

end Node

end ProgramFlow
