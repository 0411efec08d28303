import ProgramFlow.Cfg
import ProgramFlow.Codec.Node

/-! The document form of flow graphs and of graphs with blocks. Reading adds the nodes and then
the edges that are listed, so a second node of an identity, a second edge of a key and an edge
without its ends are left out. -/
namespace ProgramFlow

namespace FlowGraph

def toJson (g : FlowGraph) : Json :=
  .obj [("qualified_name", .str g.qualifiedName), ("start", g.start.toJson),
    ("end", g.finish.toJson), ("nodes", .ofList Node.toJson g.nodes),
    ("edges", .ofList Flow.toJson g.edges)]

/-- Reads nodes and gives each a new link. -/
def readNodes? (supply : Supply) : List Json → Option (List Node × Supply)
  | [] => some ([], supply)
  | j :: rest => do
    let (link, supply) := supply.newLink
    let n ← Node.ofJson? link j
    let (others, supply) ← readNodes? supply rest
    return (n :: others, supply)

def ofJson? (supply : Supply) (j : Json) : Option (FlowGraph × Supply) := do
  let [qualifiedName, start, finish, nodes, edges] ←
    j.record? ["qualified_name", "start", "end", "nodes", "edges"] | none
  let qualifiedName ← Json.required Json.str? qualifiedName
  let start ← Json.required NodeId.ofJson? start
  let finish ← Json.required NodeId.ofJson? finish
  let items ← Json.required (Json.list? some) nodes
  let (nodes, supply) ← readNodes? supply items
  let edges ← Json.required (Json.list? Flow.ofJson?) edges
  return ({ qualifiedName, start, finish, graph := Graph.ofLists nodes edges }, supply)

end FlowGraph

namespace BasicBlock

def toJson (b : BasicBlock) : Json :=
  .obj [("id", b.id.toJson), ("leader", b.leader.toJson),
    ("nodes", .ofList NodeId.toJson b.nodes)]

def ofJson? (j : Json) : Option BasicBlock := do
  let [id, leader, nodes] ← j.record? ["id", "leader", "nodes"] | none
  return {
    id := ← Json.required BlockId.ofJson? id
    leader := ← Json.required NodeId.ofJson? leader
    nodes := ← Json.required (Json.list? NodeId.ofJson?) nodes }

end BasicBlock

namespace Cfg

def toJson (c : Cfg) : Json :=
  .obj [("flow", c.flow.toJson), ("blocks", .ofList BasicBlock.toJson c.blocks)]

def ofJson? (supply : Supply) (j : Json) : Option (Cfg × Supply) := do
  let [flow, blocks] ← j.record? ["flow", "blocks"] | none
  let (flow, supply) ← (← flow) |> FlowGraph.ofJson? supply
  let blocks ← Json.required (Json.list? BasicBlock.ofJson?) blocks
  return (⟨flow, blocks⟩, supply)

end Cfg

end ProgramFlow
