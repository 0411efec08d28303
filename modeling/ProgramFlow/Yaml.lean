/-! YAML documents. A scalar keeps how it was written, because a number or truth value may not be
quoted. An anchor numbers the node it stands before; an alias names a node by that number. Nothing
at all counts as the empty plain scalar. -/
namespace ProgramFlow

namespace Yaml

inductive Style where
  | plain
  | singleQuoted
  | doubleQuoted
  | literal
  | folded
  deriving DecidableEq, Repr

abbrev Tag := List Nat

def Tag.ofString (text : String) : Tag := text.toList.map Char.toNat

end Yaml

inductive Yaml where
  | scalar (style : Yaml.Style) (tag : Option Yaml.Tag) (text : List Char)
  | seq (items : List Yaml)
  | map (entries : List (Yaml × Yaml))
  | alias (number : Nat)
  | anchored (number : Nat) (node : Yaml)
  deriving Inhabited

namespace Yaml

def nothing : Yaml := .scalar .plain none []

def scalar? : Yaml → Option (List Char)
  | .scalar _ _ text => some text
  | _ => none

mutual

/-- The anchored nodes in the order in which they begin. -/
def anchors : Yaml → List (Nat × Yaml)
  | .anchored number node => (number, node) :: node.anchors
  | .seq items => anchorsOfItems items
  | .map entries => anchorsOfEntries entries
  | _ => []

def anchorsOfItems : List Yaml → List (Nat × Yaml)
  | [] => []
  | item :: rest => item.anchors ++ anchorsOfItems rest

def anchorsOfEntries : List (Yaml × Yaml) → List (Nat × Yaml)
  | [] => []
  | (key, value) :: rest => key.anchors ++ value.anchors ++ anchorsOfEntries rest

end

/-- The node that a node stands for in a document with these anchors: behind an alias, the last
one that bears its number. -/
def follow (anchors : List (Nat × Yaml)) : Yaml → Yaml
  | .alias number =>
    match anchors.reverse.lookup number with
    | some node => node
    | none => nothing
  | .anchored _ node => node
  | node => node

end Yaml

end ProgramFlow
