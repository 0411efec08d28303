import ProgramFlow.Yaml.Tag

/-! Directives, the lines before a document that say how to read it. -/
namespace ProgramFlow.Yaml

inductive Directive where
  | version (major minor : Nat)
  | handle (handle : List Char) (start : Tag)
  deriving DecidableEq, Repr

/-- A version number has up to nine digits. -/
def versionNumber? (cs : List Char) : Option (Nat × List Char) :=
  let digits := cs.takeWhile Char.isDigit
  if digits.length ≤ 9 then
    (Text.ofDigits? 10 digits).map fun n => (n, cs.dropWhile Char.isDigit)
  else none

def versionDirective? (cs : List Char) : Option (Directive × List Char) :=
  match versionNumber? (cs.dropWhile isBlank) with
  | some (major, '.' :: rest) =>
    (versionNumber? rest).map fun (minor, left) => (.version major minor, left)
  | _ => none

def handleDirective? (cs : List Char) : Option (Directive × List Char) := do
  let (handle, rest) ← handle? (cs.dropWhile isBlank)
  if (handle = ['!'] || isClosedHandle handle) && rest.head?.any isBlank then
    let (start, left) ← uri? true (rest.dropWhile isBlank)
    if atGap left then return (.handle handle start, left) else none
  else none

def directive? (cs : List Char) : Option (Directive × List Char) := do
  let name := cs.takeWhile isWord
  let rest := cs.dropWhile isWord
  let (directive, left) ←
    if !atGap rest then none
    else if name = "YAML".toList then versionDirective? rest
    else if name = "TAG".toList then handleDirective? rest
    else none
  return (directive, ← nextLine? left)

end ProgramFlow.Yaml
