import ProgramFlow.Yaml.Cursor

/-! The gaps between the words of a scalar that runs over several lines. -/
namespace ProgramFlow.Yaml

/-- Blanks on one line, or line ends with the blanks around them dropped. Of the last line, the
number of blanks in front is kept. -/
structure Gap where
  blanks : List Char
  breaks : List Char
  column : Nat

namespace Gap

def broken (g : Gap) : Bool := !g.breaks.isEmpty

/-- Folding: a single line feed becomes a blank; of several the first is dropped. Other line ends
stay. -/
def text (g : Gap) : List Char :=
  match g.breaks with
  | [] => g.blanks
  | '\n' :: [] => [' ']
  | '\n' :: more => more
  | breaks => breaks

def beforeMarker (g : Gap) (rest : List Char) : Bool := g.broken && g.column = 0 && atMarker rest

end Gap

/-- Line ends and the blanks between them, from some column on. A tab left of the least column
is refused. -/
def breaksFrom? (least : Nat) : Nat → List Char → Option (List Char × Nat × List Char)
  | column, [] => some ([], column, [])
  | _, '\r' :: '\n' :: rest =>
    (breaksFrom? least 0 rest).map fun (breaks, column, left) => ('\n' :: breaks, column, left)
  | column, c :: rest =>
    if c = ' ' then breaksFrom? least (column + 1) rest
    else if c = '\t' then if column < least then none else breaksFrom? least (column + 1) rest
    else if isBreak c then
      (breaksFrom? least 0 rest).map fun (breaks, column, left) =>
        (breakText [c] ++ breaks, column, left)
    else some ([], column, c :: rest)

def gap? (least : Nat) (cs : List Char) : Option (Gap × List Char) :=
  let blanks := cs.takeWhile isBlank
  let rest := cs.dropWhile isBlank
  match rest with
  | [] => some (⟨blanks, [], 0⟩, [])
  | c :: left =>
    if isBreak c then
      (breaksFrom? least 0 (c :: left)).map fun (breaks, column, left) =>
        (⟨[], breaks, column⟩, left)
    else some (⟨blanks, [], 0⟩, c :: left)

end ProgramFlow.Yaml
