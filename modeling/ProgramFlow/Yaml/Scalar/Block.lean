import ProgramFlow.Yaml.Cursor

/-! Block scalars: lines behind a header, as deep as their first line or as the header says. -/
namespace ProgramFlow.Yaml

inductive Chomping where
  | strip
  | clip
  | keep
  deriving DecidableEq, Repr

def chomping : List Char → Option Chomping × List Char
  | '+' :: rest => (some .keep, rest)
  | '-' :: rest => (some .strip, rest)
  | rest => (none, rest)

/-- The digit of a depth at the start of a text; it may be missing but not zero. -/
def depth? : List Char → Option (Option Nat × List Char)
  | [] => some (none, [])
  | c :: rest =>
    if c = '0' then none
    else if c.isDigit then some (some (c.toNat - 48), rest)
    else some (none, c :: rest)

def blockHeader? (cs : List Char) : Option (Chomping × Option Nat × List Char) :=
  let (first, rest) := chomping cs
  match depth? rest with
  | none => none
  | some (depth, rest) =>
    let (last, rest) := if first.isNone && depth.isSome then chomping rest else (first, rest)
    (nextLine? rest).map fun left => (last.getD .clip, depth, left)

/-- The empty lines before a line of a block scalar, with the widest indentation seen, the column
of the line and its text. Blanks count as indentation up to the depth, or all of them if the depth
is not known yet. A tab among them is refused. -/
structure Margin where
  breaks : List Char
  widest : Nat
  column : Nat
  rest : List Char

def margin? (depth : Option Nat) : Nat → Nat → List Char → Option Margin
  | widest, column, [] => some ⟨[], max widest column, column, []⟩
  | widest, column, '\r' :: '\n' :: rest =>
    (margin? depth (max widest column) 0 rest).map fun m => { m with breaks := '\n' :: m.breaks }
  | widest, column, c :: rest =>
    let inside := depth.all fun d => column < d
    if c = ' ' && inside then margin? depth widest (column + 1) rest
    else if c = '\t' && inside then none
    else if isBreak c then
      (margin? depth (max widest column) 0 rest).map fun m =>
        { m with breaks := breakText [c] ++ m.breaks }
    else some ⟨[], max widest column, column, c :: rest⟩

structure BlockLines where
  text : List Char
  last : List Char
  trailing : List Char
  rest : List Char

/-- The lines as deep as the scalar. Folding joins two lines by a blank if both start without a
blank and no empty line is between them; of several line ends it drops the first. -/
def blockLines? (folded : Bool) (depth : Nat) (afterBlank : Bool) (last : List Char)
    (m : Margin) : Option BlockLines :=
  if m.column ≠ depth || m.rest.isEmpty then some ⟨[], last, m.breaks, m.rest⟩
  else
    let startsBlank := m.rest.head?.any isBlank
    let joint :=
      if folded && last = ['\n'] && !afterBlank && !startsBlank then
        if m.breaks.isEmpty then [' '] else []
      else last
    let left := dropLine m.rest
    match margin? (some depth) 0 0 (dropBreak left) with
    | none => none
    | some next =>
      if _ : next.rest.length < m.rest.length then
        (blockLines? folded depth startsBlank (breakText left) next).map fun more =>
          { more with
            text := joint ++ m.breaks ++ m.rest.takeWhile (fun c => !isBreak c) ++ more.text }
      else none
termination_by m.rest.length

/-- A block scalar behind its first mark, inside a collection at some column. Its depth counts from
that column; if the header names none, it is the widest indentation up to the first line, but
deeper than the collection. -/
def block? (folded : Bool) (outer : Option Nat) (cs : List Char) :
    Option (List Char × List Char) := do
  let (chomping, depth, rest) ← blockHeader? cs
  let depth := depth.map fun d => outer.getD 0 + d
  let m ← margin? depth 0 0 rest
  let least := match outer with
    | some column => column + 1
    | none => 1
  let lines ← blockLines? folded (depth.getD (max m.widest least)) false [] m
  let tail := match chomping with
    | .strip => []
    | .clip => lines.last
    | .keep => lines.last ++ lines.trailing
  return (lines.text ++ tail, lines.rest)

end ProgramFlow.Yaml
