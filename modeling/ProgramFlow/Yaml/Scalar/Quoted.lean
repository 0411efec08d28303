import ProgramFlow.Text.Digits
import ProgramFlow.Yaml.Gap

/-! Scalars in quotes. Each reader starts behind the opening quote and answers with the text and
what follows the closing quote. No line of the text may start with a document marker. -/
namespace ProgramFlow.Yaml

/-- In single quotes only the quote itself is special: inside it is written twice. -/
def singleQuoted? (cs : List Char) : Option (List Char × List Char) :=
  match cs with
  | [] => none
  | '\'' :: '\'' :: rest => (singleQuoted? rest).map fun (text, left) => ('\'' :: text, left)
  | '\'' :: rest => some ([], rest)
  | c :: rest =>
    if isBlank c || isBreak c then
      match gap? 0 (c :: rest) with
      | none => none
      | some (gap, next) =>
        if gap.beforeMarker next then none
        else if _ : next.length < rest.length + 1 then
          (singleQuoted? next).map fun (text, left) => (gap.text ++ text, left)
        else none
    else (singleQuoted? rest).map fun (text, left) => (c :: text, left)
termination_by cs.length

def escaped? (c : Char) : Option Char :=
  match c with
  | '0' => some (Char.ofNat 0)
  | 'a' => some (Char.ofNat 7)
  | 'b' => some (Char.ofNat 8)
  | 't' => some (Char.ofNat 9)
  | '\t' => some (Char.ofNat 9)
  | 'n' => some (Char.ofNat 10)
  | 'v' => some (Char.ofNat 11)
  | 'f' => some (Char.ofNat 12)
  | 'r' => some (Char.ofNat 13)
  | 'e' => some (Char.ofNat 27)
  | ' ' => some ' '
  | '"' => some '"'
  | '/' => some '/'
  | '\\' => some '\\'
  | 'N' => some (Char.ofNat 0x85)
  | '_' => some (Char.ofNat 0xA0)
  | 'L' => some (Char.ofNat 0x2028)
  | 'P' => some (Char.ofNat 0x2029)
  | _ => none

def hexWidth? (c : Char) : Option Nat :=
  match c with
  | 'x' => some 2
  | 'u' => some 4
  | 'U' => some 8
  | _ => none

def ofCodePoint? (n : Nat) : Option Char :=
  if n.isValidChar then some (Char.ofNat n) else none

def escape? : List Char → Option (Char × List Char)
  | [] => none
  | c :: rest =>
    match escaped? c with
    | some e => some (e, rest)
    | none => do
      let width ← hexWidth? c
      let digits := rest.take width
      if digits.length ≠ width then none
      let e ← ofCodePoint? (← Text.ofDigits? 16 digits)
      return (e, rest.drop width)

/-- In double quotes a backslash starts an escape sequence. Before a line end it joins the lines:
the line end and the blanks of the next line are dropped, further line ends stay. -/
def doubleQuoted? (cs : List Char) : Option (List Char × List Char) :=
  match cs with
  | [] => none
  | '"' :: rest => some ([], rest)
  | '\\' :: rest =>
    if rest.head?.any isBreak then
      match breaksFrom? 0 0 (dropBreak rest) with
      | none => none
      | some (breaks, column, next) =>
        if column = 0 && atMarker next then none
        else if _ : next.length < rest.length + 1 then
          (doubleQuoted? next).map fun (text, left) => (breaks ++ text, left)
        else none
    else
      match escape? rest with
      | none => none
      | some (e, next) =>
        if _ : next.length < rest.length + 1 then
          (doubleQuoted? next).map fun (text, left) => (e :: text, left)
        else none
  | c :: rest =>
    if isBlank c || isBreak c then
      match gap? 0 (c :: rest) with
      | none => none
      | some (gap, next) =>
        if gap.beforeMarker next then none
        else if _ : next.length < rest.length + 1 then
          (doubleQuoted? next).map fun (text, left) => (gap.text ++ text, left)
        else none
    else (doubleQuoted? rest).map fun (text, left) => (c :: text, left)
termination_by cs.length

end ProgramFlow.Yaml
