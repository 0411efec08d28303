import ProgramFlow.Json

/-! The indented text of a document: two blanks a level, a blank after each colon, and empty
lists and objects on one line. -/
namespace ProgramFlow.Json

def hexDigit (n : Nat) : Char :=
  if n < 10 then Char.ofNat (48 + n) else Char.ofNat (87 + n)

/-- Quotes, backslashes and the control characters below the blank are escaped, the latter by a
letter where one exists. -/
def escape (c : Char) : List Char :=
  let n := c.toNat
  if c = '"' then ['\\', '"']
  else if c = '\\' then ['\\', '\\']
  else if n = 8 then ['\\', 'b']
  else if n = 9 then ['\\', 't']
  else if n = 10 then ['\\', 'n']
  else if n = 12 then ['\\', 'f']
  else if n = 13 then ['\\', 'r']
  else if n < 32 then ['\\', 'u', '0', '0', hexDigit (n / 16), hexDigit (n % 16)]
  else [c]

def quote (s : String) : String :=
  String.ofList ('"' :: (s.toList.flatMap escape ++ ['"']))

def margin (depth : Nat) : String := String.ofList (List.replicate (2 * depth) ' ')

mutual

def prettyAt (depth : Nat) : Json → String
  | .null => "null"
  | .bool b => if b then "true" else "false"
  | .int n => toString n
  | .fraction => "null"
  | .str s => quote s
  | .arr items =>
    match items with
    | [] => "[]"
    | first :: rest =>
      "[\n" ++ margin (depth + 1) ++ prettyAt (depth + 1) first ++ prettyItems (depth + 1) rest ++
        "\n" ++ margin depth ++ "]"
  | .obj fields =>
    match fields with
    | [] => "\x7b\x7d"
    | (key, value) :: rest =>
      "\x7b\n" ++ margin (depth + 1) ++ quote key ++ ": " ++ prettyAt (depth + 1) value ++
        prettyFields (depth + 1) rest ++ "\n" ++ margin depth ++ "\x7d"

def prettyItems (depth : Nat) : List Json → String
  | [] => ""
  | item :: rest => ",\n" ++ margin depth ++ prettyAt depth item ++ prettyItems depth rest

def prettyFields (depth : Nat) : List (String × Json) → String
  | [] => ""
  | (key, value) :: rest =>
    ",\n" ++ margin depth ++ quote key ++ ": " ++ prettyAt depth value ++ prettyFields depth rest

end

def pretty (j : Json) : String := prettyAt 0 j

end ProgramFlow.Json
