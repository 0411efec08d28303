/-! Unsigned numerals in a base up to sixteen, letters in either case. -/
namespace ProgramFlow.Text

def digit? (base : Nat) (c : Char) : Option Nat :=
  let n := c.toNat
  let value :=
    if 48 ≤ n ∧ n ≤ 57 then n - 48
    else if 97 ≤ n ∧ n ≤ 102 then n - 87
    else if 65 ≤ n ∧ n ≤ 70 then n - 55
    else base
  if value < base then some value else none

def digitsFrom? (base : Nat) : Nat → List Char → Option Nat
  | acc, [] => some acc
  | acc, c :: rest =>
    match digit? base c with
    | some d => digitsFrom? base (acc * base + d) rest
    | none => none

/-- A numeral has at least one digit. -/
def ofDigits? (base : Nat) : List Char → Option Nat
  | [] => none
  | c :: rest => digitsFrom? base 0 (c :: rest)

end ProgramFlow.Text
