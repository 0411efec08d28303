import ProgramFlow.Text.Blank
import ProgramFlow.Text.Digits
import ProgramFlow.Text.Fields

/-! Modifiers of a declaration as a set of sixteen bits. Twelve bits have names. The text of a
set lists the names in the order of the bits; bits without a name follow as one hexadecimal
number. -/
namespace ProgramFlow

structure Modifiers where
  bits : UInt16
  deriving DecidableEq, Inhabited, Repr

namespace Modifiers

def empty : Modifiers := ⟨0⟩

def named : List (String × UInt16) :=
  [("PUBLIC", 0x1), ("PRIVATE", 0x2), ("PROTECTED", 0x4), ("STATIC", 0x8), ("FINAL", 0x10),
    ("SYNCHRONIZED", 0x20), ("VOLATILE", 0x40), ("TRANSIENT", 0x80), ("NATIVE", 0x100),
    ("ABSTRACT", 0x400), ("STRICTFP", 0x800), ("DEFAULT", 0x1000)]

def has (m : Modifiers) (bit : UInt16) : Bool := m.bits &&& bit = bit

def isStatic (m : Modifiers) : Bool := m.has 0x8

def isFinal (m : Modifiers) : Bool := m.has 0x10

def isPackagePrivate (m : Modifiers) : Bool := m.bits &&& 0x7 = 0

def unnamed (m : Modifiers) : UInt16 := m.bits &&& 0xE200

def parts (m : Modifiers) : List String :=
  let names := (named.filter fun flag => m.has flag.2).map (·.1)
  if m.unnamed = 0 then names
  else names ++ [String.ofList ('0' :: 'x' :: Nat.toDigits 16 m.unnamed.toNat)]

def text (m : Modifiers) : String := " | ".intercalate m.parts

/-- The bits of one part: a name, or a hexadecimal number of at most sixteen bits, before whose
digits a plus sign may stand. -/
def partBits? : List Char → Option UInt16
  | '0' :: 'x' :: '+' :: digits => hexBits? digits
  | '0' :: 'x' :: digits => hexBits? digits
  | name => (named.find? fun flag => flag.1.toList = name).map (·.2)
where
  hexBits? (digits : List Char) : Option UInt16 :=
    match Text.ofDigits? 16 digits with
    | some n => if n < 0x10000 then some n.toUInt16 else none
    | none => none

/-- Reads the parts between bars, each with blanks around it. A blank text is the empty set. -/
def ofText? (s : String) : Option Modifiers :=
  if (Text.trim s.toList).isEmpty then some empty
  else do
    let bits ← ((Text.fields '|' s.toList).map Text.trim).mapM partBits?
    return ⟨bits.foldl (· ||| ·) 0⟩

end Modifiers

end ProgramFlow
