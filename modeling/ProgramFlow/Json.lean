/-! JSON documents as the library exchanges them. Only whole numbers carry data, so a number
written with a fraction or an exponent is kept as `fraction` and no reader accepts it.

A record is read from an object, where unknown keys are ignored, or from a list that holds
exactly its fields in order. A variant is the name of a constructor, or an object with that
name as its only key. -/
namespace ProgramFlow

inductive Json where
  | null
  | bool (value : Bool)
  | int (value : Int)
  | fraction
  | str (value : String)
  | arr (items : List Json)
  | obj (fields : List (String × Json))
  deriving Inhabited

namespace Json

def ofNat (n : Nat) : Json := .int n

def ofOption (write : α → Json) : Option α → Json
  | none => .null
  | some a => write a

def ofList (write : α → Json) (items : List α) : Json := .arr (items.map write)

def variant (name : String) (payload : Json) : Json := .obj [(name, payload)]

def bool? : Json → Option Bool
  | .bool b => some b
  | _ => none

def str? : Json → Option String
  | .str s => some s
  | _ => none

def natBelow? (bound : Nat) : Json → Option Nat
  | .int (.ofNat n) => if n < bound then some n else none
  | _ => none

def nat32? : Json → Option Nat := natBelow? 0x100000000

def nat64? : Json → Option Nat := natBelow? 0x10000000000000000

def uint32? (j : Json) : Option UInt32 := j.nat32?.map Nat.toUInt32

def list? (read : Json → Option α) : Json → Option (List α)
  | .arr items => items.mapM read
  | _ => none

def option? (read : Json → Option α) : Json → Option (Option α)
  | .null => some none
  | j => (read j).map some

/-- The fields of a record, in the order of `names`; a key that an object lacks gives `none`. -/
def record? (names : List String) : Json → Option (List (Option Json))
  | .obj fields => some (names.map fun name => fields.lookup name)
  | .arr items => if items.length = names.length then some (items.map some) else none
  | _ => none

def required (read : Json → Option α) (field : Option Json) : Option α := field.bind read

def optional (read : Json → Option α) : Option Json → Option (Option α)
  | none => some none
  | some j => option? read j

/-- What an object holds under a key; `null` counts as missing. -/
def get? (j : Json) (key : String) : Option Json :=
  match j with
  | .obj fields =>
    match fields.lookup key with
    | some .null => none
    | value => value
  | _ => none

def need (j : Json) (key : String) (read : Json → Option α) : Option α := (j.get? key).bind read

def getOr (j : Json) (key : String) (default : α) (read : Json → Option α) : Option α :=
  match j.get? key with
  | none => some default
  | some value => read value

def maybe (j : Json) (key : String) (read : Json → Option α) : Option (Option α) :=
  match j.get? key with
  | none => some none
  | some value => (read value).map some

/-- The constructor a variant names, with its argument if it has one. A constructor without
argument may also be given the argument `null`. -/
def variant? : Json → Option (String × Option Json)
  | .str name => some (name, none)
  | .obj [(name, payload)] => some (name, some payload)
  | _ => none

def tag? (j : Json) : Option String :=
  match j.variant? with
  | some (name, none) => some name
  | some (name, some .null) => some name
  | _ => none

end Json

end ProgramFlow
