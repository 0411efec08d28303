import ProgramFlow.Text.Digits
import ProgramFlow.Yaml
import ProgramFlow.Yaml.Cursor

/-! Tags and anchors. A tag is a handle that stands for the start of a name, and the
rest of the name; a handle is an exclamation mark, two of them, or a word between two. -/
namespace ProgramFlow.Yaml

/-- A handle at the start of a text, or an exclamation mark and a word that turns out not to be
one. -/
def handle? : List Char → Option (List Char × List Char)
  | '!' :: rest =>
    let word := rest.takeWhile isWord
    match rest.dropWhile isWord with
    | '!' :: left => some ('!' :: word ++ ['!'], left)
    | left => some ('!' :: word, left)
  | _ => none

def isClosedHandle (handle : List Char) : Bool :=
  2 ≤ handle.length && handle.getLast? = some '!'

def isUri (verbatim : Bool) (c : Char) : Bool :=
  isWord c || ";/?:@&=+$.!~*'()".toList.contains c ||
    (verbatim && (c = ',' || c = '[' || c = ']'))

def followers? (octet : Nat) : Option Nat :=
  if octet < 0x80 then some 0
  else if 0xC0 ≤ octet ∧ octet < 0xE0 then some 1
  else if 0xE0 ≤ octet ∧ octet < 0xF0 then some 2
  else if 0xF0 ≤ octet ∧ octet < 0xF8 then some 3
  else none

/-- The octets of a name, of which the first few must complete a character. An octet may be written
as a percent sign and two hexadecimal digits. -/
def octets? (verbatim : Bool) : Nat → List Char → Option (Tag × List Char)
  | pending, '%' :: a :: b :: rest => do
    let octet := (← Text.digit? 16 a) * 16 + (← Text.digit? 16 b)
    let pending ←
      if pending = 0 then followers? octet
      else if 0x80 ≤ octet ∧ octet < 0xC0 then some (pending - 1)
      else none
    let (octets, left) ← octets? verbatim pending rest
    return (octet :: octets, left)
  | 0, [] => some ([], [])
  | 0, c :: rest =>
    if c = '%' then none
    else if isUri verbatim c then
      (octets? verbatim 0 rest).map fun (octets, left) => (c.toNat :: octets, left)
    else some ([], c :: rest)
  | _ + 1, _ => none

/-- A name, which is not empty. A zero octet ends it. -/
def uri? (verbatim : Bool) (cs : List Char) : Option (Tag × List Char) :=
  match octets? verbatim 0 cs with
  | some (octet :: octets, left) => some ((octet :: octets).takeWhile (· ≠ 0), left)
  | _ => none

/-- A tag at its exclamation mark: verbatim between angle brackets, behind a handle, or behind an
exclamation mark alone. The mark without anything behind it is a name of its own. -/
def tag? (cs : List Char) : Option (List Char × Tag × List Char) :=
  match cs with
  | '!' :: '<' :: rest =>
    match uri? true rest with
    | some (name, '>' :: left) => some ([], name, left)
    | _ => none
  | _ => do
    let (handle, rest) ← handle? cs
    if isClosedHandle handle then
      let (suffix, left) ← uri? false rest
      return (handle, suffix, left)
    else
      let (octets, left) ← octets? false 0 rest
      let suffix := (handle.drop 1 |>.map Char.toNat) ++ octets |>.takeWhile (· ≠ 0)
      if suffix.isEmpty then return ([], Tag.ofString "!", left) else return (['!'], suffix, left)

def anchorName? (cs : List Char) : Option (List Char × List Char) :=
  let name := cs.takeWhile isWord
  let rest := cs.dropWhile isWord
  if name.isEmpty then none
  else if atGap rest || rest.head?.any fun c => "?:,]\x7d%@\x60".toList.contains c then
    some (name, rest)
  else none

end ProgramFlow.Yaml
