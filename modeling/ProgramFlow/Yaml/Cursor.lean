/-! The characters of a YAML text, and places in it. -/
namespace ProgramFlow.Yaml

def isPrintable (c : Char) : Bool :=
  let n := c.toNat
  n = 0x09 || n = 0x0A || n = 0x0D || (0x20 ≤ n && n ≤ 0x7E) || n = 0x85 ||
    (0xA0 ≤ n && n ≤ 0xFFFD) || 0x10000 ≤ n

def isBlank (c : Char) : Bool := c = ' ' || c = '\t'

/-- Line separator and paragraph separator, the line ends that a scalar keeps as they are. -/
def isSeparator (c : Char) : Bool := c.toNat = 0x2028 || c.toNat = 0x2029

/-- A line ends with a line feed, a carriage return, both, the next-line control or a separator. -/
def isBreak (c : Char) : Bool := c = '\n' || c = '\r' || c.toNat = 0x85 || isSeparator c

def isWord (c : Char) : Bool := c.isAlphanum || c = '_' || c = '-'

def isFlowMark (c : Char) : Bool :=
  c = ',' || c = '[' || c = ']' || c = '\x7b' || c = '\x7d'

def atLineEnd : List Char → Bool
  | [] => true
  | c :: _ => isBreak c

def atGap : List Char → Bool
  | [] => true
  | c :: _ => isBlank c || isBreak c

/-- Three dashes or three dots as a word. At the start of a line they begin or end a document. -/
def atMarker : List Char → Bool
  | a :: b :: c :: rest =>
    ((a = '-' && b = '-' && c = '-') || (a = '.' && b = '.' && c = '.')) && atGap rest
  | _ => false

def breakText : List Char → List Char
  | [] => []
  | c :: _ => if isSeparator c then [c] else if isBreak c then ['\n'] else []

def dropBreak : List Char → List Char
  | '\r' :: '\n' :: rest => rest
  | c :: rest => if isBreak c then rest else c :: rest
  | [] => []

def dropLine (cs : List Char) : List Char := cs.dropWhile fun c => !isBreak c

/-- The next line, if the rest of this one is blank but for a comment. -/
def nextLine? (cs : List Char) : Option (List Char) :=
  let rest := cs.dropWhile isBlank
  let rest := if rest.head? = some '#' then dropLine rest else rest
  if atLineEnd rest then some (dropBreak rest) else none

/-- A place in a text: what follows it, the octets before it, the line ends before it and the
characters before it on its line. -/
structure Cursor where
  rest : List Char
  offset : Nat
  line : Nat
  column : Nat

namespace Cursor

def start (text : List Char) : Cursor := ⟨text, 0, 0, 0⟩

def next (c : Cursor) : Cursor :=
  match c.rest with
  | [] => c
  | d :: rest =>
    if isBreak d then ⟨rest, c.offset + d.utf8Size, c.line + 1, 0⟩
    else ⟨rest, c.offset + d.utf8Size, c.line, c.column + 1⟩

def skip : Nat → Cursor → Cursor
  | 0, c => c
  | n + 1, c => skip n c.next

def moveTo (rest : List Char) (c : Cursor) : Cursor := c.skip (c.rest.length - rest.length)

end Cursor

end ProgramFlow.Yaml
