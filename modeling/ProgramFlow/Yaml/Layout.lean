import ProgramFlow.Yaml.Scalar.Block
import ProgramFlow.Yaml.Scalar.Plain
import ProgramFlow.Yaml.Scalar.Quoted
import ProgramFlow.Yaml.Token

/-! From a text to its tokens. A node turns out to be a key only when the colon behind it is read,
so the place where it began is remembered: the colon then puts the mark of a key, and the start of
a mapping if this is its first key, before the tokens of the node. A key written without a question
mark stands on one line and takes up to 1024 octets. -/
namespace ProgramFlow.Yaml

/-- Where a node began that may still become a key. Outside flow collections, one at the column of
the current mapping has to. -/
structure Candidate where
  index : Nat
  required : Bool
  offset : Nat
  line : Nat
  column : Nat

def Candidate.isLate (k : Candidate) (c : Cursor) : Bool :=
  k.line < c.line || k.offset + 1024 < c.offset

/-- How far a text is read: the tokens so far, the columns of the open block collections from the
inside out, and the candidates for keys, one in the current flow collection and one in each around
it. -/
structure Layout where
  cursor : Cursor
  tokens : Array Token
  indents : List Nat
  keyAllowed : Bool
  candidate : Option Candidate
  outer : List (Option Candidate)

namespace Layout

def start (text : List Char) : Layout :=
  { cursor := .start text, tokens := #[], indents := [], keyAllowed := true, candidate := none,
    outer := [] }

def inFlow (l : Layout) : Bool := !l.outer.isEmpty

def least (l : Layout) : Nat :=
  match l.indents with
  | [] => 0
  | column :: _ => column + 1

def emit (t : Token) (l : Layout) : Layout := { l with tokens := l.tokens.push t }

def skip (n : Nat) (l : Layout) : Layout := { l with cursor := l.cursor.skip n }

def moveTo (rest : List Char) (l : Layout) : Layout := { l with cursor := l.cursor.moveTo rest }

def allowKey (allowed : Bool) (l : Layout) : Layout := { l with keyAllowed := allowed }

def endBlocks (kept : List Nat) (l : Layout) : Layout :=
  if l.inFlow then l
  else
    { l with
      indents := kept
      tokens := l.tokens ++ Array.replicate (l.indents.length - kept.length) Token.blockEnd }

def endBlocksRightOf (column : Nat) (l : Layout) : Layout :=
  l.endBlocks (l.indents.dropWhile fun indent => column < indent)

/-- Starts a block collection, unless one at this column or further right is open. The token goes
before the one with the given index. -/
def startBlock (column index : Nat) (t : Token) (l : Layout) : Layout :=
  if !l.inFlow && l.least ≤ column then
    { l with indents := column :: l.indents, tokens := l.tokens.insertIdxIfInBounds index t }
  else l

def startBlockHere (t : Token) (l : Layout) : Layout :=
  l.startBlock l.cursor.column l.tokens.size t

/-- Gives up the candidate; none if it had to become a key. -/
def dropCandidate? (l : Layout) : Option Layout :=
  if l.candidate.any (·.required) then none else some { l with candidate := none }

def saveCandidate? (l : Layout) : Option Layout :=
  if l.keyAllowed then
    l.dropCandidate?.map fun l =>
      { l with
        candidate := some {
          index := l.tokens.size
          required := !l.inFlow && l.indents.head? = some l.cursor.column
          offset := l.cursor.offset
          line := l.cursor.line
          column := l.cursor.column } }
  else some l

def dropLate? (c : Cursor) : Option Candidate → Option (Option Candidate)
  | none => some none
  | some k => if k.isLate c then if k.required then none else some none else some (some k)

def dropLateCandidates? (l : Layout) : Option Layout := do
  return {
    l with
    candidate := ← dropLate? l.cursor l.candidate
    outer := ← l.outer.mapM (dropLate? l.cursor) }

def isOrderMark (c : Char) : Bool := c.toNat = 0xFEFF

/-- The next token of the line, if there is one. A tab is a blank only where no key can start. -/
def lineRest (l : Layout) : List Char :=
  let rest := match l.cursor.rest with
    | c :: rest => if l.cursor.column = 0 && isOrderMark c then rest else c :: rest
    | [] => []
  let rest := rest.dropWhile fun c => c = ' ' || (c = '\t' && (l.inFlow || !l.keyAllowed))
  if rest.head? = some '#' then dropLine rest else rest

/-- Moves on to the next token. On a new line a key may start. -/
def settle (l : Layout) : Layout :=
  let rest := l.lineRest
  if rest.head?.any isBreak then
    let next := (l.moveTo (dropBreak rest)).allowKey (l.keyAllowed || !l.inFlow)
    if _ : next.cursor.rest.length < l.cursor.rest.length then next.settle else next
  else l.moveTo rest
termination_by l.cursor.rest.length

/-- Ends all block collections; no key can start before the end of the line. -/
def endDocument? (l : Layout) : Option Layout :=
  (l.endBlocks []).dropCandidate?.map (allowKey false)

def readDirective? (rest : List Char) (l : Layout) : Option Layout := do
  let l ← l.endDocument?
  let (directive, left) ← directive? rest
  return (l.moveTo left).emit (.directive directive)

def readMarker? (t : Token) (l : Layout) : Option Layout := do
  return ((← l.endDocument?).skip 3).emit t

def startFlow? (t : Token) (l : Layout) : Option Layout := do
  let l ← l.saveCandidate?
  let l := { l with candidate := none, outer := l.candidate :: l.outer }
  return ((l.allowKey true).skip 1).emit t

def endFlow? (t : Token) (l : Layout) : Option Layout := do
  let l ← l.dropCandidate?
  let l := match l.outer with
    | [] => l
    | candidate :: outer => { l with candidate := candidate, outer := outer }
  return ((l.allowKey false).skip 1).emit t

def readComma? (l : Layout) : Option Layout := do
  return (((← l.dropCandidate?).allowKey true).skip 1).emit .comma

def readEntry? (l : Layout) : Option Layout := do
  if !l.inFlow && !l.keyAllowed then none
  let l ← (l.startBlockHere .blockSequenceStart).dropCandidate?
  return ((l.allowKey true).skip 1).emit .entry

def readKey? (l : Layout) : Option Layout := do
  if !l.inFlow && !l.keyAllowed then none
  let l ← (l.startBlockHere .blockMappingStart).dropCandidate?
  return ((l.allowKey !l.inFlow).skip 1).emit .key

def readValue? (l : Layout) : Option Layout :=
  match l.candidate with
  | some k =>
    let l := { l with tokens := l.tokens.insertIdxIfInBounds k.index .key }
    let l := { l.startBlock k.column k.index .blockMappingStart with candidate := none }
    some (((l.allowKey false).skip 1).emit .value)
  | none =>
    if !l.inFlow && !l.keyAllowed then none
    else some ((((l.startBlockHere .blockMappingStart).allowKey !l.inFlow).skip 1).emit .value)

def readName? (token : List Char → Token) (rest : List Char) (l : Layout) : Option Layout := do
  let l ← l.saveCandidate?
  let (name, left) ← anchorName? rest
  return ((l.allowKey false).moveTo left).emit (token name)

/-- A tag ends before a gap, in a flow collection also before a comma. -/
def readTag? (l : Layout) : Option Layout := do
  let l ← l.saveCandidate?
  let (handle, suffix, left) ← tag? l.cursor.rest
  if atGap left || (l.inFlow && left.head? = some ',') then
    return ((l.allowKey false).moveTo left).emit (.tag handle suffix)
  else none

def readBlock? (folded : Bool) (rest : List Char) (l : Layout) : Option Layout := do
  let l ← l.dropCandidate?
  let (text, left) ← block? folded l.indents.head? rest
  let style := if folded then Style.folded else Style.literal
  return ((l.allowKey true).moveTo left).emit (.scalar style text)

def readQuoted? (style : Style) (quoted : Option (List Char × List Char)) (l : Layout) :
    Option Layout := do
  let l ← l.saveCandidate?
  let (text, left) ← quoted
  return ((l.allowKey false).moveTo left).emit (.scalar style text)

/-- A plain scalar that ran to a later line leaves a place where a key can start. -/
def readPlain? (l : Layout) : Option Layout := do
  let l ← l.saveCandidate?
  let scalar ← plain? l.inFlow l.least l.cursor.rest
  return ((l.allowKey scalar.broken).moveTo scalar.rest).emit (.scalar .plain scalar.text)

def readToken? (l : Layout) : Option Layout :=
  match l.cursor.rest with
  | [] => none
  | c :: rest =>
    if l.cursor.column = 0 && c = '%' then l.readDirective? rest
    else if l.cursor.column = 0 && atMarker (c :: rest) then
      l.readMarker? (if c = '-' then .documentStart else .documentEnd)
    else match c with
      | '[' => l.startFlow? .flowSequenceStart
      | '\x7b' => l.startFlow? .flowMappingStart
      | ']' => l.endFlow? .flowSequenceEnd
      | '\x7d' => l.endFlow? .flowMappingEnd
      | ',' => l.readComma?
      | '-' => if atGap rest then l.readEntry? else l.readPlain?
      | '?' => if l.inFlow || atGap rest then l.readKey? else l.readPlain?
      | ':' => if l.inFlow || atGap rest then l.readValue? else l.readPlain?
      | '*' => l.readName? .alias rest
      | '&' => l.readName? .anchor rest
      | '!' => l.readTag?
      | '|' => if l.inFlow then none else l.readBlock? false rest
      | '>' => if l.inFlow then none else l.readBlock? true rest
      | '\'' => l.readQuoted? .singleQuoted (singleQuoted? rest)
      | '"' => l.readQuoted? .doubleQuoted (doubleQuoted? rest)
      | '#' => none
      | '%' => none
      | '@' => none
      | '\x60' => none
      | _ => if atGap (c :: rest) then none else l.readPlain?

def tokens? (l : Layout) : Option (List Token) :=
  match l.settle.dropLateCandidates? with
  | none => none
  | some settled =>
    let current := settled.endBlocksRightOf settled.cursor.column
    if current.cursor.rest.isEmpty then current.endDocument?.map fun l => l.tokens.toList
    else
      match current.readToken? with
      | none => none
      | some next =>
        if _ : next.cursor.rest.length < l.cursor.rest.length then next.tokens? else none
termination_by l.cursor.rest.length

end Layout

def Token.ofText? (text : List Char) : Option (List Token) :=
  if text.all isPrintable then (Layout.start text).tokens? else none

end ProgramFlow.Yaml
