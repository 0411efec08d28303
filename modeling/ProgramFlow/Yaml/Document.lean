import ProgramFlow.Yaml.Layout

/-! From tokens to documents. An anchor gets the number of the names known before it, so a name
that is used again shares the number of the next new one; an alias may only use a name that stands
before it. -/
namespace ProgramFlow.Yaml

abbrev Anchors := List (List Char × Nat)

/-- Gives a name its number, in place of one it already has. -/
def Anchors.declare (name : List Char) (anchors : Anchors) : Anchors :=
  if (anchors.lookup name).isSome then
    anchors.map fun known => if known.1 = name then (name, anchors.length) else known
  else anchors ++ [(name, anchors.length)]

structure Reading where
  tokens : List Token
  anchors : Anchors

abbrev Reader := StateT Reading Option

namespace Reader

def peek? : Reader (Option Token) := do return (← get).tokens.head?

def drop : Reader Unit := modify fun r => { r with tokens := r.tokens.drop 1 }

def expect (t : Token) : Reader Unit := do
  if (← peek?) = some t then drop else failure

def nextIs (choices : List Token) : Reader Bool := do
  match ← peek? with
  | some t => return choices.contains t
  | none => return false

def accept (t : Token) : Reader Bool := do
  if (← peek?) = some t then
    drop
    return true
  else return false

def anchor? : Reader (Option (List Char)) := do
  match ← peek? with
  | some (.anchor name) =>
    drop
    return some name
  | _ => return none

def tag? : Reader (Option (List Char × Tag)) := do
  match ← peek? with
  | some (.tag handle suffix) =>
    drop
    return some (handle, suffix)
  | _ => return none

def properties : Reader (Option (List Char) × Option (List Char × Tag)) := do
  match ← anchor? with
  | some name => return (some name, ← tag?)
  | none =>
    let tag ← tag?
    if tag.isSome then return (← anchor?, tag) else return (none, none)

end Reader

abbrev Handles := List (List Char × Tag)

/-- A tag in full. Its handle has to be known, unless it has none. -/
def fullTag (handles : Handles) : Option (List Char × Tag) → Reader (Option Tag)
  | none => return none
  | some ([], suffix) => return some suffix
  | some (handle, suffix) =>
    match handles.lookup handle with
    | some start => return some (start ++ suffix)
    | none => failure

/-- A scalar with the tag it was given; the tag of a single exclamation mark says nothing. -/
def tagged (style : Style) (tag : Option Tag) (text : List Char) : Yaml :=
  .scalar style (if tag = some (Tag.ofString "!") then none else tag) text

open Reader

mutual

/-- A node. Block collections are read where the place admits them, and where it stands as key or
value of a block mapping also a sequence that is not indented. The fuel bounds the number of
tokens. -/
def node (handles : Handles) (inBlock inMapping : Bool) : Nat → Reader Yaml
  | 0 => failure
  | fuel + 1 => do
    if let some (.alias name) ← peek? then
      drop
      match (← get).anchors.lookup name with
      | some number => return .alias number
      | none => failure
    else
      let (anchor, tag) ← properties
      let tag ← fullTag handles tag
      match anchor with
      | none => content handles inBlock inMapping false tag fuel
      | some name =>
        let number := (← get).anchors.length
        modify fun r => { r with anchors := r.anchors.declare name }
        return .anchored number (← content handles inBlock inMapping true tag fuel)

/-- A node behind its anchor and tag. With one of these it may be empty. -/
def content (handles : Handles) (inBlock inMapping anchored : Bool) (tag : Option Tag) :
    Nat → Reader Yaml
  | 0 => failure
  | fuel + 1 => do
    match ← peek? with
    | some (.scalar style text) =>
      drop
      return tagged style tag text
    | some .flowSequenceStart =>
      drop
      return .seq (← flowItems handles true fuel)
    | some .flowMappingStart =>
      drop
      return .map (← flowEntries handles true fuel)
    | some .entry =>
      if inMapping then return .seq (← alignedItems handles fuel)
      else if anchored || tag.isSome then return tagged .plain tag []
      else failure
    | some .blockSequenceStart =>
      if inBlock then
        drop
        return .seq (← blockItems handles fuel)
      else if anchored || tag.isSome then return tagged .plain tag []
      else failure
    | some .blockMappingStart =>
      if inBlock then
        drop
        return .map (← blockEntries handles fuel)
      else if anchored || tag.isSome then return tagged .plain tag []
      else failure
    | _ => if anchored || tag.isSome then return tagged .plain tag [] else failure

def blockItems (handles : Handles) : Nat → Reader (List Yaml)
  | 0 => failure
  | fuel + 1 => do
    if ← accept .blockEnd then return []
    else
      expect .entry
      let item ←
        if ← nextIs [.entry, .blockEnd] then pure nothing
        else node handles true false fuel
      return item :: (← blockItems handles fuel)

def alignedItems (handles : Handles) : Nat → Reader (List Yaml)
  | 0 => failure
  | fuel + 1 => do
    if ← accept .entry then
      let item ←
        if ← nextIs [.entry, .key, .value, .blockEnd] then pure nothing
        else node handles true false fuel
      return item :: (← alignedItems handles fuel)
    else return []

def blockEntries (handles : Handles) : Nat → Reader (List (Yaml × Yaml))
  | 0 => failure
  | fuel + 1 => do
    if ← accept .blockEnd then return []
    else
      expect .key
      let key ←
        if ← nextIs [.key, .value, .blockEnd] then pure nothing
        else node handles true true fuel
      let value ←
        if ← accept .value then
          if ← nextIs [.key, .value, .blockEnd] then pure nothing
          else node handles true true fuel
        else pure nothing
      return (key, value) :: (← blockEntries handles fuel)

/-- The items of a flow sequence, with a comma before each but the first. A key mark makes an item
a mapping with one entry; if the key is empty, the token behind its mark is passed over. -/
def flowItems (handles : Handles) (isFirst : Bool) : Nat → Reader (List Yaml)
  | 0 => failure
  | fuel + 1 => do
    if ← accept .flowSequenceEnd then return []
    else
      if !isFirst then expect .comma
      if ← accept .key then
        let key ←
          if ← nextIs [.value, .comma, .flowSequenceEnd] then
            drop
            pure nothing
          else node handles false false fuel
        let value ←
          if ← accept .value then
            if ← nextIs [.comma, .flowSequenceEnd] then pure nothing
            else node handles false false fuel
          else pure nothing
        return .map [(key, value)] :: (← flowItems handles false fuel)
      else if ← accept .flowSequenceEnd then return []
      else
        let item ← node handles false false fuel
        return item :: (← flowItems handles false fuel)

def flowEntries (handles : Handles) (isFirst : Bool) : Nat → Reader (List (Yaml × Yaml))
  | 0 => failure
  | fuel + 1 => do
    if ← accept .flowMappingEnd then return []
    else
      if !isFirst then expect .comma
      if ← accept .key then
        let key ←
          if ← nextIs [.value, .comma, .flowMappingEnd] then pure nothing
          else node handles false false fuel
        let value ←
          if ← accept .value then
            if ← nextIs [.comma, .flowMappingEnd] then pure nothing
            else node handles false false fuel
          else pure nothing
        return (key, value) :: (← flowEntries handles false fuel)
      else if ← accept .flowMappingEnd then return []
      else
        let key ← node handles false false fuel
        return (key, nothing) :: (← flowEntries handles false fuel)

end

/-- The directives of a document: one version at most, of the two that there are, and one meaning
for each handle. -/
def handles? : Option Nat → Handles → List Token → Option (Handles × List Token)
  | version, handles, .directive (.version major minor) :: rest =>
    if version.isNone && major = 1 && (minor = 1 || minor = 2) then
      handles? (some minor) handles rest
    else none
  | version, handles, .directive (.handle handle start) :: rest =>
    if (handles.lookup handle).isSome then none
    else handles? version (handles ++ [(handle, start)]) rest
  | _, handles, rest => some (handles, rest)

def standardHandles : Handles :=
  [(['!'], Tag.ofString "!"), (['!', '!'], Tag.ofString "tag:yaml.org,2002:")]

def isFinished (tokens : List Token) : Bool := tokens.all (· = .documentEnd)

def root? (handles : Handles) (tokens : List Token) : Option (Yaml × List Token) :=
  ((node (handles ++ standardHandles) true false (2 * tokens.length + 2)).run ⟨tokens, []⟩).map
    fun (root, reading) => (root, reading.tokens)

def content? (handles : Handles) (tokens : List Token) : Option (Yaml × List Token) :=
  match tokens with
  | [] => some (nothing, [])
  | .directive _ :: _ => some (nothing, tokens)
  | .documentStart :: _ => some (nothing, tokens)
  | .documentEnd :: _ => some (nothing, tokens)
  | _ => root? handles tokens

/-- The one document of a text; a text without any is read as nothing. Behind directives the start
of a document has to be marked. -/
def ofTokens? (tokens : List Token) : Option Yaml := do
  let (root, rest) ←
    match tokens with
    | [] => some (nothing, [])
    | .directive _ :: _ | .documentStart :: _ =>
      match handles? none [] tokens with
      | some (handles, .documentStart :: rest) => content? handles rest
      | _ => none
    | _ => root? [] tokens
  if isFinished rest then return root else none

def ofText? (text : List Char) : Option Yaml := (Token.ofText? text).bind ofTokens?

end ProgramFlow.Yaml
