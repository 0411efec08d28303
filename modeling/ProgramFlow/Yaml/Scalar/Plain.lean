import ProgramFlow.Yaml.Gap

/-! Plain scalars. -/
namespace ProgramFlow.Yaml

/-- A word of a plain scalar. It ends before a gap, before a colon that a gap follows, and inside
a flow collection before its marks. There, a colon right before a mark is refused. -/
def plainWord? (inFlow : Bool) : List Char → Option (List Char × List Char)
  | [] => some ([], [])
  | c :: rest =>
    if atGap (c :: rest) || (c = ':' && atGap rest) || (inFlow && isFlowMark c) then
      some ([], c :: rest)
    else if inFlow && c = ':' && rest.head?.any fun d => isFlowMark d || d = '?' then none
    else (plainWord? inFlow rest).map fun (text, left) => (c :: text, left)

structure PlainScalar where
  text : List Char
  broken : Bool
  rest : List Char

/-- A plain scalar from a word on. It ends where no word follows a gap: before a comment, before a
document marker, and outside flow collections before a line with fewer blanks than the least
column. -/
def plain? (inFlow : Bool) (least : Nat) (cs : List Char) : Option PlainScalar :=
  match plainWord? inFlow cs with
  | none => none
  | some (word, []) => some ⟨word, false, []⟩
  | some (word, c :: rest) =>
    if atGap (c :: rest) then
      match gap? least (c :: rest) with
      | none => none
      | some (gap, left) =>
        if left.head? = some '#' || gap.beforeMarker left ||
            (gap.broken && !inFlow && gap.column < least) then
          some ⟨word, gap.broken, left⟩
        else if _ : left.length < cs.length then
          match plain? inFlow least left with
          | none => none
          | some more =>
            if more.text.isEmpty then some ⟨word, gap.broken, more.rest⟩
            else some ⟨word ++ gap.text ++ more.text, more.broken, more.rest⟩
        else none
    else some ⟨word, false, c :: rest⟩
termination_by cs.length

end ProgramFlow.Yaml
