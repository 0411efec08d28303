import ProgramFlow.Yaml.Directive

/-! The tokens of a YAML text. Indentation becomes tokens too: a block collection has a start and an
end, and each key of a mapping is announced. -/
namespace ProgramFlow.Yaml

inductive Token where
  | directive (directive : Directive)
  | documentStart
  | documentEnd
  | blockSequenceStart
  | blockMappingStart
  | blockEnd
  | flowSequenceStart
  | flowSequenceEnd
  | flowMappingStart
  | flowMappingEnd
  | entry
  | comma
  | key
  | value
  | alias (name : List Char)
  | anchor (name : List Char)
  | tag (handle : List Char) (suffix : Tag)
  | scalar (style : Style) (text : List Char)
  deriving DecidableEq, Repr

end ProgramFlow.Yaml
