/-! Fields of a line divided by one separator character. -/
namespace ProgramFlow.Text

/-- The fields between the separators, in order; a text without separator is one field. -/
def fields (sep : Char) : List Char → List (List Char)
  | [] => [[]]
  | c :: rest =>
    if c = sep then [] :: fields sep rest
    else
      match fields sep rest with
      | [] => [[c]]
      | first :: more => (c :: first) :: more

end ProgramFlow.Text
