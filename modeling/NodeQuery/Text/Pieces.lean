/-!
# Pieces of a text

A text is cut into pieces at every occurrence of a separator, empty pieces included.
-/
namespace NodeQuery.Text

/-- Puts a character in front of the pieces that a text is cut into. -/
def cutStep (separator c : Char) : List (List Char) → List (List Char)
  | [] => [[c]]
  | piece :: pieces =>
    if c = separator then [] :: piece :: pieces else (c :: piece) :: pieces

/-- Cuts a text at every separator; there is always one piece more than there are separators. -/
def cutAt (separator : Char) (text : List Char) : List (List Char) :=
  text.foldr (cutStep separator) [[]]

end NodeQuery.Text
