import NodeQuery.Json.Reader
import NodeQuery.Text.Blank
import NodeQuery.Text.Pieces

/-!
# Input texts

Host names stand on lines of their own. Records stand on lines of their own too, or together in one
JSON array. Blank lines and blanks around a line mean nothing.
-/
namespace NodeQuery

/-- The trimmed lines of a text that are not blank. -/
def filledLines (text : List Char) : List (List Char) :=
  ((Text.cutAt '\n' text).map Text.trim).filter (!·.isEmpty)

def readHostNames (text : String) : List String :=
  (filledLines text.toList).map String.ofList

/-- Records nest at most this deep. -/
def maxRecordDepth : Nat := 127

/-- The records of a text; it is an array iff its first character that is not blank opens one. -/
def readRecords (text : String) : Option (List Json) :=
  match Text.trimStart text.toList with
  | '[' :: rest =>
    match Json.read maxRecordDepth ('[' :: rest) with
    | some (.array records) => some records
    | _ => none
  | _ => (filledLines text.toList).mapM (Json.read maxRecordDepth)

end NodeQuery
