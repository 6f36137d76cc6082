import NodeQuery.Text.Pieces

/-!
# Folders

Files under paths, seen from one folder. A folder exists as soon as a file lies below it; the folder
from which the files are seen exists in any case, with those above it.
-/
namespace NodeQuery

/-- What a path leads to. A file that cannot be read as text counts as unreadable, and so does a
folder. -/
inductive Entry where
  | file (text : String)
  | unreadable
  deriving DecidableEq, Repr

/-- A file or folder: the names of the folders above it from the root on, then its own name. -/
abbrev Place := List String

/-- Files at their places, and the place where relative paths begin. -/
structure Folder where
  here : Place
  files : List (Place × String)

namespace Folder

/-- The names in a path. -/
def names (path : String) : List String :=
  (Text.cutAt '/' path.toList).map String.ofList

/-- The place that a name leads to. The root lies in itself. -/
def follow (place : Place) (name : String) : Place :=
  if name = "" || name = "." then place
  else if name = ".." then place.dropLast
  else place ++ [name]

def file? (d : Folder) (place : Place) : Option String :=
  (d.files.find? fun file => file.1 == place).map (·.2)

def isFolder (d : Folder) (place : Place) : Bool :=
  place.isPrefixOf d.here || d.files.any fun file =>
    place.length < file.1.length && place.isPrefixOf file.1

/-- Follows names from a place; each of them is looked up in a folder. -/
def walk (d : Folder) (place : Place) : List String → Option Place
  | [] => some place
  | name :: rest => if d.isFolder place then d.walk (follow place name) rest else none

/-- The place that a path leads to. A path with a slash in front begins at the root. -/
def place? (d : Folder) (path : String) : Option Place :=
  d.walk (if path.front? = some '/' then [] else d.here) (names path)

def lookup (d : Folder) (path : String) : Option Entry :=
  match d.place? path with
  | none => none
  | some place =>
    if d.isFolder place then some .unreadable else (d.file? place).map .file

/-- Files under their paths within a folder that has no name, so that no path from outside leads
into it. -/
def ofList (files : List (String × String)) : Folder :=
  let here := [""]
  ⟨here, files.map fun (path, text) => ((names path).foldl follow here, text)⟩

/-- Names have at most this many bytes. -/
def maxNameSize : Nat := 255

/-- Whether a file may have this name. -/
def isName (name : String) : Bool :=
  name.utf8ByteSize ≤ maxNameSize && !name.toList.contains '\x00'

/-- Writes a file whose folder exists; nothing else than a file can stand in its place. -/
def write? (d : Folder) (path text : String) : Option Folder :=
  match d.place? path with
  | none => none
  | some place =>
    if d.isFolder place || !place.all isName then none
    else some { d with files := (place, text) :: d.files.filter fun file => file.1 != place }

end Folder

end NodeQuery
