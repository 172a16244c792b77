import Splice.Encoding.Basic
import Splice.Path.Basic

/-!
# File trees

A tree holds files and directories under their names from the root, and a working directory at which
relative paths start. Paths are followed name by name: a double dot leaves the directory that has
been reached, and only a directory has anything below it.

* `Tree` — the tree; the root and the working directory always exist;
* `Tree.locate` — the place to which a path leads, or why it leads nowhere; and
* `Tree.has`, `Tree.isFile`, `Tree.isDirectory`, `Tree.list` — what is there.
-/

namespace Splice

/-- A place in a tree: the names that lead to it from the root. -/
abbrev Place := List Text

/-- What stands at a place. -/
inductive Entry where
  /-- A directory. -/
  | directory
  /-- A file with its bytes. -/
  | file (bytes : Bytes)
deriving DecidableEq, Repr

/-- A file tree as it is seen from a working directory. -/
structure Tree where
  /-- The absolute path of the working directory. -/
  cwd : Text
  /-- What stands at each place but the root, in the order in which directories list it. -/
  entries : List (Place × Entry)

namespace Tree

/-- Why a path leads nowhere, or why nothing can be made there. -/
inductive Fault where
  /-- A name on the way does not exist. -/
  | missing
  /-- Something on the way is no directory. -/
  | notDirectory
  /-- There is a directory where a file is wanted. -/
  | isDirectory
  /-- There is something already. -/
  | taken
deriving DecidableEq, Repr

/-- What stands at a place. -/
def entry? (tree : Tree) (place : Place) : Option Entry :=
  if place = [] then some .directory else tree.entries.lookup place

/-- The place of the working directory. -/
def here (tree : Tree) : Place := Path.normalNames tree.cwd

/-- Follows names from a place. Empty names and single dots stay, but only a directory can be stayed
in. -/
def follow (tree : Tree) : Place → List Text → Except Fault Place
  | place, [] => .ok place
  | place, name :: names =>
      match tree.entry? place with
      | none => .error .missing
      | some (.file _) => .error .notDirectory
      | some .directory =>
          if name = [] ∨ name = ['.'] then tree.follow place names
          else if name = ['.', '.'] then tree.follow place.dropLast names
          else if (tree.entry? (place ++ [name])).isNone then .error .missing
          else tree.follow (place ++ [name]) names

/-- The place at which a path starts. -/
def startOf (tree : Tree) (path : Text) : Place := if Path.isAbsolute path then [] else tree.here

/-- The place to which a path leads. The empty path leads nowhere, and no name holds the null
character. -/
def locate (tree : Tree) (path : Text) : Except Fault Place :=
  if path.isEmpty ∨ '\x00' ∈ path then .error .missing
  else tree.follow (tree.startOf path) (Text.pieces '/' path)

/-- What stands where a path leads. -/
def find? (tree : Tree) (path : Text) : Option Entry :=
  match tree.locate path with
  | .ok place => tree.entry? place
  | .error _ => none

/-- Does the path lead to a file or a directory? -/
def has (tree : Tree) (path : Text) : Bool := (tree.find? path).isSome

/-- Does the path lead to a file? -/
def isFile (tree : Tree) (path : Text) : Bool :=
  match tree.find? path with
  | some (.file _) => true
  | _ => false

/-- Does the path lead to a directory? -/
def isDirectory (tree : Tree) (path : Text) : Bool := tree.find? path == some .directory

/-- The name of an entry, if it stands directly in the directory. -/
def childName? (directory : Place) (place : Place) : Option Text :=
  match place.getLast? with
  | some name => if place.dropLast = directory then some name else none
  | none => none

/-- The names in the directory at a place. -/
def children (tree : Tree) (directory : Place) : List Text :=
  tree.entries.filterMap fun (place, _) => childName? directory place

/-- The names in the directory to which a path leads; none if it leads to no directory. -/
def list (tree : Tree) (path : Text) : List Text :=
  match tree.locate path with
  | .ok place => if tree.entry? place = some .directory then tree.children place else []
  | .error _ => []

end Tree

end Splice
