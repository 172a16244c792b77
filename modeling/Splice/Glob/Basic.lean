import Splice.Glob.Wildcard
import Splice.Tree.Basic

/-!
# Glob patterns

A glob pattern describes paths: each of its names is a wildcard pattern, and `**` as a name stands
for any way down, the empty one included. Hidden names, which begin with a dot, are only found by a
pattern that begins with a dot too. A name without wildcards stands as it is written, so that `./a`
and `x//y` are kept.

* `Glob.find` — the paths that a pattern finds in a tree, in the order of discovery; a path may
  occur more than once;
* `Glob.expand` — the same in code point order;
* `Glob.refuses` — the patterns that cannot be looked for; and
* `Glob.expandAll` — the paths that a list of patterns finds, of which those behind an exclamation
  mark take paths away.
-/

namespace Splice.Glob

/-- Does the name begin with a dot? -/
def isHidden (name : Text) : Bool := name.head? = some '.'

/-- The second path in the first; an empty one is left out. -/
def within (base path : Text) : Text :=
  if base.isEmpty then path else if path.isEmpty then base else Path.join base path

/-- The path at which a directory is listed: the empty path is the working directory. -/
def listPath (directory : Text) : Text := if directory.isEmpty then ['.'] else directory

/-- The place of a directory. There is none whose path holds the null character; a pattern for which
one would have to be listed is refused, see `isRefused`. -/
def directoryPlace? (tree : Tree) (directory : Text) : Option Place :=
  match tree.locate (listPath directory) with
  | .ok place => if tree.entry? place = some .directory then some place else none
  | .error _ => none

/-- The names in the directory at a place, or only those of directories. -/
def namesAt (tree : Tree) (directoriesOnly : Bool) (place : Place) : List Text :=
  (tree.children place).filter fun name =>
    !directoriesOnly || tree.entry? (place ++ [name]) == some .directory

/-- The names in a directory that fit a wildcard pattern. -/
def namesMatching (tree : Tree) (directoriesOnly : Bool) (directory pattern : Text) : List Text :=
  match directoryPlace? tree directory with
  | none => []
  | some place =>
      (namesAt tree directoriesOnly place).filter fun name =>
        (isHidden pattern || !isHidden name) && (Wildcard.ofText pattern).fits name

/-- The paths of everything below a place that is not hidden, each directory before its contents.
Each level takes one unit of fuel; no path has more names than the tree has entries. -/
def below (tree : Tree) (directoriesOnly : Bool) : (fuel : Nat) → Place → List Text
  | 0, _ => []
  | fuel + 1, place =>
      ((namesAt tree directoriesOnly place).filter fun name => !isHidden name).flatMap fun name =>
        name :: (below tree directoriesOnly fuel (place ++ [name])).map (within name)

/-- The ways down from a directory. The empty one is given without a look at the tree, also where
there is no directory; it names no file, so that only those who ask for directories see it. -/
def waysDown (tree : Tree) (directoriesOnly : Bool) (directory : Text) : List Text :=
  [] :: match directoryPlace? tree directory with
    | none => []
    | some place => below tree directoriesOnly (tree.entries.length + 1) place

/-- A name without wildcards, if it is in the directory. The empty name stands for the directory. -/
def nameItself (tree : Tree) (directory name : Text) : List Text :=
  if name.isEmpty then if tree.isDirectory directory then [name] else []
  else if tree.has (within directory name) then [name] else []

/-- The name that stands for any way down. -/
def anyWay : Text := "**"

/-- What the last name of a pattern finds in a directory. -/
def lastName (tree : Tree) (directoriesOnly : Bool) (directory name : Text) : List Text :=
  if Wildcard.isPattern name then
    if name = anyWay then waysDown tree directoriesOnly directory
    else namesMatching tree directoriesOnly directory name
  else nameItself tree directory name

/-- The paths that a pattern finds, seen from `base`. The pattern loses its last name in each round,
so `fuel` above its length suffices. -/
def search (tree : Tree) (base : Text) : (fuel : Nat) → (directoriesOnly : Bool) → Text → List Text
  | 0, _, _ => []
  | fuel + 1, directoriesOnly, pattern =>
      let directory := Path.parent pattern
      let name := Path.leaf pattern
      if !Wildcard.isPattern pattern then
        if name.isEmpty then
          if tree.isDirectory (within base directory) then [pattern] else []
        else if tree.has (within base pattern) then [pattern] else []
      else if directory.isEmpty then lastName tree directoriesOnly base name
      else
        -- Wildcards in front of the last name find the directories to look into.
        let directories :=
          if directory ≠ pattern ∧ Wildcard.isPattern directory then
            search tree base fuel true directory
          else [directory]
        directories.flatMap fun directory =>
          (lastName tree directoriesOnly (within base directory) name).map (Path.join directory)

/-- The paths that a pattern finds, seen from `base`. If the pattern begins with any way down, the
empty path, which would be `base` itself, is left out. -/
def find (tree : Tree) (base pattern : Text) : List Text :=
  let found := search tree base (pattern.length + 1) false pattern
  match found with
  | [] :: rest => if pattern.isEmpty ∨ Text.hasLead anyWay pattern then rest else found
  | _ => found

/-- Is the pattern refused, seen from `base`? This is so if a directory is to be listed whose path
holds the null character: that in front of the first name with a wildcard. -/
def isRefused (base : Text) : (fuel : Nat) → Text → Bool
  | 0, _ => false
  | fuel + 1, pattern =>
      let directory := Path.parent pattern
      if !Wildcard.isPattern pattern then false
      else if directory ≠ pattern ∧ Wildcard.isPattern directory then isRefused base fuel directory
      else decide ('\x00' ∈ within base directory)

/-- Is the pattern refused, seen from a directory? -/
def refuses (cwd : Option Text) (pattern : Text) : Bool :=
  isRefused (cwd.getD []) (pattern.length + 1) pattern

/-- The paths that a pattern finds, seen from a directory, in code point order (`expand_glob`). The
pattern is none that is refused. -/
def expand (tree : Tree) (cwd : Option Text) (pattern : Text) : List Text :=
  Text.sort (find tree (cwd.getD []) pattern)

/-- The files that a pattern finds, seen from a directory, in code point order (`expand_glob` with
`files_only`). -/
def expandFiles (tree : Tree) (cwd : Option Text) (pattern : Text) : List Text :=
  let base := cwd.getD []
  Text.sort ((find tree base pattern).filter fun path => tree.isFile (Path.join base path))

/-- The pattern behind an exclamation mark. -/
def excluded? : Text → Option Text
  | '!' :: pattern => some pattern
  | _ => none

/-- Takes one more pattern into account: its paths are added in their order unless they are there
already, or taken away. -/
def addPattern (tree : Tree) (cwd : Option Text) (paths : List Text) (pattern : Text) : List Text :=
  match excluded? pattern with
  | some pattern =>
      let gone := expand tree cwd pattern
      paths.filter fun path => !gone.contains path
  | none =>
      (expand tree cwd pattern).foldl
        (fun paths path => if paths.contains path then paths else paths ++ [path]) paths

/-- Is one of the patterns refused? Those behind an exclamation mark are used too. -/
def refusesAny (cwd : Option Text) (patterns : List Text) : Bool :=
  patterns.any fun pattern => refuses cwd ((excluded? pattern).getD pattern)

/-- The paths that a list of patterns finds (`expand`). -/
def expandAll (tree : Tree) (cwd : Option Text) (patterns : List Text) : List Text :=
  patterns.foldl (addPattern tree cwd) []

end Splice.Glob
