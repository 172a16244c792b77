import Splice.Text.Basic

/-!
# Paths

A path is a text; its names are separated by slashes. Everything here is lexical: no file is looked
at. A path is absolute if it begins with a slash, and exactly two leading slashes are kept apart
from one.

* `Path.join`, `Path.parent`, `Path.leaf` — putting paths together and taking them apart;
* `Path.normalize` — without `.`, `..` where it can be resolved, and repeated slashes;
* `Path.absolute`, `Path.resolve` — seen from a working directory;
* `Path.plain` — without single dots and repeated slashes only; and
* `Path.relative` — the way from one directory to another place.
-/

namespace Splice.Path

/-- Does the path begin at the root? -/
def isAbsolute : Text → Bool
  | '/' :: _ => true
  | _ => false

/-- The second path seen from the first. -/
def join (base path : Text) : Text :=
  if isAbsolute path then path
  else if base.isEmpty || base.getLast? = some '/' then base ++ path
  else base ++ '/' :: path

/-- The text behind the last slash. -/
def leaf (path : Text) : Text := (path.reverse.takeWhile (· ≠ '/')).reverse

/-- The text up to the last slash, without the slashes at its end unless it is made of them. -/
def parent (path : Text) : Text :=
  let head := (path.reverse.dropWhile (· ≠ '/')).reverse
  if head.all (· = '/') then head else (head.reverse.dropWhile (· = '/')).reverse

/-- The names of a path, without empty ones and single dots. -/
def names (path : Text) : List Text :=
  (Text.pieces '/' path).filter fun name => name ≠ [] ∧ name ≠ ['.']

/-- The slashes that a normalized path keeps at its beginning: none, one, or two if there are
exactly two. -/
def root : Text → Text
  | '/' :: '/' :: '/' :: _ => ['/']
  | '/' :: '/' :: _ => ['/', '/']
  | '/' :: _ => ['/']
  | _ => []

/-- Takes one more name onto a path whose names are given last first. A double dot takes the last
name away; at the root it has no effect, and before the first name of a relative path it stays. -/
def push (rooted : Bool) (stack : List Text) (name : Text) : List Text :=
  if name = ['.', '.'] then
    match stack with
    | [] => if rooted then [] else [name]
    | top :: rest => if top = ['.', '.'] then name :: stack else rest
  else name :: stack

/-- The names of the normalized path. -/
def normalNames (path : Text) : List Text :=
  ((names path).foldl (push (isAbsolute path)) []).reverse

/-- The names joined by slashes. -/
def ofNames (names : List Text) : Text := List.intercalate ['/'] names

/-- The path without single dots, repeated slashes, and double dots that can be resolved. The empty
path is the directory itself. -/
def normalize (path : Text) : Text :=
  let normal := root path ++ ofNames (normalNames path)
  if normal.isEmpty then ['.'] else normal

/-- The path as seen from the root, when relative paths start at `cwd`. -/
def absolute (cwd path : Text) : Text := normalize (join cwd path)

/-- The path as seen from the root, with a single slash at its beginning. -/
def resolve (cwd path : Text) : Text := '/' :: ofNames (normalNames (join cwd path))

/-- The path without single dots and repeated slashes. Double dots stay. -/
def plain (path : Text) : Text :=
  let short := root path ++ ofNames (names path)
  if short.isEmpty then ['.'] else short

/-- The length of the common lead of two lists of names. -/
def commonLead : List Text → List Text → Nat
  | a :: as, b :: bs => if a = b then commonLead as bs + 1 else 0
  | _, _ => 0

/-- The way to `target` from the directory `start`; both are absolute. -/
def relative (target start : Text) : Text :=
  let target := normalNames target
  let start := normalNames start
  let shared := commonLead start target
  let steps := List.replicate (start.length - shared) ['.', '.'] ++ target.drop shared
  if steps.isEmpty then ['.'] else ofNames steps

/-- The way from the directory of a file to the directory `docroot`, with a slash at its end so that
a name can follow (`compute_docroot`); it is empty if the two directories are the same. -/
def toDocroot (cwd file docroot : Text) : Text :=
  let way := relative (absolute cwd docroot) (parent (absolute cwd file))
  let way := way.map fun c => if c = '\\' then '/' else c
  if way = ['.'] then [] else way ++ ['/']

end Splice.Path
