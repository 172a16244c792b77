import Splice.Tree.Basic

/-!
# Changing a file tree

* `Tree.put` — sets what stands at a place;
* `Tree.makeDirectory`, `Tree.makeDirectories` — make a directory, the latter with all directories
  on the way to it;
* `Tree.placeForWriting` — where a path is written to, if it can be; and
* `Tree.changes` — the files that differ from those of an earlier tree.

Making several directories can stop half-way, so it gives the tree that is left together with the
outcome.
-/

namespace Splice.Tree

/-- Sets what stands at a place: in its old position if there is something, at the end otherwise. -/
def putEntry (place : Place) (entry : Entry) : List (Place × Entry) → List (Place × Entry)
  | [] => [(place, entry)]
  | (p, old) :: rest =>
      if p = place then (place, entry) :: rest else (p, old) :: putEntry place entry rest

/-- Sets what stands at a place other than the root. -/
def put (tree : Tree) (place : Place) (entry : Entry) : Tree :=
  if place = [] then tree else { tree with entries := putEntry place entry tree.entries }

/-- A path as its leading slashes and its names, without empty names and single dots. -/
structure Route where
  /-- The slashes at the beginning. -/
  root : Text
  /-- The names, last first. -/
  reversed : List Text
deriving DecidableEq, Repr

/-- The route that a path spells. -/
def Route.ofPath (path : Text) : Route := ⟨Path.root path, (Path.names path).reverse⟩

/-- The route to the directory above. -/
def Route.up (route : Route) : Route := { route with reversed := route.reversed.drop 1 }

/-- The route as a path. -/
def Route.toPath (route : Route) : Text :=
  let path := route.root ++ Path.ofNames route.reversed.reverse
  if path.isEmpty then ['.'] else path

/-- The directory and the name under which something new would stand. -/
def newPlace (tree : Tree) (route : Route) : Except Fault Place :=
  match route.reversed with
  | [] => .error .taken
  | name :: above =>
      if name = ['.', '.'] then
        -- Double dots lead to something that is there already, or nowhere.
        match tree.locate route.toPath with
        | .ok _ => .error .taken
        | .error fault => .error fault
      else
        match tree.locate (Route.toPath ⟨route.root, above⟩) with
        | .error fault => .error fault
        | .ok place =>
            match tree.entry? place with
            | some .directory =>
                if (tree.entry? (place ++ [name])).isSome then .error .taken
                else .ok (place ++ [name])
            | some (.file _) => .error .notDirectory
            | none => .error .missing

/-- Makes a directory; the one above it has to exist. -/
def makeDirectory (tree : Tree) (route : Route) : Except Fault Tree :=
  (tree.newPlace route).map fun place => tree.put place .directory

/-- Accepts a failure to make a directory where there is one. -/
def acceptDirectory (tree : Tree) (route : Route) (fault : Fault) :
    Except (Fault × Text) Unit :=
  if tree.isDirectory route.toPath then .ok () else .error (fault, route.toPath)

/-- Makes a directory and, where something on the way is missing, first the directories above it. An
error comes with the path that could not be made. -/
def makeDirectories (tree : Tree) (root : Text) :
    (reversed : List Text) → Tree × Except (Fault × Text) Unit
  | [] =>
      match tree.makeDirectory ⟨root, []⟩ with
      | .ok tree => (tree, .ok ())
      | .error fault => (tree, tree.acceptDirectory ⟨root, []⟩ fault)
  | name :: above =>
      match tree.makeDirectory ⟨root, name :: above⟩ with
      | .ok tree => (tree, .ok ())
      | .error .missing =>
          -- What is missing is the directory above: with it made, this one is tried again.
          match makeDirectories tree root above with
          | (tree, .error e) => (tree, .error e)
          | (tree, .ok ()) =>
              match tree.makeDirectory ⟨root, name :: above⟩ with
              | .ok tree => (tree, .ok ())
              | .error fault => (tree, tree.acceptDirectory ⟨root, name :: above⟩ fault)
      | .error fault => (tree, tree.acceptDirectory ⟨root, name :: above⟩ fault)

/-- The place of the file to be written: an existing file or a new one. -/
def placeForWriting (tree : Tree) (route : Route) : Except Fault Place :=
  match tree.locate route.toPath with
  | .ok place =>
      match tree.entry? place with
      | some .directory => .error .isDirectory
      | _ => .ok place
  | .error .missing => tree.newPlace route
  | .error fault => .error fault

/-- Does the same path stand for a file in the other tree, with the same bytes? -/
def unchanged (old : Tree) (place : Place) (bytes : Bytes) : Bool :=
  old.entry? place == some (.file bytes)

/-- The files that are new or differ from those of an earlier tree. -/
def changes (old new : Tree) : List (Place × Bytes) :=
  new.entries.filterMap fun (place, entry) =>
    match entry with
    | .directory => none
    | .file bytes => if old.unchanged place bytes then none else some (place, bytes)

/-- The tree with a directory, and those above it, at a place. -/
def withDirectory (tree : Tree) (place : Place) : Tree :=
  (List.range place.length).foldl
    (fun tree k =>
      let above := place.take (k + 1)
      if (tree.entry? above).isSome then tree else tree.put above .directory)
    tree

/-- The tree with a file at a place, and the directories above it. -/
def withFile (tree : Tree) (place : Place) (bytes : Bytes) : Tree :=
  (tree.withDirectory place.dropLast).put place (.file bytes)

end Splice.Tree
