import Splice.Proofs.Path.Climbing
import Splice.Proofs.Runner.Changing
import Splice.Proofs.Runner.Frame

/-!
# Directories as destinations

Below a directory each source is written under its own path, which is the source without the slashes
in front. Where it leads depends on how far that path leads up, and on the names that it then leads
down.

* `Runner.placeOf_destinationFor`, `Runner.placeOf_sourcePath_eq` — where a source is written, and
  where it stands;
* `Runner.Comparable` — two sources that differ in nothing but the names that they lead down; and
* `Runner.destinations_in_directory` — which destinations are below the directory, which are
  different files, and which files a run changes.
-/

namespace Splice.Runner

variable {tree : Tree} {source other dest : Text}

/-! ### Own paths -/

/-- The path under which a source is written below a directory. -/
def ownPath (source : Text) : Text := source.dropWhile fun c => decide (c = '/' ∨ c = '\\')

theorem destinationFor_directory (hdest : isDirectoryDest dest = true) :
    destinationFor source dest = Path.join dest (ownPath source) := if_pos hdest

theorem isAbsolute_ownPath (source : Text) : Path.isAbsolute (ownPath source) = false := by
  cases hown : ownPath source with
  | nil => rfl
  | cons c rest =>
    have hhead := List.head?_dropWhile_not (fun c => decide (c = '/' ∨ c = '\\')) source
    have hfirst : (source.dropWhile fun c => decide (c = '/' ∨ c = '\\')).head? = some c := by
      rw [← ownPath, hown]
      rfl
    rw [hfirst] at hhead
    have hc : c ≠ '/' := fun hc => by simp [hc] at hhead
    simp [Path.isAbsolute, hc]

theorem names_dropWhile_slash (path : Text) :
    Path.names (path.dropWhile (· = '/')) = Path.names path := by
  induction path with
  | nil => rfl
  | cons c path ih =>
    rw [List.dropWhile_cons]
    split
    · rename_i hc
      rw [ih, of_decide_eq_true hc, Path.names_slash]
    · rfl

/-! ### Where sources stand and where they are written -/

/-- The place to which a path leads from another one: up first, and then down. -/
def placeFrom (place : Place) (path : Text) : Place :=
  place.take (place.length - Path.rise path) ++ Path.descent path

theorem placeFrom_inj {place : Place} {path path' : Text} (h : Path.rise path = Path.rise path') :
    placeFrom place path = placeFrom place path' ↔ Path.descent path = Path.descent path' := by
  rw [placeFrom, placeFrom, h, List.append_cancel_left_eq]

/-- A path that leads up leads back into the place where it has started by repeating its last
names. -/
theorem placeFrom_eq_append_iff {place : Place} {path : Text} {names : List Text} :
    placeFrom place path = place ++ names ↔
      Path.descent path = place.drop (place.length - Path.rise path) ++ names := by
  have hsplit := List.take_append_drop (place.length - Path.rise path) place
  constructor
  · intro h
    rw [placeFrom] at h
    conv_rhs at h => rw [← hsplit]
    rw [List.append_assoc] at h
    exact List.append_cancel_left h
  · intro h
    rw [placeFrom, h, ← List.append_assoc, hsplit]

theorem placeOf_destinationFor (tree : Tree) (source : Text) (hdest : isDirectoryDest dest = true) :
    tree.placeOf (destinationFor source dest) = placeFrom (tree.placeOf dest) (ownPath source) := by
  rw [destinationFor_directory hdest, Tree.placeOf_join_eq tree dest (isAbsolute_ownPath source)]
  rfl

/-- The place from which a source leads. -/
def sourceStart (tree : Tree) (cwd : Option Text) (source : Text) : Place :=
  if Path.isAbsolute source then [] else tree.placeOf (cwd.getD [])

theorem placeOf_sourcePath_walk (tree : Tree) (cwd : Option Text) (source : Text) :
    tree.placeOf (sourcePath cwd source) =
      Tree.walk (sourceStart tree cwd source) (Path.names source) := by
  rw [placeOf_sourcePath, sourceStart]
  cases habsolute : Path.isAbsolute source with
  | true =>
    have hwithin : Glob.within (cwd.getD []) source = source := by
      unfold Glob.within
      split
      · rfl
      · split
        · rename_i hempty
          rw [List.isEmpty_iff.mp hempty] at habsolute
          cases habsolute
        · exact if_pos habsolute
    rw [hwithin, Tree.placeOf_eq_walk_names, Tree.startOf, habsolute]
    rfl
  | false =>
    rw [Glob.placeOf_within tree _ habsolute, ← Tree.walk_filter]
    rfl

/-- Nothing but slashes is left out in front of a source. -/
def OnlySlashes (source : Text) : Prop := ownPath source = source.dropWhile (· = '/')

theorem placeOf_sourcePath_eq (tree : Tree) (cwd : Option Text) (h : OnlySlashes source) :
    tree.placeOf (sourcePath cwd source) =
      placeFrom (sourceStart tree cwd source) (ownPath source) := by
  have hnames : Path.names source = Path.names (ownPath source) := by
    rw [h, names_dropWhile_slash]
  rw [placeOf_sourcePath_walk, hnames, Tree.walk_names (isAbsolute_ownPath source)]
  rfl

/-- The sources differ in nothing but the names that they lead down. -/
structure Comparable (source other : Text) : Prop where
  onlySlashes : OnlySlashes source
  onlySlashes' : OnlySlashes other
  absolute : Path.isAbsolute source = Path.isAbsolute other
  rise : Path.rise (ownPath source) = Path.rise (ownPath other)

/-- Such sources are the same file just if their destinations are. -/
theorem Comparable.placeOf_eq_iff (h : Comparable source other) (tree : Tree) (cwd : Option Text)
    (hdest : isDirectoryDest dest = true) :
    tree.placeOf (destinationFor source dest) = tree.placeOf (destinationFor other dest) ↔
      tree.placeOf (sourcePath cwd source) = tree.placeOf (sourcePath cwd other) := by
  have hstart : sourceStart tree cwd source = sourceStart tree cwd other := by
    rw [sourceStart, sourceStart, h.absolute]
  rw [placeOf_destinationFor tree source hdest, placeOf_destinationFor tree other hdest,
    placeOf_sourcePath_eq tree cwd h.onlySlashes, placeOf_sourcePath_eq tree cwd h.onlySlashes',
    hstart, placeFrom_inj h.rise, placeFrom_inj h.rise]

/-! ### Below the directory -/

theorem root_destinationFor (hcwd : Path.isAbsolute tree.cwd = true) (source : Text)
    (hdest : isDirectoryDest dest = true) :
    Path.root (Path.join tree.cwd (destinationFor source dest)) =
      Path.root (Path.join tree.cwd dest) := by
  have hne : dest ≠ [] := by
    intro hnil
    rw [hnil] at hdest
    cases hdest
  rw [destinationFor_directory hdest, Path.join_assoc hne]
  exact Path.root_join (isAbsolute_ownPath source) (Path.isAbsolute_join hcwd dest)

/-- A source leads back into the directory, after it has led up, and on to something below. -/
def LeadsBack (place : Place) (source : Text) : Prop :=
  ∃ names, names ≠ [] ∧
    Path.descent (ownPath source) = place.drop (place.length - Path.rise (ownPath source)) ++ names

/-- The destinations that are below the directory. -/
theorem liesBelow_destinationFor_iff (hcwd : Path.isAbsolute tree.cwd = true) (source : Text)
    (hdest : isDirectoryDest dest = true) :
    Path.LiesBelow (Path.absolute tree.cwd dest)
      (Path.absolute tree.cwd (destinationFor source dest)) ↔
      LeadsBack (tree.placeOf dest) source := by
  rw [Tree.liesBelow_absolute_iff hcwd, placeOf_destinationFor tree source hdest,
    and_iff_right (root_destinationFor hcwd source hdest)]
  exact exists_congr fun names => and_congr_right fun _ => placeFrom_eq_append_iff

/-- A path that does not lead up leads into the directory. -/
theorem prefix_placeFrom {place : Place} {path : Text} (h : Path.rise path = 0) :
    place <+: placeFrom place path := by
  rw [placeFrom, h, Nat.sub_zero, List.take_length]
  exact List.prefix_append _ _

/-- A destination is strictly below the directory just if the own path of its source leads to
something there, and back into the directory if it leads up. Sources that lead up equally far have
the same destination just if they are the same file. However a run ends, a file that it changes is
the destination of a source that it has found, and in the directory unless the source leads up. -/
theorem destinations_in_directory [Codecs] (runner : Runner) (hclosed : runner.tree.Closed)
    (cwd : Option Text) (hdest : isDirectoryDest dest = true) :
    (∀ source, Path.LiesBelow (Path.absolute runner.tree.cwd dest)
          (Path.absolute runner.tree.cwd (destinationFor source dest)) ↔
        LeadsBack (runner.tree.placeOf dest) source) ∧
      (∀ source other, Comparable source other →
        (runner.tree.placeOf (destinationFor source dest) =
            runner.tree.placeOf (destinationFor other dest) ↔
          runner.tree.placeOf (sourcePath cwd source) =
            runner.tree.placeOf (sourcePath cwd other))) ∧
      ∀ config fuel left result place, run config fuel runner = some (left, result) →
        left.tree.bytes? place ≠ runner.tree.bytes? place →
          ∃ mapping source, Finds config fuel mapping source config.files runner.fresh ∧
            place = runner.tree.placeOf (destinationFor source mapping.dest) ∧
            (isDirectoryDest mapping.dest = true → Path.rise (ownPath source) = 0 →
              runner.tree.placeOf mapping.dest <+: place) := by
  refine ⟨fun source => ?_, fun source other hcomparable => ?_, ?_⟩
  · exact liesBelow_destinationFor_iff hclosed.absolute source hdest
  · exact hcomparable.placeOf_eq_iff runner.tree cwd hdest
  · intro config fuel left result place hrun hchanged
    obtain ⟨mapping, source, hfinds, hplace⟩ := exists_finds_of_changed hclosed hrun hchanged
    refine ⟨mapping, source, hfinds, hplace, fun hdirectory hrise => ?_⟩
    rw [hplace, placeOf_destinationFor runner.tree source hdirectory]
    exact prefix_placeFrom hrise

/-! ### Sites -/

/-- A site with a page beside a directory. -/
def besideSub : Tree where
  cwd := "/w"
  entries := [(["w"], .directory), (["w", "a"], .file (Encoding.encodeUtf8 "@@docroot|")),
    (["w", "sub"], .directory)]

/-- The page is found from the directory, and written into another one. -/
def fromSub : Config where
  files := [{ sources := ["../a"], dest := "out/", cwd := some "sub" }]

/-- What the run does to the page. -/
theorem run_fromSub :
    (run fromSub 3 { tree := besideSub }).map (fun outcome => outcome.1.tree.bytes? ["w", "a"]) =
      some (some (Encoding.encodeUtf8 "|")) := by
  decide +kernel

/-- The page is found where it stands, and written into another directory. -/
def fromHere : Config where
  files := [{ sources := ["a"], dest := "out/" }]

/-- What the run makes of the page. -/
theorem run_fromHere :
    (run fromHere 3 { tree := besideSub }).map
      (fun outcome => outcome.1.tree.bytes? ["w", "out", "a"]) =
      some (some (Encoding.encodeUtf8 "|")) := by
  decide +kernel

/-- Sources that do not lead up have destinations below the directory, and different ones; the page
that a run has changed is the destination of a source that it has found, and what another run has
made of it is in the directory. -/
theorem destinations_besideSub :
    besideSub.Closed ∧ isDirectoryDest "out/" = true ∧
      Path.LiesBelow (Path.absolute besideSub.cwd "out/")
        (Path.absolute besideSub.cwd (destinationFor "sub/../a" "out/")) ∧
      Comparable "a" "sub" ∧
      besideSub.placeOf (destinationFor "a" "out/") ≠
        besideSub.placeOf (destinationFor "sub" "out/") ∧
      (∃ mapping source, Finds fromSub 3 mapping source fromSub.files { tree := besideSub } ∧
        (["w", "a"] : Place) = besideSub.placeOf (destinationFor source mapping.dest)) ∧
      besideSub.placeOf "out/" <+: ["w", "out", "a"] := by
  have hcomparable : Comparable "a" "sub" := ⟨rfl, rfl, by decide, by decide⟩
  obtain ⟨hbelow, happart, hchanges⟩ :=
    destinations_in_directory { tree := besideSub } (by decide) (some "sub")
      (by decide : isDirectoryDest "out/" = true)
  refine ⟨by decide, by decide, (hbelow _).mpr ⟨["a"], by decide, by decide⟩,
    hcomparable, ?_, ?_, ?_⟩
  · intro heq
    have hsame := (happart _ _ hcomparable).mp heq
    exact absurd hsame (by decide)
  · obtain ⟨⟨left, result⟩, hrun, hbytes⟩ := Option.map_eq_some_iff.mp run_fromSub
    have hchanged : left.tree.bytes? ["w", "a"] ≠ besideSub.bytes? ["w", "a"] := by
      rw [hbytes]
      decide
    obtain ⟨mapping, source, hfinds, hplace, -⟩ := hchanges fromSub 3 left result _ hrun hchanged
    exact ⟨mapping, source, hfinds, hplace⟩
  · obtain ⟨⟨left, result⟩, hrun, hbytes⟩ := Option.map_eq_some_iff.mp run_fromHere
    have hchanged : left.tree.bytes? ["w", "out", "a"] ≠ besideSub.bytes? ["w", "out", "a"] := by
      rw [hbytes]
      decide
    obtain ⟨mapping, source, hfinds, -, hinside⟩ := hchanges fromHere 3 left result _ hrun hchanged
    obtain ⟨rfl, -, hsource⟩ := finds_single_iff.mp hfinds
    have hfound : Glob.expandAll besideSub none ["a"] = ["a"] := by decide +kernel
    obtain rfl : source = "a" := by
      have hmem : source ∈ Glob.expandAll besideSub none ["a"] := hsource
      rw [hfound] at hmem
      exact List.mem_singleton.mp hmem
    exact hinside (by decide) (by decide)

/-- A site with two pages, of which one has a backslash in front of its name. -/
def twinPages : Tree where
  cwd := "/w"
  entries := [(["w"], .directory), (["w", "a"], .file (Encoding.encodeUtf8 "1")),
    (["w", "\\a"], .file (Encoding.encodeUtf8 "2"))]

/-- A source that leads up has a destination outside the directory, which here is the source itself,
so that the run overwrites it; and a source with a backslash in front has the destination of another
one. -/
theorem destinations_outside_directory :
    (besideSub.Closed ∧ isDirectoryDest "out/" = true ∧
      Glob.expandAll besideSub (some "sub") ["../a"] = ["../a"] ∧
      ¬ Path.LiesBelow (Path.absolute besideSub.cwd "out/")
        (Path.absolute besideSub.cwd (destinationFor "../a" "out/")) ∧
      besideSub.placeOf (sourcePath (some "sub") "../a") = ["w", "a"] ∧
      besideSub.placeOf (destinationFor "../a" "out/") = ["w", "a"] ∧
      besideSub.bytes? ["w", "a"] = some (Encoding.encodeUtf8 "@@docroot|") ∧
      (run fromSub 3 { tree := besideSub }).map (fun outcome => outcome.1.tree.bytes? ["w", "a"]) =
        some (some (Encoding.encodeUtf8 "|"))) ∧
      (twinPages.Closed ∧
        Glob.expandAll twinPages none ["\\a", "a"] = [("\\a" : Text), ("a" : Text)] ∧
        twinPages.placeOf (destinationFor "\\a" "out/") =
          twinPages.placeOf (destinationFor "a" "out/") ∧
        twinPages.placeOf (sourcePath none "\\a") ≠ twinPages.placeOf (sourcePath none "a")) := by
  have houtside : ¬ Path.LiesBelow (Path.absolute besideSub.cwd "out/")
      (Path.absolute besideSub.cwd (destinationFor "../a" "out/")) := by
    intro hbelow
    obtain ⟨-, names, hne, hplace⟩ := (Tree.liesBelow_absolute_iff (by decide) _ _).mp hbelow
    have hout : besideSub.placeOf "out/" = ["w", "out"] := by decide
    have hdest : besideSub.placeOf (destinationFor "../a" "out/") = ["w", "a"] := by decide
    rw [hout, hdest] at hplace
    cases hplace
  refine ⟨⟨by decide, by decide, by decide +kernel, houtside, by decide, by decide, by decide,
    run_fromSub⟩, by decide, by decide +kernel, by decide, by decide⟩

end Splice.Runner
