import Splice.Proofs.Expansion.Docroot
import Splice.Proofs.Expansion.Entry

/-!
# Paths as patterns

The path of a directive is looked for below the directory of its document, and both together are one
pattern: a wildcard in the name of the directory does not stand for itself.

* `Expansion.filesOf` — the files of a directive;
* `Expansion.spelled` — the file that its path spells;
* `Expansion.filesOf_eq_spelled_iff` — when this is the one that is found; and
* `Expansion.includeDirective_bracketed` — a directory with brackets in its name.
-/

namespace Splice.Expansion

/-- The absolute path or pattern of a directive in a document of the directory, and the files that
it finds. -/
def filesOf (config : Config) (tree : Tree) (directory : Text) (directive : Directive) :
    Expand (Text × List Text) := do
  let path ← resolvePath config tree.cwd directive.path directory
  if Glob.refuses none path then Expand.fail (.file .nullInPath)
  else
    let files := Glob.expandFiles tree none path
    if files.isEmpty then Expand.warn (.includeNotFound path)
    return (path, files)

/-- The absolute path that a relative path spells. -/
def spelled (config : Config) (tree : Tree) (directory path : Text) : Text :=
  Path.absolute tree.cwd
    (Path.join (if config.includesDir.isEmpty then directory else config.includesDir) path)

variable {config : Config} {tree : Tree} {directory : Text} {directive : Directive}

/-- Within the bound a directive adds its files, and nothing else, to the empty text. -/
theorem includeDirective_eq_filesOf [Codecs] {depth : Nat} (h : (depth + 1 : Nat) ≤ config.maxDepth)
    (fuel : Nat) (expand : Text → Text → Expand Text) :
    includeDirective config tree fuel expand directory depth directive =
      (Expand.ofExcept (directive.bindings.mapError .directive)).andThen fun bindings =>
        (filesOf config tree directory directive).andThen fun (path, files) =>
          addFiles config tree fuel expand files [] (localsOf config tree path bindings) := by
  refine Expand.andThen_congr fun _ bindings _ => ?_
  have hfiles : filesOf config tree directory directive =
      (resolvePath config tree.cwd directive.path directory).andThen fun path =>
        if Glob.refuses none path then .fail (.file .nullInPath)
        else if (Glob.expandFiles tree none path).isEmpty then
          (Expand.warn (.includeNotFound path)).andThen fun _ =>
            .done (path, Glob.expandFiles tree none path)
        else .done (path, Glob.expandFiles tree none path) := rfl
  rw [hfiles, Expand.andThen_assoc]
  refine Expand.andThen_congr fun _ path _ => ?_
  rw [includeContents, if_neg (Int.not_lt.mpr h)]
  split
  · rfl
  · simp only
    split
    · rw [Expand.andThen_assoc]
      refine Expand.andThen_congr fun _ _ _ => ?_
      exact (Expand.done_andThen _ _).symm
    · exact (Expand.done_andThen _ _).symm

/-- A relative path finds this one file without a warning just if it does so as a pattern. -/
theorem filesOf_eq_done_iff (h : Path.isAbsolute directive.path = false) {file : Text} :
    filesOf config tree directory directive = .done (file, [file]) ↔
      spelled config tree directory directive.path = file ∧
        Glob.expandFiles tree none file = [file] := by
  have hpath : resolvePath config tree.cwd directive.path directory =
      .done (spelled config tree directory directive.path) := by
    rw [resolvePath, if_neg (by simp [h])]
    rfl
  have hfiles : filesOf config tree directory directive =
      (Expand.done (spelled config tree directory directive.path)).andThen fun path =>
        if Glob.refuses none path then .fail (.file .nullInPath)
        else if (Glob.expandFiles tree none path).isEmpty then
          (Expand.warn (.includeNotFound path)).andThen fun _ =>
            .done (path, Glob.expandFiles tree none path)
        else .done (path, Glob.expandFiles tree none path) := by
    rw [← hpath]
    rfl
  rw [hfiles, Expand.done_andThen]
  constructor
  · intro hfound
    split at hfound
    · cases hfound
    split at hfound
    · cases hfound
    · have hpair := Except.ok.inj (Prod.mk.inj (Option.some.inj hfound)).2
      obtain ⟨hspelled, hlist⟩ := Prod.mk.inj hpair
      rw [hspelled] at hlist
      exact ⟨hspelled, hlist⟩
  · intro h
    obtain ⟨hspelled, hfound⟩ := h
    have hrefused : ¬ Glob.refuses none file = true := fun hrefused => by
      rw [Glob.expandFiles_of_refuses hrefused] at hfound
      cases hfound
    rw [hspelled, if_neg hrefused, hfound]
    rfl

/-- A pattern finds one file only: every file that fits its names is this one. -/
theorem expandFiles_eq_singleton_iff (hproper : tree.Proper) {root : Text} {names : List Text}
    (hroot : Path.IsRoot root) (hnames : ∀ name ∈ names, Path.IsName name)
    (hany : Glob.anyWay ∉ names) (hfile : tree.isFile (Path.rooted root names) = true) :
    Glob.expandFiles tree none (Path.rooted root names) = [Path.rooted root names] ↔
      Glob.FitsAll names names ∧ ∀ others, (∀ name ∈ others, Path.IsName name) →
        tree.isFile (Path.rooted root others) = true → Glob.FitsAll names others →
        others = names := by
  have hmem (file : Text) : file ∈ Glob.expandFiles tree none (Path.rooted root names) ↔
      tree.isFile file = true ∧ ∃ others, (∀ name ∈ others, Path.IsName name) ∧
        file = Path.rooted root others ∧ Glob.FitsAll names others :=
    Glob.mem_expandFiles_iff hproper hroot hnames hany
  constructor
  · intro hfound
    refine ⟨?_, fun others hothers hother hfits => ?_⟩
    · have hself :
          Path.rooted root names ∈ Glob.expandFiles tree none (Path.rooted root names) := by
        rw [hfound]
        exact List.mem_singleton_self _
      obtain ⟨-, others, hothers, heq, hfits⟩ := (hmem _).mp hself
      rwa [← ((Path.rooted_inj hroot hroot hnames hothers).mp heq).2] at hfits
    · have hmember := (hmem _).mpr ⟨hother, others, hothers, rfl, hfits⟩
      rw [hfound, List.mem_singleton] at hmember
      exact ((Path.rooted_inj hroot hroot hothers hnames).mp hmember).2
  · intro ⟨hself, hunique⟩
    -- Otherwise nothing is found, or another file.
    by_contra hne
    have hnodup := Glob.nodup_expandFiles hproper hroot hnames hany
    rcases (hnodup.ne_singleton_iff _).mp hne with hnil | ⟨file, hfound, hdiffers⟩
    · have hmember := (hmem _).mpr ⟨hfile, names, hnames, rfl, hself⟩
      rw [hnil] at hmember
      exact List.not_mem_nil hmember
    · obtain ⟨hother, others, hothers, rfl, hfits⟩ := (hmem _).mp hfound
      rw [hunique others hothers hother hfits] at hdiffers
      exact hdiffers rfl

/-- A relative path that spells a file finds just this file if nothing on the way to it is a
wildcard pattern, also not in the name of the directory where it starts. If there are such names,
then it does so just if the file and no other fits them. -/
theorem filesOf_eq_spelled_iff (hproper : tree.Proper)
    (hrelative : Path.isAbsolute directive.path = false)
    (hfile : tree.isFile (spelled config tree directory directive.path) = true) :
    let file := spelled config tree directory directive.path
    (Wildcard.isPattern file = false →
      filesOf config tree directory directive = .done (file, [file])) ∧
    (Glob.anyWay ∉ Path.names file →
      (filesOf config tree directory directive = .done (file, [file]) ↔
        Glob.FitsAll (Path.names file) (Path.names file) ∧
          ∀ others, (∀ name ∈ others, Path.IsName name) →
            tree.isFile (Path.rooted (Path.root file) others) = true →
            Glob.FitsAll (Path.names file) others → others = Path.names file)) := by
  intro file
  have hfound : filesOf config tree directory directive = .done (file, [file]) ↔
      Glob.expandFiles tree none file = [file] :=
    (filesOf_eq_done_iff hrelative).trans (and_iff_right rfl)
  refine ⟨fun hplain => hfound.mpr (Glob.expandFiles_of_isFile hplain hfile), fun hany => ?_⟩
  obtain ⟨root, names, hroot, hnames, heq⟩ : ∃ root names, Path.IsRoot root ∧
      (∀ name ∈ names, Path.IsName name) ∧ file = Path.rooted root names :=
    Path.exists_absolute_eq_rooted hproper.absolute _
  have hfile' : tree.isFile file = true := hfile
  rw [hfound]
  rw [heq] at hfile' hany ⊢
  rw [Path.names_rooted hroot hnames] at hany ⊢
  rw [Path.root_rooted hroot hnames]
  exact expandFiles_eq_singleton_iff hproper hroot hnames hany hfile'

/-! ### Brackets -/

/-- Three directories, of which the first is named like a pattern for the second. The bracket in the
name of the third is never closed. -/
def bracketed : Tree where
  cwd := "/site"
  entries := [(["site"], .directory), (["site", "[a]"], .directory),
    (["site", "[a]", "x"], .file (Encoding.encodeUtf8 "right")), (["site", "a"], .directory),
    (["site", "a", "x"], .file (Encoding.encodeUtf8 "wrong")), (["site", "b["], .directory),
    (["site", "b[", "x"], .file (Encoding.encodeUtf8 "alone"))]

theorem eq_of_fits_unclosed {name : Text} (h : Glob.fits "b[" name = true) : name = "b[" := by
  have hwildcard : Wildcard.ofText "b[" = [.char 'b', .char '['] := by decide
  have hfits : Wildcard.fits (Wildcard.ofText "b[") name = true := by
    have hpattern : Wildcard.isPattern "b[" = true := by decide
    rw [Glob.fits, if_pos hpattern, Bool.and_eq_true] at h
    exact h.2
  rw [hwildcard] at hfits
  cases name with
  | nil => cases hfits
  | cons c rest =>
    cases rest with
    | nil => simp [Wildcard.fits] at hfits
    | cons d rest =>
      simp only [Wildcard.fits, Bool.and_eq_true, beq_iff_eq, List.isEmpty_iff] at hfits
      obtain ⟨hc, hd, hrest⟩ := hfits
      rw [← hc, ← hd, hrest]
      rfl

theorem eq_of_fitsAll_unclosed {others : List Text}
    (h : Glob.FitsAll (["site", "b[", "x"] : List Text) others) :
    others = (["site", "b[", "x"] : List Text) := by
  match others, h with
  | [first, second, third], .cons hfirst (.cons hsecond (.cons hthird .nil)) =>
    have hsite : Wildcard.isPattern "site" = false := by decide
    have hx : Wildcard.isPattern "x" = false := by decide
    rw [← (Glob.fits_iff_eq hsite).mp hfirst, eq_of_fits_unclosed hsecond,
      ← (Glob.fits_iff_eq hx).mp hthird]

/-- A name finds its file in the directory without brackets, and also behind the bracket that is
never closed, since this bracket stands for itself. -/
theorem filesOf_unclosed :
    (Wildcard.isPattern "/site/a/x" = false ∧
      filesOf {} bracketed "/site/a" (naming "x") =
        .done ("/site/a/x", (["/site/a/x"] : List Text))) ∧
    Wildcard.isPattern "/site/b[/x" = true ∧
      filesOf {} bracketed "/site/b[" (naming "x") =
        .done ("/site/b[/x", (["/site/b[/x"] : List Text)) := by
  refine ⟨⟨by decide, ?_⟩, by decide, ?_⟩
  · exact (filesOf_eq_spelled_iff (by decide) (by decide) (by decide)).1 (by decide)
  · have hproper : bracketed.Proper := by decide
    have hrelative : Path.isAbsolute (naming "x").path = false := by decide
    have hfile : bracketed.isFile (spelled {} bracketed "/site/b[" (naming "x").path) = true := by
      decide
    have hfits := (filesOf_eq_spelled_iff hproper hrelative hfile).2 (by decide)
    refine hfits.mpr ⟨by decide, ?_⟩
    intro others _ _ hothers
    exact eq_of_fitsAll_unclosed hothers

/-- In the directory with brackets it finds, without a warning, the file of the other. -/
theorem includeDirective_bracketed :
    spelled {} bracketed "/site/[a]" "x" = "/site/[a]/x" ∧
      bracketed.isFile "/site/[a]/x" = true ∧
      filesOf {} bracketed "/site/[a]" (naming "x") =
        .done ("/site/[a]/x", (["/site/a/x"] : List Text)) ∧
      includeDirective {} bracketed 3 (fun text inner => expandIncludes {} bracketed 3 inner 1 text)
        "/site/[a]" 0 (naming "x") = .done "wrong" := by
  have hfiles : filesOf {} bracketed "/site/[a]" (naming "x") =
      .done ("/site/[a]/x", (["/site/a/x"] : List Text)) := by
    have hresolve :
        resolvePath {} bracketed.cwd (naming "x").path "/site/[a]" = .done "/site/[a]/x" :=
      rfl
    have hfound : Glob.expandFiles bracketed none "/site/[a]/x" = (["/site/a/x"] : List Text) := by
      decide +kernel
    rw [filesOf, hresolve]
    refine (Expand.done_andThen _ _).trans ?_
    rw [hfound]
    rfl
  have hread : File.read bracketed "/site/a/x" "utf-8" = .ok "wrong" := by cbv
  have hway : Path.toDocroot bracketed.cwd "/site/[a]/x" "." = "../" := by decide
  have hlocals : localsOf {} bracketed "/site/[a]/x" [] = wayThere "../" := localsOf_nil hway
  have hsubstitute : substitute {} bracketed 3 (wayThere "../") "wrong" = .done "wrong" := by cbv
  have hexpanded : expandIncludes {} bracketed 3 "/site/a" 1 "wrong" = .done "wrong" := by cbv
  have hparent : Path.parent "/site/a/x" = "/site/a" := by decide
  have hdepth : ((0 + 1 : Nat) : Int) ≤ 100 := by decide
  refine ⟨by decide, by decide, hfiles, ?_⟩
  calc
    includeDirective {} bracketed 3 (fun text inner => expandIncludes {} bracketed 3 inner 1 text)
          "/site/[a]" 0 (naming "x") =
        addFiles {} bracketed 3 (fun text inner => expandIncludes {} bracketed 3 inner 1 text)
          (["/site/a/x"] : List Text) [] (wayThere "../") := by
      rw [includeDirective_eq_filesOf hdepth, hfiles, ← hlocals]
      exact (Expand.done_andThen _ _).trans (Expand.done_andThen _ _)
    _ = .done "wrong" := by
      rw [addFiles_single rfl hread, hsubstitute, Expand.done_andThen, hparent, hexpanded]

end Splice.Expansion
