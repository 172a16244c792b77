import Splice.Proofs.Expansion.Scans
import Splice.Proofs.Glob.Matching
import Splice.Proofs.Path.Docroot

/-!
# The way to the root of the documents

A directive computes the way to the root of the documents once, from its path or pattern, and all of
its files are expanded for this way.

* `Expansion.Proceeds`, `Expansion.Turn` — how the files of a directive come one after the other;
* `Expansion.Meets` — files from which the way leads to the root of the documents;
* `Expansion.docroot_leads_back` — these are all files, unless a name of the pattern stands for any
  way down; and
* `Expansion.docroot_leads_astray` — a file that is found on a longer way down than the pattern
  shows.
-/

namespace Splice.Expansion

variable (config : Config) (tree : Tree)

/-! ### Turns -/

section

variable [Codecs]

/-- Files are added to a text at some depth, until only the last of them are left. -/
inductive Proceeds (depth : Nat) :
    List Text → Text → Bindings Json → List Text → Text → Bindings Json → Prop
  /-- No file has been added. -/
  | refl {files : List Text} {text : Text} {locals : Bindings Json} :
      Proceeds depth files text locals files text locals
  /-- The first file has been added. -/
  | next {file text document expanded text' last : Text} {files rest : List Text}
      {locals locals' final : Bindings Json} {warnings more : List Warning} :
      Scan.Buffer config tree file files text locals document →
      Expanded config tree (Path.parent file) depth document warnings (.ok expanded) →
      applyHook config expanded locals file = some (more, .ok (text', locals')) →
      Proceeds depth files text' locals' rest last final →
      Proceeds depth (file :: files) text locals rest last final

/-- A directive of this path or pattern, in a document of the directory with `depth` includes around
it, comes to the file and expands it for these variables. -/
inductive Turn (directory : Text) (depth : Nat) (directive : Directive) (pattern file : Text)
    (locals : Bindings Json) : Prop
  | mk {bindings : Bindings Json} {warnings : List Warning} {rest : List Text} {text : Text} :
      directive.bindings = .ok bindings →
      resolvePath config tree.cwd directive.path directory = some (warnings, .ok pattern) →
      (depth + 1 : Nat) ≤ config.maxDepth →
      Proceeds config tree (depth + 1) (Glob.expandFiles tree none pattern) []
        (localsOf config tree pattern bindings) (file :: rest) text locals →
      Turn directory depth directive pattern file locals

end

/-- The hook, if there is one, leaves the way to the root of the documents as it is. -/
def KeepsDocroot : Prop :=
  ∀ text locals file more text' locals',
    applyHook config text locals file = some (more, .ok (text', locals')) →
      Bindings.get? docrootName locals' = Bindings.get? docrootName locals

/-- The directory of the file, without as many names as the way climbs from the directory of the
pattern, is what this directory shares with the root of the documents. -/
def Meets (pattern file : Text) : Prop :=
  let start := Path.normalNames (Path.parent pattern)
  let target := Path.normalNames (Path.absolute tree.cwd config.docroot)
  let down := Path.normalNames (Path.parent file)
  Path.root pattern = Path.root (Path.absolute tree.cwd config.docroot) ∧
    down.take (down.length - Path.climb start target) = target.take (Path.commonLead start target)

variable {config} {tree} {depth : Nat} {files rest : List Text} {text last file pattern : Text}
  {locals final : Bindings Json} {directory : Text} {directive : Directive}

theorem keepsDocroot_of_none (h : config.hook = none) : KeepsDocroot config := by
  intro text locals file more text' locals' hhook
  rw [applyHook, h] at hhook
  cases hhook
  rfl

/-- A directive that does not bind the name itself computes the way for its path or pattern. -/
theorem get?_localsOf {bindings : Bindings Json} (h : Bindings.get? docrootName bindings = none) :
    Bindings.get? docrootName (localsOf config tree pattern bindings) =
      some (docrootOf config tree pattern) := by
  rw [localsOf, h, if_neg (by simp), Bindings.get?_set, if_pos rfl]

theorem resolvePath_rooted (hcwd : Path.isAbsolute tree.cwd = true) {path : Text}
    {warnings : List Warning}
    (h : resolvePath config tree.cwd path directory = some (warnings, .ok pattern)) :
    ∃ root patterns, Path.IsRoot root ∧ (∀ name ∈ patterns, Path.IsName name) ∧
      pattern = Path.rooted root patterns := by
  have habsolute : ∃ other, pattern = Path.absolute tree.cwd other := by
    unfold resolvePath at h
    split at h
    · simp only at h
      split at h <;> cases h <;> exact ⟨_, rfl⟩
    · cases h
      exact ⟨_, rfl⟩
  obtain ⟨other, rfl⟩ := habsolute
  exact Path.exists_absolute_eq_rooted hcwd other

/-- Where names fit those of a pattern, a lead without wildcards is the same. -/
theorem take_eq_of_fitsAll {patterns names : List Text} (h : Glob.FitsAll patterns names)
    {count : Nat} (hplain : (patterns.take count).any Wildcard.isPattern = false) :
    names.take count = patterns.take count :=
  ((Glob.fitsAll_iff_eq hplain).mp (List.forall₂_take count h)).symm

/-- Without a name for any way down, a file is as deep as its pattern, and the root of the
documents, if it has no wildcards, is shared by the pattern only where it is by the file. -/
theorem meets_of_no_anyWay (hproper : tree.Proper) {root : Text} {patterns : List Text}
    (hroot : Path.IsRoot root) (hpatterns : ∀ name ∈ patterns, Path.IsName name)
    (hfile : file ∈ Glob.expandFiles tree none (Path.rooted root patterns))
    (hany : Glob.anyWay ∉ patterns)
    (hplain : Wildcard.isPattern (Path.absolute tree.cwd config.docroot) = false)
    (hroots : root = Path.root (Path.absolute tree.cwd config.docroot)) :
    Meets config tree (Path.rooted root patterns) file := by
  obtain ⟨down, name, hnames, rfl, hfits⟩ :=
    Glob.exists_rooted_of_mem_expandFiles hproper hroot hpatterns hfile
  obtain ⟨root', target, hroot', htarget, hdocroot⟩ :=
    Path.exists_absolute_eq_rooted hproper.absolute config.docroot
  have hfits := hfits hany
  rcases patterns.eq_nil_or_concat' with rfl | ⟨front, pattern, rfl⟩
  · simp [Glob.FitsAll] at hfits
  · have hfront := Glob.isName_front hpatterns
    have hdown := Glob.isName_front hnames
    have hfits := (Glob.fitsAll_concat_iff.mp hfits).1
    have hlength : down.length = front.length := (List.Forall₂.length_eq hfits).symm
    rw [hdocroot, Glob.isPattern_rooted hroot'] at hplain
    refine ⟨by rw [Path.root_rooted hroot hpatterns, hroots], ?_⟩
    rw [Path.parent_rooted hroot hfront (Glob.isName_last hpatterns),
      Path.parent_rooted hroot hdown (Glob.isName_last hnames), hdocroot,
      Path.normalNames_rooted hroot hfront, Path.normalNames_rooted hroot hdown,
      Path.normalNames_rooted hroot' htarget]
    -- What the pattern shares with the docroot has no wildcards, so that the file found shares it.
    have hshared := Path.take_commonLead front target
    rw [Path.sub_climb hlength, ← hshared]
    refine take_eq_of_fitsAll hfits ?_
    rw [hshared, List.any_eq_false]
    intro other hother
    exact List.any_eq_false.mp hplain other (List.mem_of_mem_take hother)

section

variable [Codecs]

theorem Proceeds.suffix (h : Proceeds config tree depth files text locals rest last final) :
    rest <:+ files := by
  induction h with
  | refl => exact List.suffix_refl _
  | next _ _ _ _ ih => exact ih.trans (List.suffix_cons _ _)

theorem Proceeds.docroot_eq (hkeeps : KeepsDocroot config)
    (h : Proceeds config tree depth files text locals rest last final) :
    Bindings.get? docrootName final = Bindings.get? docrootName locals := by
  induction h with
  | refl => rfl
  | next _ _ hhook _ ih => exact ih.trans (hkeeps _ _ _ _ _ _ hhook)

/-- The way that a file knows leads to the root of the documents just from the files that `Meets`
describes. These are all files of a path, or of a pattern without a name for any way down, if the
path of the root has no wildcards. -/
theorem docroot_leads_back (hproper : tree.Proper)
    (hback : '\\' ∉ Path.absolute tree.cwd config.docroot) (hkeeps : KeepsDocroot config)
    (hfree : ∀ bindings, directive.bindings = .ok bindings →
      Bindings.get? docrootName bindings = none)
    (hturn : Turn config tree directory depth directive pattern file locals) :
    ∃ way, Bindings.get? docrootName locals = some (.str way) ∧
      (Path.normalize (Path.join (Path.parent file) way) = Path.absolute tree.cwd config.docroot ↔
        Meets config tree pattern file) ∧
      (Glob.anyWay ∉ Path.names pattern →
        Wildcard.isPattern (Path.absolute tree.cwd config.docroot) = false →
        Path.root pattern = Path.root (Path.absolute tree.cwd config.docroot) →
        Meets config tree pattern file) := by
  obtain ⟨hbindings, hpath, -, hproceeds⟩ := hturn
  obtain ⟨root, patterns, hroot, hpatterns, rfl⟩ := resolvePath_rooted hproper.absolute hpath
  have hfile : file ∈ Glob.expandFiles tree none (Path.rooted root patterns) :=
    hproceeds.suffix.subset List.mem_cons_self
  refine ⟨Path.toDocroot tree.cwd (Path.rooted root patterns) config.docroot, ?_, ?_, ?_⟩
  · rw [hproceeds.docroot_eq hkeeps, get?_localsOf (hfree _ hbindings)]
    rfl
  · obtain ⟨down, name, hnames, rfl, -⟩ :=
      Glob.exists_rooted_of_mem_expandFiles hproper hroot hpatterns hfile
    have hdown := Glob.isName_front hnames
    unfold Meets
    rw [Path.parent_rooted hroot hdown (Glob.isName_last hnames),
      Path.normalize_join_toDocroot_iff hproper.absolute hback hroot hdown,
      Path.absolute_rooted hroot hpatterns, Path.normalNames_rooted hroot hdown,
      Path.root_rooted hroot hpatterns]
  · intro hany hplain hroots
    rw [Path.names_rooted hroot hpatterns] at hany
    rw [Path.root_rooted hroot hpatterns] at hroots
    exact meets_of_no_anyWay hproper hroot hpatterns hfile hany hplain hroots

end

/-! ### A handbook -/

/-- A handbook with pages on two levels. -/
def handbook : Tree where
  cwd := "/site"
  entries := [(["site"], .directory), (["site", "guide"], .directory),
    (["site", "guide", "one"], .file (Encoding.encodeUtf8 "first")),
    (["site", "guide", "two"], .file (Encoding.encodeUtf8 "second")),
    (["site", "guide", "more"], .directory),
    (["site", "guide", "more", "one"], .file (Encoding.encodeUtf8 "third"))]

/-- A directive without variables. -/
def naming (path : Text) : Directive where
  before := []
  text := "@@include(\"" ++ path ++ "\")"
  path := path
  literal := none
  after := []

/-- The variables of a file for which the way is this one. -/
def wayThere (way : Text) : Bindings Json := ([(docrootName, .str way)] : List (Text × Json))

theorem localsOf_nil {way : Text} (h : Path.toDocroot tree.cwd pattern config.docroot = way) :
    localsOf config tree pattern [] = wayThere way := by
  rw [localsOf, docrootOf, h]
  rfl

/-- The second page of the guide comes after the first, which the hook has seen by then. -/
theorem turn_guide_two {hook : Option Hook} {way : Text}
    (h : applyHook { hook := hook } "first\n" (wayThere "../") "/site/guide/one" =
      some ([], .ok ("first\n", wayThere way))) :
    Turn { hook := hook } handbook "/site" 0 (naming "guide/*") "/site/guide/*" "/site/guide/two"
      (wayThere way) := by
  have hpath : resolvePath { hook := hook } handbook.cwd "guide/*" "/site" =
      some ([], .ok "/site/guide/*") := by cbv
  have hfiles : Glob.expandFiles handbook none "/site/guide/*" =
      (["/site/guide/one", "/site/guide/two"] : List Text) := by cbv
  have hway : Path.toDocroot handbook.cwd "/site/guide/*" "." = "../" := by decide
  have hlocals : localsOf { hook := hook } handbook "/site/guide/*" [] = wayThere "../" :=
    localsOf_nil hway
  have hbuffer : Scan.Buffer { hook := hook } handbook "/site/guide/one"
      (["/site/guide/two"] : List Text) [] (wayThere "../") "first\n" :=
    ⟨"first", [], by cbv, 3, by cbv⟩
  have hexpanded : Expanded { hook := hook } handbook (Path.parent "/site/guide/one") 1 "first\n" []
      (.ok "first\n") := ⟨3, by cbv⟩
  have hproceeds : Proceeds { hook := hook } handbook 1
      (Glob.expandFiles handbook none "/site/guide/*") []
      (localsOf { hook := hook } handbook "/site/guide/*" []) (["/site/guide/two"] : List Text)
      "first\n" (wayThere way) := by
    rw [hfiles, hlocals]
    exact .next hbuffer hexpanded h .refl
  have hdepth : ((0 + 1 : Nat) : Int) ≤ 100 := by decide
  exact .mk rfl hpath hdepth hproceeds

/-- The second page of the guide knows the way. -/
theorem docroot_guide_two :
    Turn {} handbook "/site" 0 (naming "guide/*") "/site/guide/*" "/site/guide/two"
        (wayThere "../") ∧
      Path.normalize (Path.join (Path.parent "/site/guide/two") "../") =
        Path.absolute handbook.cwd "." := by
  have hturn : Turn {} handbook "/site" 0 (naming "guide/*") "/site/guide/*" "/site/guide/two"
      (wayThere "../") := turn_guide_two rfl
  have hfree : ∀ bindings, (naming "guide/*").bindings = .ok bindings →
      Bindings.get? docrootName bindings = none := by
    intro bindings hbindings
    cases hbindings
    rfl
  refine ⟨hturn, ?_⟩
  obtain ⟨way, hway, hleads, hmeets⟩ := docroot_leads_back (by decide) (by decide)
    (keepsDocroot_of_none rfl) hfree hturn
  cases hway
  exact hleads.mpr (hmeets (by decide) (by decide) (by decide))

/-- A hook that lets the way lead elsewhere. -/
def leadingAway : Hook where
  name := "away"
  apply text locals _ := .ok (text, Bindings.set docrootName (.str "away/") locals)

/-- For all files that are found at any depth the way is the same, so that it does not lead out of
the lower level; and a hook can change it for the files that follow. -/
theorem docroot_leads_astray :
    (Turn {} handbook "/site" 0 (naming "**/one") "/site/**/one" "/site/guide/more/one"
        (wayThere "../") ∧
      Path.normalize (Path.join (Path.parent "/site/guide/more/one") "../") ≠
        Path.absolute handbook.cwd ".") ∧
    Turn { hook := some leadingAway } handbook "/site" 0 (naming "guide/*") "/site/guide/*"
        "/site/guide/two" (wayThere "away/") ∧
      Path.normalize (Path.join (Path.parent "/site/guide/two") "away/") ≠
        Path.absolute handbook.cwd "." := by
  refine ⟨⟨?_, by decide⟩, ?_, by decide⟩
  · have hpath : resolvePath {} handbook.cwd "**/one" "/site" = some ([], .ok "/site/**/one") := by
      cbv
    have hfiles : Glob.expandFiles handbook none "/site/**/one" =
        (["/site/guide/more/one", "/site/guide/one"] : List Text) := by cbv
    have hlocals : localsOf {} handbook "/site/**/one" [] = wayThere "../" :=
      localsOf_nil (by decide)
    have hproceeds : Proceeds {} handbook 1 (Glob.expandFiles handbook none "/site/**/one") []
        (localsOf {} handbook "/site/**/one" [])
        (["/site/guide/more/one", "/site/guide/one"] : List Text) [] (wayThere "../") := by
      rw [hfiles, hlocals]
      exact .refl
    exact .mk rfl hpath (by decide) hproceeds
  · exact turn_guide_two rfl

end Splice.Expansion
