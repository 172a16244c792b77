import Splice.Proofs.Expansion.Inert
import Splice.Proofs.Expansion.Scans

/-!
# The scope of local variables

The variables of a directive are inserted into the contents of its files, together with what has
been expanded of the files before: what a nested include has brought in for one file is searched for
them when the next file is added.

* `Expansion.Gathered` — the texts into which the variables of a directive are inserted;
* `Expansion.includeContents_eq_of_inert` — if these have no tags and no placeholders of the
  variables, then the values of the variables make no difference, whatever is nested in the files;
  and
* `Expansion.includeContents_leak` — two files of which the first brings in a placeholder.
-/

namespace Splice.Expansion

section

variable [Codecs]
variable (config : Config) (tree : Tree)

/-- The texts into which the local variables are inserted while files are added to a text at some
depth. -/
inductive Gathered (depth : Nat) : List Text → Text → Bindings Json → Text → Prop
  /-- The contents of the first file are added to the text. -/
  | first {file text contents : Text} {files : List Text} {locals : Bindings Json} :
      File.read tree file config.encoding = .ok contents →
      Gathered depth (file :: files) text locals
        (text ++ contents ++ (if files.isEmpty then [] else ['\n']))
  /-- The first file has been expanded, and the contents of another are added to the outcome. -/
  | later {file text document expanded text' gathered : Text} {files : List Text}
      {locals locals' : Bindings Json} {warnings more : List Warning} :
      Scan.Buffer config tree file files text locals document →
      Expanded config tree (Path.parent file) depth document warnings (.ok expanded) →
      applyHook config expanded locals file = some (more, .ok (text', locals')) →
      Gathered depth files text' locals' gathered →
      Gathered depth (file :: files) text locals gathered

variable {config} {tree} {depth : Nat}

/-- For a single file these are its contents. -/
theorem gathered_single_iff {file gathered : Text} {locals : Bindings Json} :
    Gathered config tree depth [file] [] locals gathered ↔
      File.read tree file config.encoding = .ok gathered := by
  constructor
  · intro h
    cases h with
    | first hread => simpa using hread
    | later _ _ _ hrest => cases hrest
  · intro hread
    have hfirst : Gathered config tree depth [file] [] locals ([] ++ gathered ++ []) := .first hread
    simpa using hfirst

/-- Without a hook the texts for further files begin with what the first has been expanded to. -/
theorem gathered_cons_iff (hhook : config.hook = none) {file text contents document expanded : Text}
    {files : List Text} {locals : Bindings Json} {warnings more : List Warning}
    (hread : File.read tree file config.encoding = .ok contents)
    (hsubstitute : Settles (fun fuel => substitute config tree fuel locals
      (text ++ contents ++ (if files.isEmpty then [] else ['\n']))) (warnings, .ok document))
    (hexpanded : Expanded config tree (Path.parent file) depth document more (.ok expanded))
    {gathered : Text} :
    Gathered config tree depth (file :: files) text locals gathered ↔
      gathered = text ++ contents ++ (if files.isEmpty then [] else ['\n']) ∨
        Gathered config tree depth files expanded locals gathered := by
  have hhooked (text : Text) : applyHook config text locals file = .done (text, locals) := by
    rw [applyHook, hhook]
  constructor
  · intro h
    cases h with
    | first hread' =>
      cases hread.symm.trans hread'
      exact .inl rfl
    | later hbuffer hexpanded' hhook' hrest =>
      obtain ⟨_, _, hread', hsubstitute'⟩ := hbuffer
      cases hread.symm.trans hread'
      -- What the substitution and the expansion come to does not depend on the fuel.
      cases Settles.unique (stable_substitute config tree locals _) hsubstitute hsubstitute'
      cases Settles.unique (stable_expandIncludes config tree _ _ _) hexpanded hexpanded'
      cases (hhooked _).symm.trans hhook'
      exact .inr hrest
  · rintro (rfl | hrest)
    · exact .first hread
    · exact .later ⟨contents, _, hread, hsubstitute⟩ hexpanded (hhooked expanded) hrest

variable {locals locals' : Bindings Json}

omit [Codecs] in
theorem substitute_eq_of_inert (hnames : Bindings.names locals' = Bindings.names locals)
    {text : Text} (h : Inert config.delimiters (Bindings.names locals) text) (fuel : Nat) :
    substitute config tree fuel locals text = substitute config tree fuel locals' text := by
  have h' : Inert config.delimiters (Bindings.names locals') text := hnames ▸ h
  rw [substitute_inert h, substitute_inert h']

theorem adding_eq_of_inert (hhook : config.hook = none)
    (hnames : Bindings.names locals' = Bindings.names locals) {files : List Text} {text : Text}
    (h : ∀ gathered, Gathered config tree depth files text locals gathered →
      Inert config.delimiters (Bindings.names locals) gathered) (fuel : Nat) :
    adding config tree depth files text locals fuel =
      adding config tree depth files text locals' fuel := by
  induction files generalizing text with
  | nil => rfl
  | cons file files ih =>
    have hhooked (text : Text) (locals : Bindings Json) :
        applyHook config text locals file = .done (text, locals) := by
      rw [applyHook, hhook]
    -- The two computations take the same steps, and come to the next file with the same text.
    simp only [adding_cons, addingRest, hhooked, Expand.done_andThen]
    refine Expand.andThen_congr fun _ contents hread => ?_
    have hread := Expand.eq_ok_of_ofExcept hread
    rw [← substitute_eq_of_inert hnames (h _ (.first hread)) fuel]
    refine Expand.andThen_congr fun _ document hsubstitute => ?_
    refine Expand.andThen_congr fun _ expanded hexpanded => ?_
    exact ih fun gathered hgathered => h gathered (.later ⟨contents, _, hread, fuel, hsubstitute⟩
      ⟨fuel, hexpanded⟩ (hhooked expanded locals) hgathered)

/-- What the files of a directive add to its document, and the warnings, are the same for all values
of its variables if the texts into which these are inserted have no tags and no placeholders of
them. If there is one file, its contents are the only such text. -/
theorem includeContents_eq_of_inert (hhook : config.hook = none)
    (hnames : Bindings.names locals' = Bindings.names locals) {path : Text}
    (h : (∀ gathered,
        Gathered config tree depth (Glob.expandFiles tree none path) [] locals gathered →
          Inert config.delimiters (Bindings.names locals) gathered) ∨
      ∃ file, Glob.expandFiles tree none path = [file] ∧
        ∀ contents, File.read tree file config.encoding = .ok contents →
          Inert config.delimiters (Bindings.names locals) contents)
    (fuel : Nat) :
    includeContents config tree fuel
        (fun text inner => expandIncludes config tree fuel inner depth text) path locals depth =
      includeContents config tree fuel
        (fun text inner => expandIncludes config tree fuel inner depth text) path
          locals' depth := by
  have hinert : ∀ gathered,
      Gathered config tree depth (Glob.expandFiles tree none path) [] locals gathered →
        Inert config.delimiters (Bindings.names locals) gathered := by
    rcases h with h | ⟨file, hfiles, h⟩
    · exact h
    · intro gathered hgathered
      rw [hfiles] at hgathered
      exact h gathered (gathered_single_iff.mp hgathered)
  have hadding := adding_eq_of_inert hhook hnames hinert fuel
  simp only [adding] at hadding
  simp only [includeContents, hadding]

end

/-- A site of which the first page includes a file. -/
def pages (included : Text) : Tree where
  cwd := "/site"
  entries := [(["site"], .directory), (["site", "p"], .directory),
    (["site", "p", "1"], .file (Encoding.encodeUtf8 "@@include(\"../g\")")),
    (["site", "p", "2"], .file (Encoding.encodeUtf8 "b")),
    (["site", "g"], .file (Encoding.encodeUtf8 included))]

/-- The variables of a directive for the pages that binds `x`. -/
def pageLocals (value : Text) : Bindings Json :=
  ([("x", .str value), (docrootName, .str "../")] : List (Text × Json))

theorem localsOf_pages (included value : Text) :
    localsOf {} (pages included) "/site/p/*" ([("x", .str value)] : List (Text × Json)) =
      pageLocals value := by
  have hdocroot : Path.toDocroot "/site" "/site/p/*" "." = "../" := by decide
  have hvalue : docrootOf {} (pages included) "/site/p/*" = .str "../" := congrArg Json.str hdocroot
  rw [localsOf, hvalue]
  rfl

/-- What the pages add to a document. -/
def pageContents (included value : Text) : Expand Text :=
  includeContents {} (pages included) 3
    (fun text inner => expandIncludes {} (pages included) 3 inner 1 text) "/site/p/*"
    (pageLocals value) 1

theorem expandFiles_pages (included : Text) :
    Glob.expandFiles (pages included) none "/site/p/*" = (["/site/p/1", "/site/p/2"] :
      List Text) := by
  cbv

theorem read_pages_one (included : Text) :
    File.read (pages included) "/site/p/1" "utf-8" = .ok "@@include(\"../g\")" := by
  cbv

theorem read_pages_two (included : Text) :
    File.read (pages included) "/site/p/2" "utf-8" = .ok "b" := by
  cbv

theorem inert_pages {gathered : Text}
    (h : Gathered {} (pages "c") 1 (["/site/p/1", "/site/p/2"] : List Text) [] (pageLocals "1")
      gathered) : Inert {} (Bindings.names (pageLocals "1")) gathered := by
  have hdocument : Settles (fun fuel => substitute {} (pages "c") fuel (pageLocals "1")
      "@@include(\"../g\")\n") ([], .ok "@@include(\"../g\")\n") := ⟨3, by cbv⟩
  have hexpanded : Expanded {} (pages "c") (Path.parent "/site/p/1") 1 "@@include(\"../g\")\n" []
      (.ok "c\n") := ⟨3, by cbv⟩
  have hnames : Bindings.names (pageLocals "1") = (["x", "docroot"] : List Text) := rfl
  rw [hnames]
  rcases (gathered_cons_iff rfl (read_pages_one "c") hdocument hexpanded).mp h with rfl | h
  · exact ⟨by decide, by decide⟩
  · cases h with
    | first hread =>
      cases (read_pages_two "c").symm.trans hread
      exact ⟨by decide, by decide⟩
    | later _ _ _ hrest => cases hrest

/-- If the included file has no placeholder, then the pages are the same for all values of `x`. -/
theorem includeContents_pages :
    (∀ gathered, Gathered {} (pages "c") 1 (Glob.expandFiles (pages "c") none "/site/p/*") []
        (pageLocals "1") gathered → Inert {} (Bindings.names (pageLocals "1")) gathered) ∧
      pageContents "c" "1" = .done "c\nb" ∧ pageContents "c" "2" = .done "c\nb" := by
  have hinert : ∀ gathered,
      Gathered {} (pages "c") 1 (Glob.expandFiles (pages "c") none "/site/p/*") []
          (pageLocals "1") gathered → Inert {} (Bindings.names (pageLocals "1")) gathered := by
    rw [expandFiles_pages]
    exact fun gathered => inert_pages
  have hone : pageContents "c" "1" = .done "c\nb" := by cbv
  have hnames : Bindings.names (pageLocals "2") = Bindings.names (pageLocals "1") := rfl
  have hsame : pageContents "c" "1" = pageContents "c" "2" :=
    includeContents_eq_of_inert rfl hnames (.inl hinert) 3
  exact ⟨hinert, hone, hsame.symm.trans hone⟩

/-- Nothing in the pages is a placeholder of `x`, but that of the included file is replaced when the
second page is added. -/
theorem includeContents_leak :
    (∀ value : Text, localsOf {} (pages "@@x") "/site/p/*" ([("x", .str value)] :
      List (Text × Json)) =
        pageLocals value) ∧
      Glob.expandFiles (pages "@@x") none "/site/p/*" = (["/site/p/1", "/site/p/2"] : List Text) ∧
      File.read (pages "@@x") "/site/p/1" "utf-8" = .ok "@@include(\"../g\")" ∧
      File.read (pages "@@x") "/site/p/2" "utf-8" = .ok "b" ∧
      Inert {} (Bindings.names (pageLocals "1")) "@@include(\"../g\")\nb" ∧
      pageContents "@@x" "1" = .done "1\nb" ∧ pageContents "@@x" "2" = .done "2\nb" := by
  have hinert : Inert {} (["x", "docroot"] : List Text) "@@include(\"../g\")\nb" :=
    ⟨by decide, by decide⟩
  exact ⟨localsOf_pages _, expandFiles_pages _, read_pages_one _, read_pages_two _, hinert, by cbv,
    by cbv⟩

end Splice.Expansion
