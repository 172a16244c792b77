import Splice.Proofs.Expansion.Termination
import Splice.Proofs.Glob.Straight
import Splice.Proofs.Mustache.Embedding

/-!
# What an expansion asks of a tree

An expansion looks for the files of includes and for embedded templates, and nothing else of a tree
matters to it: where a tree gives the same answers, the expansion is the same.

* `Expansion.Request` — what can be asked of a tree;
* `Expansion.Asks` — what an expansion asks;
* `Expansion.SameAnswer` — two trees give the same answer;
* `Expansion.expandDocument_congr` — an expansion depends on the answers only; and
* `Expansion.expandDocument_withFiles` — it does not depend on the files that are to be processed.
-/

namespace Splice

variable [Codecs]

/-- The configuration with other files to process. -/
def Config.withFiles (config : Config) (files : List FileMapping) : Config := { config with files }

namespace Expansion

/-- What can be asked of a tree. -/
inductive Request where
  /-- The files that an absolute path or pattern finds, and their texts. -/
  | files (pattern : Text)
  /-- The template with a key. -/
  | template (key : Text)
deriving DecidableEq

variable (config : Config) (tree : Tree)

/-- The template with this key is embedded when the document is rendered for its local variables. -/
def Embeds (locals : Bindings Json) (document key : Text) : Prop :=
  config.useMustache = true ∧ ∃ nodes, Mustache.parse document = .ok nodes ∧
    Mustache.Embeds (environment config tree) [.obj locals] nodes key

/-- The text is rendered for some variables while files are added to a text at some depth. -/
inductive FileText (depth : Nat) : List Text → Text → Bindings Json → Bindings Json → Text → Prop
  /-- It ends with the contents of the first file. -/
  | first {file text contents : Text} {files : List Text} {locals : Bindings Json} :
      File.read tree file config.encoding = .ok contents →
      FileText depth (file :: files) text locals locals
        (text ++ contents ++ (if files.isEmpty then [] else ['\n']))
  /-- It is rendered when the first file has been added. -/
  | later {file text document expanded text' rendered : Text} {files : List Text}
      {locals locals' last : Bindings Json} {warnings more : List Warning} :
      Scan.Buffer config tree file files text locals document →
      Expanded config tree (Path.parent file) depth document warnings (.ok expanded) →
      applyHook config expanded locals file = some (more, .ok (text', locals')) →
      FileText depth files text' locals' last rendered →
      FileText depth (file :: files) text locals last rendered

/-- The first directive of a scan includes what the path finds, with these variables. -/
def Scan.Includes (scan : Scan) (path : Text) (locals : Bindings Json) : Prop :=
  ∃ directive bindings warnings, Directive.find? config.delimiters scan.document = some directive ∧
    directive.bindings = .ok bindings ∧
    resolvePath config tree.cwd directive.path scan.directory = some (warnings, .ok path) ∧
    (scan.depth + 1 : Nat) ≤ config.maxDepth ∧ locals = localsOf config tree path bindings

/-- What the expansion of the document that is read from a file asks. -/
inductive Asks (document file : Text) : Request → Prop
  /-- A template that the document embeds. -/
  | document {key : Text} :
      Embeds config tree [(docrootName, docrootOf config tree file)] document key →
      Asks document file (.template key)
  /-- The files of an include. -/
  | files {start scan : Scan} {path : Text} {locals : Bindings Json} :
      Starts config tree document file start → start.Reaches config tree scan →
      scan.Includes config tree path locals → Asks document file (.files path)
  /-- A template that the files of an include embed. -/
  | template {start scan : Scan} {path text key : Text} {locals last : Bindings Json} :
      Starts config tree document file start → start.Reaches config tree scan →
      scan.Includes config tree path locals →
      FileText config tree (scan.depth + 1) (Glob.expandFiles tree none path) [] locals last text →
      Embeds config tree last text key → Asks document file (.template key)

/-- The trees give the same answer. -/
def SameAnswer (other : Tree) : Request → Prop
  | .files pattern =>
      Glob.expandFiles other none pattern = Glob.expandFiles tree none pattern ∧
        ∀ file ∈ Glob.expandFiles tree none pattern,
          File.read other file config.encoding = File.read tree file config.encoding
  | .template key => Mustache.loadEmbedded other key = Mustache.loadEmbedded tree key

variable {config} {tree} {other : Tree} {fuel depth : Nat} {document file text : Text}
  {files : List Text} {locals : Bindings Json}

theorem substitute_congr
    (h : ∀ key, Embeds config tree locals document key →
      SameAnswer config tree other (.template key)) :
    substitute config other fuel locals document = substitute config tree fuel locals document := by
  have hrender : renderTemplate config other fuel locals document =
      renderTemplate config tree fuel locals document := by
    unfold renderTemplate
    split
    · rename_i hmustache
      have hsame : Mustache.render (environment config other) fuel locals document =
          Mustache.render (environment config tree) fuel locals document := by
        have hescaping : (environment config other).escaping = (environment config tree).escaping :=
          rfl
        have hmalformed :
            (environment config other).malformed = (environment config tree).malformed := rfl
        refine Mustache.render_congr hescaping hmalformed fuel locals document
          fun nodes hparse key hkey => ?_
        have hload : Mustache.loadEmbedded other key = Mustache.loadEmbedded tree key :=
          h key ⟨hmustache, nodes, hparse, hkey⟩
        simp only [environment, hload]
      rw [hsame]
    · rfl
  simp only [substitute, hrender]

/-- Adding files depends on their texts, the templates that these embed, and the scans that they
open. -/
theorem adding_congr
    (hread : ∀ file ∈ files, File.read other file config.encoding =
      File.read tree file config.encoding)
    (htemplates : ∀ last rendered key, FileText config tree depth files text locals last rendered →
      Embeds config tree last rendered key → SameAnswer config tree other (.template key))
    (hscans : ∀ inner : Scan, Scan.FileScan config tree depth files text locals inner →
      inner.expand config other fuel = inner.expand config tree fuel) :
    adding config other depth files text locals fuel =
      adding config tree depth files text locals fuel := by
  induction files generalizing text locals with
  | nil => simp only [adding, addFiles]
  | cons file files ih =>
    obtain ⟨hfile, hfiles⟩ := List.forall_mem_cons.mp hread
    simp only [adding_cons, hfile]
    refine Expand.andThen_congr fun _ contents hcontents => ?_
    replace hcontents := Expand.eq_ok_of_ofExcept hcontents
    rw [substitute_congr fun key => htemplates _ _ key (.first hcontents)]
    refine Expand.andThen_congr fun warnings document hdocument => ?_
    have hbuffer : Scan.Buffer config tree file files text locals document :=
      ⟨contents, warnings, hcontents, fuel, hdocument⟩
    rw [show expandIncludes config other fuel (Path.parent file) depth document =
      expandIncludes config tree fuel (Path.parent file) depth document from hscans _
        (.first hbuffer)]
    refine Expand.andThen_congr fun warnings expanded hexpanded => ?_
    refine Expand.andThen_congr fun more result hhook => ?_
    have hafter : Expanded config tree (Path.parent file) depth document warnings (.ok expanded) :=
      ⟨fuel, hexpanded⟩
    -- What the files behind ask for, and the scans they open, are among those of all the files.
    exact ih hfiles
      (fun last rendered key htext =>
        htemplates last rendered key (.later hbuffer hafter hhook htext))
      (fun inner hinner => hscans inner (.later hbuffer hafter hhook hinner))

/-- The trees give the same answers to what an include asks. -/
def Scan.SameAnswers (config : Config) (tree other : Tree) (scan : Scan) (path : Text)
    (locals : Bindings Json) : Prop :=
  SameAnswer config tree other (.files path) ∧
    ∀ last rendered key,
      FileText config tree (scan.depth + 1) (Glob.expandFiles tree none path)
        [] locals last rendered →
      Embeds config tree last rendered key → SameAnswer config tree other (.template key)

/-- An include depends on what it asks and on the scans that it opens. -/
theorem including_congr (hcwd : other.cwd = tree.cwd) {scan : Scan} {directive : Directive}
    (hfound : Directive.find? config.delimiters scan.document = some directive)
    (hanswers : ∀ path locals, scan.Includes config tree path locals →
      scan.SameAnswers config tree other path locals)
    (hscans : ∀ inner : Scan, scan.Opens config tree inner →
      inner.expand config other fuel = inner.expand config tree fuel) :
    including config other scan.directory scan.depth directive fuel =
      including config tree scan.directory scan.depth directive fuel := by
  -- The steps of an inclusion are compared one by one.
  have hincluding (tree : Tree) : including config tree scan.directory scan.depth directive fuel =
      (Expand.ofExcept (directive.bindings.mapError .directive)).andThen fun bindings =>
        (resolvePath config tree.cwd directive.path scan.directory).andThen fun path =>
          includeContents config tree fuel
            (fun text inner => expandIncludes config tree fuel inner (scan.depth + 1) text) path
            (localsOf config tree path bindings) (scan.depth + 1) := rfl
  rw [hincluding, hincluding]
  refine Expand.andThen_congr fun _ bindings hbindings => ?_
  replace hbindings := Expand.eq_ok_of_ofExcept hbindings
  rw [hcwd]
  refine Expand.andThen_congr fun warnings path hpath => ?_
  have hlocals : localsOf config other path bindings = localsOf config tree path bindings := by
    simp only [localsOf, docrootOf, hcwd]
  rw [hlocals]
  unfold includeContents
  by_cases hdeep : config.maxDepth < (scan.depth + 1 : Nat)
  · rw [if_pos hdeep, if_pos hdeep]
  · have hle : (scan.depth + 1 : Nat) ≤ config.maxDepth := by omega
    -- Below the bound, the scan asks for the files and for what is in them.
    obtain ⟨⟨hfiles, hread⟩, htemplates⟩ := hanswers path (localsOf config tree path bindings)
      ⟨directive, bindings, warnings, hfound, hbindings, hpath, hle, rfl⟩
    have hadding : adding config other (scan.depth + 1) (Glob.expandFiles tree none path) []
          (localsOf config tree path bindings) fuel =
        adding config tree (scan.depth + 1) (Glob.expandFiles tree none path) []
          (localsOf config tree path bindings) fuel :=
      adding_congr hread htemplates fun inner hinner =>
        hscans inner ⟨directive, hfound, .mk hbindings hpath hle hinner⟩
    unfold adding at hadding
    rw [if_neg hdeep, if_neg hdeep]
    simp only [hfiles, hadding]

/-- A scan depends on what is asked in the scans that it leads to. The induction is on the fuel. -/
theorem Scan.expand_congr (hcwd : other.cwd = tree.cwd) {scan : Scan}
    (hanswers : ∀ target path locals, scan.Reaches config tree target →
      target.Includes config tree path locals → target.SameAnswers config tree other path locals) :
    scan.expand config other fuel = scan.expand config tree fuel := by
  induction fuel generalizing scan with
  | zero => rfl
  | succ fuel ih =>
    unfold Scan.expand
    cases hfind : Directive.find? config.delimiters scan.document with
    | none => rw [expandIncludes_done config other hfind, expandIncludes_done config tree hfind]
    | some directive =>
      rw [expandIncludes_succ config other hfind, expandIncludes_succ config tree hfind,
        including_congr hcwd hfind (fun path locals => hanswers scan path locals (.refl scan))
          fun inner hinner => ih fun target path locals htarget =>
            hanswers target path locals (.opens hinner htarget)]
      refine Expand.andThen_congr fun warnings contents hincluded => ?_
      have hround : Round config tree scan.directory scan.depth scan.document
          ⟨directive, warnings, contents⟩ := ⟨hfind, fuel, hincluded⟩
      exact ih fun target path locals htarget => hanswers target path locals (.round hround htarget)

/-- The expansion of a document is the same where a tree gives the same answers to what it asks. -/
theorem expandDocument_congr (hcwd : other.cwd = tree.cwd)
    (h : ∀ request, Asks config tree document file request → SameAnswer config tree other request)
    (fuel : Nat) :
    expandDocument config other fuel document file =
      expandDocument config tree fuel document file := by
  have hdocroot : docrootOf config other file = docrootOf config tree file := by
    simp only [docrootOf, hcwd]
  have hexpand (tree : Tree) : expandDocument config tree fuel document file =
      (substitute config tree fuel [(docrootName, docrootOf config tree file)] document).andThen
        (expandIncludes config tree fuel (Path.parent file) 0) := rfl
  rw [hexpand, hexpand, hdocroot, substitute_congr fun key hkey => h _ (.document hkey)]
  refine Expand.andThen_congr fun warnings substituted hsubstituted => ?_
  have hstarts : Starts config tree document file ⟨Path.parent file, 0, substituted⟩ :=
    ⟨substituted, warnings, rfl, fuel, hsubstituted⟩
  have hscan : Scan.expand config other ⟨Path.parent file, 0, substituted⟩ fuel =
      Scan.expand config tree ⟨Path.parent file, 0, substituted⟩ fuel := by
    refine Scan.expand_congr hcwd fun target path locals hreaches hincludes =>
      ⟨h _ (.files hstarts hreaches hincludes), ?_⟩
    intro last rendered key htext hkey
    exact h _ (.template hstarts hreaches hincludes htext hkey)
  exact hscan

/-! ### Documents without directives -/

theorem Scan.Reaches.eq_of_no_directive {scan target : Scan}
    (hnone : Directive.find? config.delimiters scan.document = none)
    (h : scan.Reaches config tree target) : target = scan := by
  cases h with
  | refl => rfl
  | round hround => exact absurd (hnone.symm.trans hround.found) nofun
  | opens hopens =>
    obtain ⟨directive, hfound, -⟩ := hopens
    exact absurd (hnone.symm.trans hfound) nofun

/-- A document in which no directive is left when its placeholders have been replaced asks for
templates only that it embeds itself. -/
theorem Asks.exists_embeds {substituted : Text} {warnings : List Warning} {request : Request}
    (hsubstituted : Settles (fun fuel =>
      substitute config tree fuel [(docrootName, docrootOf config tree file)] document)
      (warnings, .ok substituted))
    (hnone : Directive.find? config.delimiters substituted = none)
    (h : Asks config tree document file request) :
    ∃ key, request = .template key ∧
      Embeds config tree [(docrootName, docrootOf config tree file)] document key := by
  have hnot {start scan : Scan} {path : Text} {locals : Bindings Json}
      (hstarts : Starts config tree document file start)
      (hreaches : start.Reaches config tree scan) :
      ¬ scan.Includes config tree path locals := by
    intro ⟨directive, _, _, hfound, _⟩
    obtain ⟨other, more, rfl, hother⟩ := hstarts
    have houtcome := hsubstituted.unique (stable_substitute config tree _ document) hother
    cases houtcome
    rw [hreaches.eq_of_no_directive hnone, hnone] at hfound
    cases hfound
  cases h with
  | document hembeds => exact ⟨_, rfl, hembeds⟩
  | files hstarts hreaches hincludes => exact absurd hincludes (hnot hstarts hreaches)
  | template hstarts hreaches hincludes => exact absurd hincludes (hnot hstarts hreaches)

/-! ### Paths of includes -/

omit [Codecs] in
theorem straight_absolute {cwd : Text} (hcwd : Path.isAbsolute cwd = true) (path : Text) :
    Path.Straight (Path.absolute cwd path) := by
  obtain ⟨root, down, hroot, hdown, heq⟩ := Path.exists_absolute_eq_rooted hcwd path
  rw [heq, Path.straight_iff, Path.names_rooted hroot hdown]
  exact fun hmem => (hdown _ hmem).ne_dots rfl

/-- The paths of includes have no double dots. -/
theorem Asks.straight (hcwd : Path.isAbsolute tree.cwd = true) {pattern : Text}
    (h : Asks config tree document file (.files pattern)) : Path.Straight pattern := by
  cases h with
  | files _ _ hincludes =>
    obtain ⟨directive, bindings, warnings, -, -, hpath, -, -⟩ := hincludes
    unfold resolvePath at hpath
    split at hpath
    · simp only at hpath
      split at hpath
      all_goals
        cases hpath
        exact straight_absolute hcwd _
    · cases hpath
      exact straight_absolute hcwd _

/-! ### Files to process -/

variable {mappings : List FileMapping}

theorem addFiles_withFiles (expand : Text → Text → Expand Text) (paths : List Text) (text : Text)
    (locals : Bindings Json) :
    addFiles (config.withFiles mappings) tree fuel expand paths text locals =
      addFiles config tree fuel expand paths text locals := by
  induction paths generalizing text locals with
  | nil => simp only [addFiles]
  | cons path paths ih =>
    refine Expand.andThen_congr fun _ contents _ => ?_
    refine Expand.andThen_congr fun _ document _ => ?_
    refine Expand.andThen_congr fun _ expanded _ => ?_
    exact Expand.andThen_congr fun _ result _ => ih result.1 result.2

theorem includeDirective_withFiles (expand : Text → Text → Expand Text)
    (directory : Text) (depth : Nat) (directive : Directive) :
    includeDirective (config.withFiles mappings) tree fuel expand directory depth directive =
      includeDirective config tree fuel expand directory depth directive := by
  refine Expand.andThen_congr fun _ bindings _ => ?_
  refine Expand.andThen_congr fun _ path _ => ?_
  unfold includeContents
  simp only [addFiles_withFiles]
  rfl

/-- The files that a configuration lists make no difference to the expansion of a document. -/
theorem expandIncludes_withFiles (directory : Text) (depth : Nat) (document : Text) :
    expandIncludes (config.withFiles mappings) tree fuel directory depth document =
      expandIncludes config tree fuel directory depth document := by
  induction fuel generalizing directory depth document with
  | zero => rfl
  | succ fuel ih =>
    have hdelimiters : (config.withFiles mappings).delimiters = config.delimiters := rfl
    simp only [expandIncludes, hdelimiters, ih, includeDirective_withFiles]

theorem expandDocument_withFiles (document file : Text) :
    expandDocument (config.withFiles mappings) tree fuel document file =
      expandDocument config tree fuel document file :=
  Expand.andThen_congr fun _ document _ => expandIncludes_withFiles _ _ document

end Expansion

end Splice
