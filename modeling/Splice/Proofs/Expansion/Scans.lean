import Splice.Proofs.Expansion.Splicing

/-!
# Nested expansions

The expansion of a document is a scan. It replaces the directives of the document in rounds, and
each included file opens a scan of its own, one level deeper.

* `Scan.Opens` — how a scan leads to one that is nested in it;
* `Scan.Reaches` — the scans of an expansion; and
* `Scan.exists_endless_of_diverges` — in an expansion that does not end, one scan has rounds without
  end, since scans are nested up to a bound only.
-/

namespace Splice.Expansion

variable [Codecs] (config : Config) (tree : Tree)

/-- A document on its way through an expansion. -/
structure Scan where
  /-- The directory in which the document stands. -/
  directory : Text
  /-- The number of includes around it. -/
  depth : Nat
  /-- The document. -/
  document : Text

namespace Scan

/-! ### Rounds and nested scans -/

/-- The expansion of a scan. -/
def expand (scan : Scan) (fuel : Nat) : Expand Text :=
  expandIncludes config tree fuel scan.directory scan.depth scan.document

/-- The scan in which a part has been replaced. -/
def splice (scan : Scan) (part : Part) : Scan :=
  { scan with document := part.directive.splice part.contents }

/-- The document that is expanded for the first of some files, whose contents are added to a
text. -/
def Buffer (file : Text) (files : List Text) (text : Text) (locals : Bindings Json)
    (document : Text) : Prop :=
  ∃ contents warnings, File.read tree file config.encoding = .ok contents ∧
    Settles (fun fuel => substitute config tree fuel locals
      (text ++ contents ++ (if files.isEmpty then [] else ['\n']))) (warnings, .ok document)

/-- The scans that are opened while files are added to a text at some depth. -/
inductive FileScan (depth : Nat) : List Text → Text → Bindings Json → Scan → Prop
  /-- The first file opens a scan. -/
  | first {file text document : Text} {files : List Text} {locals : Bindings Json} :
      Buffer config tree file files text locals document →
      FileScan depth (file :: files) text locals ⟨Path.parent file, depth, document⟩
  /-- The scan of the first file has ended, and another file opens one. -/
  | later {file text document expanded text' : Text} {files : List Text}
      {locals locals' : Bindings Json} {warnings more : List Warning} {scan : Scan} :
      Buffer config tree file files text locals document →
      Expanded config tree (Path.parent file) depth document warnings (.ok expanded) →
      applyHook config expanded locals file = some (more, .ok (text', locals')) →
      FileScan depth files text' locals' scan → FileScan depth (file :: files) text locals scan

/-- A directive opens a scan for a file that it names. -/
inductive DirectiveOpens (directory : Text) (depth : Nat) (directive : Directive) : Scan → Prop
  | mk {bindings : Bindings Json} {path : Text} {warnings : List Warning} {inner : Scan} :
      directive.bindings = .ok bindings →
      resolvePath config tree.cwd directive.path directory = some (warnings, .ok path) →
      (depth + 1 : Nat) ≤ config.maxDepth →
      FileScan config tree (depth + 1) (Glob.expandFiles tree none path) []
        (localsOf config tree path bindings) inner →
      DirectiveOpens directory depth directive inner

/-- The first directive of a scan opens another scan. -/
def Opens (scan inner : Scan) : Prop :=
  ∃ directive, Directive.find? config.delimiters scan.document = some directive ∧
    DirectiveOpens config tree scan.directory scan.depth directive inner

/-- The scans to which a scan leads. -/
inductive Reaches : Scan → Scan → Prop
  /-- A scan leads to itself. -/
  | refl (scan : Scan) : Reaches scan scan
  /-- It leads on from the next round. -/
  | round {scan target : Scan} {part : Part} :
      Round config tree scan.directory scan.depth scan.document part →
      Reaches (scan.splice part) target → Reaches scan target
  /-- It leads on from a scan that it opens. -/
  | opens {scan inner target : Scan} : Opens config tree scan inner → Reaches inner target →
      Reaches scan target

end Scan

/-! ### Where an expansion diverges -/

/-- Rendering ends for every document and its local variables. -/
def RenderingEnds : Prop :=
  ∀ locals document, ∃ outcome,
    Settles (fun fuel => renderTemplate config tree fuel locals document) outcome

variable {config} {tree}

omit [Codecs] in
theorem not_diverges_substitute (h : RenderingEnds config tree) (locals : Bindings Json)
    (document : Text) :
    ¬ Diverges fun fuel => substitute config tree fuel locals document := by
  intro hdiverges
  obtain ⟨⟨warnings, result⟩, fuel, hrender⟩ := h locals document
  have hnone := hdiverges fuel
  simp only [substitute] at hnone
  cases result with
  | error failure =>
    simp only [hrender] at hnone
    cases hnone
  | ok text =>
    simp only [hrender] at hnone
    cases hnone

/-- Adds files to a text at some depth. -/
def adding (config : Config) (tree : Tree) (depth : Nat) (files : List Text) (text : Text)
    (locals : Bindings Json) (fuel : Nat) : Expand Text :=
  addFiles config tree fuel (fun text inner => expandIncludes config tree fuel inner depth text)
    files text locals

theorem stable_adding (depth : Nat) (files : List Text) (text : Text) (locals : Bindings Json) :
    Stable (adding config tree depth files text locals) :=
  fun n m hle => addFiles_mono hle
    (fun text inner => stable_expandIncludes config tree inner depth text n m hle) _ _ _

/-- What follows the expansion of a file. -/
def addingRest (config : Config) (tree : Tree) (depth : Nat) (file : Text) (files : List Text)
    (locals : Bindings Json) (expanded : Text) (fuel : Nat) : Expand Text :=
  (applyHook config expanded locals file).andThen fun (text, locals) =>
    adding config tree depth files text locals fuel

theorem stable_addingRest (depth : Nat) (file : Text) (files : List Text) (locals : Bindings Json)
    (expanded : Text) : Stable (addingRest config tree depth file files locals expanded) :=
  fun n m hle => Expand.andThen_mono (.refl _) fun (text, locals) =>
    stable_adding depth files text locals n m hle

theorem adding_cons (depth : Nat) (file : Text) (files : List Text) (text : Text)
    (locals : Bindings Json) :
    adding config tree depth (file :: files) text locals = fun fuel =>
      (Expand.ofExcept ((File.read tree file config.encoding).mapError .file)).andThen
        fun contents => (substitute config tree fuel locals
          (text ++ contents ++ (if files.isEmpty then [] else ['\n']))).andThen
            fun document =>
              (expandIncludes config tree fuel (Path.parent file) depth document).andThen
                fun expanded => addingRest config tree depth file files locals expanded fuel := rfl

/-- Adding files diverges in the expansion of one of them or behind it. -/
theorem diverges_adding_cons_iff (h : RenderingEnds config tree) {depth : Nat} {file text : Text}
    {files : List Text} {locals : Bindings Json} :
    Diverges (adding config tree depth (file :: files) text locals) ↔
      ∃ document, Scan.Buffer config tree file files text locals document ∧
        (Diverges (Scan.expand config tree ⟨Path.parent file, depth, document⟩) ∨
          ∃ warnings expanded,
            Expanded config tree (Path.parent file) depth document warnings (.ok expanded) ∧
              Diverges (addingRest config tree depth file files locals expanded)) := by
  have hrest (document : Text) := Expand.stable_andThen
    (stable_expandIncludes config tree (Path.parent file) depth document)
    (@stable_addingRest _ config tree depth file files locals)
  -- To read a file and to substitute in it always ends.
  rw [adding_cons, Expand.diverges_const_andThen_iff]
  constructor
  · rintro (hread | ⟨warnings, contents, hread, hdiverges⟩)
    · cases hread
    · rw [Expand.diverges_andThen_iff (stable_substitute config tree locals _) hrest] at hdiverges
      rcases hdiverges with hdiverges | ⟨warnings, document, hsubstitute, hdiverges⟩
      · exact absurd hdiverges (not_diverges_substitute h _ _)
      · rw [Expand.diverges_andThen_iff (stable_expandIncludes config tree _ _ _)
          (stable_addingRest depth file files locals)] at hdiverges
        exact ⟨document, ⟨contents, warnings, Expand.eq_ok_of_ofExcept hread, hsubstitute⟩,
          hdiverges⟩
  · rintro ⟨document, ⟨contents, warnings, hread, hsubstitute⟩, hdiverges⟩
    refine .inr ⟨[], contents, by rw [hread]; rfl, ?_⟩
    rw [Expand.diverges_andThen_iff (stable_substitute config tree locals _) hrest]
    refine .inr ⟨warnings, document, hsubstitute, ?_⟩
    rw [Expand.diverges_andThen_iff (stable_expandIncludes config tree _ _ _)
      (stable_addingRest depth file files locals)]
    exact hdiverges

theorem diverges_addingRest_iff {depth : Nat} {file expanded : Text} {files : List Text}
    {locals : Bindings Json} :
    Diverges (addingRest config tree depth file files locals expanded) ↔
      ∃ more text locals',
        applyHook config expanded locals file = some (more, .ok (text, locals')) ∧
        Diverges (adding config tree depth files text locals') := by
  have hhook : applyHook config expanded locals file ≠ none := by
    unfold applyHook
    split
    · exact nofun
    · exact nofun
  unfold addingRest
  rw [Expand.diverges_const_andThen_iff]
  constructor
  · rintro (hnone | ⟨more, ⟨text, locals'⟩, happly, hdiverges⟩)
    · exact absurd hnone hhook
    · exact ⟨more, text, locals', happly, hdiverges⟩
  · rintro ⟨more, text, locals', happly, hdiverges⟩
    exact .inr ⟨more, (text, locals'), happly, hdiverges⟩

theorem diverges_adding_iff (h : RenderingEnds config tree) {depth : Nat} {files : List Text}
    {text : Text} {locals : Bindings Json} :
    Diverges (adding config tree depth files text locals) ↔
      ∃ inner, Scan.FileScan config tree depth files text locals inner ∧
        Diverges (inner.expand config tree) := by
  induction files generalizing text locals with
  | nil =>
    constructor
    · intro hdiverges
      cases hdiverges 0
    · rintro ⟨inner, hopens, -⟩
      cases hopens
  | cons file files ih =>
    rw [diverges_adding_cons_iff h]
    constructor
    · rintro ⟨document, hbuffer, hdiverges | ⟨warnings, expanded, hexpanded, hdiverges⟩⟩
      · exact ⟨_, .first hbuffer, hdiverges⟩
      · obtain ⟨more, text', locals', happly, hrest⟩ := diverges_addingRest_iff.mp hdiverges
        obtain ⟨inner, hopens, hinner⟩ := ih.mp hrest
        exact ⟨inner, .later hbuffer hexpanded happly hopens, hinner⟩
    · rintro ⟨inner, hopens, hinner⟩
      cases hopens with
      | first hbuffer => exact ⟨_, hbuffer, .inl hinner⟩
      | later hbuffer hexpanded happly hopens =>
        refine ⟨_, hbuffer, .inr ⟨_, _, hexpanded, ?_⟩⟩
        exact diverges_addingRest_iff.mpr ⟨_, _, _, happly, ih.mpr ⟨inner, hopens, hinner⟩⟩

omit [Codecs] in
/-- The path of an include is always resolved. -/
theorem exists_resolvePath (config : Config) (cwd path directory : Text) :
    ∃ warnings resolved, resolvePath config cwd path directory = some (warnings, .ok resolved) := by
  unfold resolvePath
  split
  · simp only
    split
    · exact ⟨_, _, rfl⟩
    · exact ⟨_, _, rfl⟩
  · exact ⟨_, _, rfl⟩

theorem diverges_includeContents_iff {depth : Nat} {path : Text} {locals : Bindings Json} :
    (Diverges fun fuel => includeContents config tree fuel
        (fun text inner => expandIncludes config tree fuel inner depth text) path locals depth) ↔
      depth ≤ config.maxDepth ∧
        Diverges (adding config tree depth (Glob.expandFiles tree none path) [] locals) := by
  by_cases hdeep : config.maxDepth < depth
  · simp only [includeContents, hdeep, if_true]
    constructor
    · intro hdiverges
      cases hdiverges 0
    · rintro ⟨hle, -⟩
      omega
  · simp only [includeContents, hdeep, if_false]
    rw [show (depth ≤ config.maxDepth) = True by simpa using hdeep, true_and]
    split
    · -- A pattern that is refused finds nothing that could be added.
      rename_i hrefused
      rw [Glob.expandFiles_of_refuses hrefused]
      constructor
      · intro hdiverges
        cases hdiverges 0
      · intro hdiverges
        cases hdiverges 0
    · split
      · constructor
        · intro hdiverges
          rcases Expand.diverges_const_andThen_iff.mp hdiverges with hnone | ⟨_, _, -, hrest⟩
          · cases hnone
          · exact hrest
        · intro hdiverges
          exact Expand.diverges_const_andThen_iff.mpr (.inr ⟨_, (), rfl, hdiverges⟩)
      · exact .rfl

/-- An include diverges in a scan that its directive opens. -/
theorem diverges_including_iff (h : RenderingEnds config tree) {directory : Text} {depth : Nat}
    {directive : Directive} :
    Diverges (including config tree directory depth directive) ↔
      ∃ inner, Scan.DirectiveOpens config tree directory depth directive inner ∧
        Diverges (inner.expand config tree) := by
  obtain ⟨warnings, path, hpath⟩ := exists_resolvePath config tree.cwd directive.path directory
  have hincluding : including config tree directory depth directive = fun fuel =>
      (Expand.ofExcept (directive.bindings.mapError .directive)).andThen fun bindings =>
        (resolvePath config tree.cwd directive.path directory).andThen fun path =>
          includeContents config tree fuel
            (fun text inner => expandIncludes config tree fuel inner (depth + 1) text) path
            (localsOf config tree path bindings) (depth + 1) := rfl
  -- Reading the variables and resolving the path always end.
  rw [hincluding, Expand.diverges_const_andThen_iff]
  constructor
  · rintro (hnone | ⟨_, bindings, hbindings, hdiverges⟩)
    · cases hnone
    · rcases Expand.diverges_const_andThen_iff.mp hdiverges with hnone | ⟨_, path, hpath, hdiverges⟩
      · rw [hnone] at hpath
        cases hpath
      · obtain ⟨hle, hdiverges⟩ := diverges_includeContents_iff.mp hdiverges
        obtain ⟨inner, hopens, hinner⟩ := (diverges_adding_iff h).mp hdiverges
        exact ⟨inner, .mk (Expand.eq_ok_of_ofExcept hbindings) hpath hle hopens, hinner⟩
  · rintro ⟨inner, ⟨hbindings, hpath, hle, hopens⟩, hinner⟩
    refine .inr ⟨[], _, by rw [hbindings]; rfl, ?_⟩
    refine Expand.diverges_const_andThen_iff.mpr (.inr ⟨_, _, hpath, ?_⟩)
    exact diverges_includeContents_iff.mpr
      ⟨hle, (diverges_adding_iff h).mpr ⟨inner, hopens, hinner⟩⟩

/-- A scan diverges in a scan that it opens or in its next round. -/
theorem diverges_scan_iff (h : RenderingEnds config tree) {scan : Scan} :
    Diverges (scan.expand config tree) ↔
      (∃ inner, scan.Opens config tree inner ∧ Diverges (inner.expand config tree)) ∨
        ∃ part, Round config tree scan.directory scan.depth scan.document part ∧
          Diverges ((scan.splice part).expand config tree) := by
  unfold Scan.expand
  rw [← diverges_succ_iff]
  cases hfind : Directive.find? config.delimiters scan.document with
  | none =>
    simp only [expandIncludes_done config tree hfind]
    constructor
    · intro hdiverges
      cases hdiverges 0
    · rintro (⟨_, ⟨directive, hfound, -⟩, -⟩ | ⟨part, hround, -⟩)
      · exact absurd (hfind.symm.trans hfound) (by simp)
      · exact absurd (hfind.symm.trans hround.found) (by simp)
  | some directive =>
    simp only [expandIncludes_succ config tree hfind]
    -- The inclusion goes on forever, or it ends and the rest of the document does.
    rw [Expand.diverges_andThen_iff (stable_including config tree _ _ directive)
      (fun contents => stable_expandIncludes config tree _ _ (directive.splice contents)),
      diverges_including_iff h]
    constructor
    · rintro (⟨inner, hopens, hinner⟩ | ⟨warnings, contents, hincluded, hdiverges⟩)
      · exact .inl ⟨inner, ⟨directive, hfind, hopens⟩, hinner⟩
      · exact .inr ⟨⟨directive, warnings, contents⟩, ⟨hfind, hincluded⟩, hdiverges⟩
    · rintro (⟨inner, ⟨directive', hfound, hopens⟩, hinner⟩ | ⟨part, hround, hdiverges⟩)
      · obtain rfl := Option.some.inj (hfind.symm.trans hfound)
        exact .inl ⟨inner, hopens, hinner⟩
      · obtain rfl := Option.some.inj (hfind.symm.trans hround.found)
        exact .inr ⟨_, _, hround.included, hdiverges⟩

/-! ### Rounds without end -/

/-- A document diverges if its rounds never leave some set of documents, each of which has a
round. -/
theorem diverges_of_rounds {directory : Text} {depth : Nat} (P : Text → Prop)
    (hround : ∀ document, P document → ∃ part, Round config tree directory depth document part ∧
      P (part.directive.splice part.contents)) {document : Text} (h : P document) :
    Diverges fun fuel => expandIncludes config tree fuel directory depth document := by
  intro fuel
  induction fuel generalizing document with
  | zero => rfl
  | succ fuel ih =>
    obtain ⟨part, hpart, hnext⟩ := hround document h
    simp only [expandIncludes_succ config tree hpart.found]
    rcases hpart.included.eq_none_or_some (stable_including config tree _ _ _)
      fuel with hnone | hsome
    · simp only [hnone]
      rfl
    · simp only [hsome]
      exact Expand.andThen_none (ih hnext)

namespace Scan

/-- The scan after some rounds. -/
def after (scan : Scan) (parts : Nat → Part) : Nat → Scan
  | 0 => scan
  | n + 1 => (scan.after parts n).splice (parts n)

/-- The parts are replaced one after the other, without end. -/
def Endless (config : Config) (tree : Tree) (scan : Scan) (parts : Nat → Part) : Prop :=
  ∀ n, Round config tree scan.directory scan.depth (scan.after parts n).document (parts n)

theorem Endless.diverges {scan : Scan} {parts : Nat → Part} (h : Endless config tree scan parts) :
    Diverges (scan.expand config tree) := by
  refine diverges_of_rounds (fun document => ∃ n, document = (scan.after parts n).document) ?_
    ⟨0, rfl⟩
  rintro document ⟨n, rfl⟩
  exact ⟨parts n, h n, n + 1, rfl⟩

/-- There are rounds without end if the rounds never leave some set of documents. -/
theorem exists_endless {scan : Scan} (P : Text → Prop)
    (hround : ∀ document, P document →
      ∃ part, Round config tree scan.directory scan.depth document part ∧
        P (part.directive.splice part.contents)) (h : P scan.document) :
    ∃ parts, Endless config tree scan parts := by
  let part (document : { document // P document }) : Part :=
    Classical.choose (hround document.1 document.2)
  have hpart (document : { document // P document }) :=
    Classical.choose_spec (hround document.1 document.2)
  let documents (n : Nat) : { document // P document } :=
    n.rec ⟨scan.document, h⟩ fun _ document =>
      ⟨(part document).directive.splice (part document).contents, (hpart document).2⟩
  have hafter (n : Nat) : (scan.after (fun n => part (documents n)) n).document =
      (documents n).1 := by
    cases n with
    | zero => rfl
    | succ n => rfl
  refine ⟨fun n => part (documents n), fun n => ?_⟩
  rw [hafter n]
  exact (hpart (documents n)).1

theorem Reaches.diverges (hrender : RenderingEnds config tree) {scan target : Scan}
    (h : Reaches config tree scan target) (htarget : Diverges (target.expand config tree)) :
    Diverges (scan.expand config tree) := by
  induction h with
  | refl => exact htarget
  | round hround _ ih => exact (diverges_scan_iff hrender).mpr (.inr ⟨_, hround, ih htarget⟩)
  | opens hopens _ ih => exact (diverges_scan_iff hrender).mpr (.inl ⟨_, hopens, ih htarget⟩)

theorem FileScan.depth_eq {depth : Nat} {files : List Text} {text : Text} {locals : Bindings Json}
    {inner : Scan} (h : FileScan config tree depth files text locals inner) :
    inner.depth = depth := by
  induction h with
  | first => rfl
  | later _ _ _ _ ih => exact ih

/-- A scan that is opened is one level deeper, and within the bound. -/
theorem Opens.depth_eq {scan inner : Scan} (h : scan.Opens config tree inner) :
    inner.depth = scan.depth + 1 ∧ inner.depth ≤ config.maxDepth := by
  obtain ⟨directive, -, -, -, hle, hopens⟩ := h
  have hdepth := hopens.depth_eq
  exact ⟨hdepth, hdepth ▸ hle⟩

/-- A scan that diverges leads to one with rounds without end. The induction is on the number of
levels up to the bound. -/
theorem exists_endless_of_diverges (hrender : RenderingEnds config tree) {scan : Scan}
    (h : Diverges (scan.expand config tree)) :
    ∃ target parts, Reaches config tree scan target ∧ Endless config tree target parts := by
  induction hlevels : (config.maxDepth - scan.depth).toNat using Nat.strongRecOn
    generalizing scan with
  | ind levels ih =>
    refine Classical.byContradiction fun hnone => ?_
    -- A document of this scan that diverges and leads to no such scan has a round, after which
    -- the same is true.
    let P (document : Text) : Prop :=
      Diverges (Scan.expand config tree { scan with document := document }) ∧
        ¬ ∃ target parts, Reaches config tree { scan with document := document } target ∧
          Endless config tree target parts
    have hround (document : Text) (hdocument : P document) :
        ∃ part, Round config tree scan.directory scan.depth document part ∧
          P (part.directive.splice part.contents) := by
      obtain ⟨hdiverges, hno⟩ := hdocument
      rcases (diverges_scan_iff hrender).mp hdiverges with ⟨inner, hopens, hinner⟩ | ⟨part, hpart,
        hnext⟩
      · obtain ⟨hdepth, hle⟩ := hopens.depth_eq
        obtain ⟨target, parts, hreaches, hendless⟩ := ih _ (by
          simp only at hdepth
          omega) hinner rfl
        exact absurd ⟨target, parts, .opens hopens hreaches, hendless⟩ hno
      · refine ⟨part, hpart, hnext, ?_⟩
        rintro ⟨target, parts, hreaches, hendless⟩
        exact hno ⟨target, parts, .round hpart hreaches, hendless⟩
    obtain ⟨parts, hendless⟩ := exists_endless P hround ⟨h, hnone⟩
    exact hnone ⟨scan, parts, .refl scan, hendless⟩

end Scan

end Splice.Expansion
