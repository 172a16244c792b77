import Splice.Proofs.Directive.RoundTrip
import Splice.Proofs.Expansion.Splicing
import Splice.Proofs.Glob.Literal

/-!
# Documents as includes

A file is expanded as a document of its own, or for a directive that names it. The include stands
one level deeper, so that a bound higher by one stops it at the same place.

* `Failure.raise`, `Expand.raise` — an outcome under the higher bound;
* `Expansion.expandIncludes_raise` — one level deeper, the outcomes are those under the higher
  bound;
* `Expansion.expandIncludes_again` — expanding what has been expanded changes nothing;
* `Expansion.Lone` — a document that consists of a directive for one file; and
* `Expansion.expanded_bare_iff` — the outcome for the directive is that for the document.
-/

namespace Splice

/-- The failure under a bound that is higher by one. -/
def Failure.raise : Failure → Failure
  | .tooDeep path bound => .tooDeep path (bound + 1)
  | failure => failure

theorem Failure.Shallow.raise_eq {failure : Failure} (h : failure.Shallow) :
    failure.raise = failure := by
  cases failure with
  | tooDeep path bound => exact absurd rfl (h path bound)
  | _ => rfl

theorem Failure.raise_injective : Function.Injective Failure.raise := by
  intro a b h
  cases a <;> cases b <;> simp_all [raise]

namespace Expand

variable {α β : Type}

/-- The outcome under a bound that is higher by one. -/
def raise (x : Expand α) : Expand α :=
  match x with
  | none => none
  | some (warnings, result) => some (warnings, result.mapError Failure.raise)

theorem raise_eq {x : Expand α} (h : x.FailsOnly Failure.Shallow) : x.raise = x := by
  rcases x with _ | ⟨warnings, failure | a⟩
  · rfl
  · show some (warnings, Except.error failure.raise) = _
    rw [(h warnings failure rfl).raise_eq]
  · rfl

theorem raise_andThen (x : Expand α) (f : α → Expand β) :
    (x.andThen f).raise = x.raise.andThen fun a => (f a).raise := by
  rcases x with _ | ⟨warnings, failure | a⟩
  · rfl
  · rfl
  · simp only [andThen, raise, Except.mapError]
    cases f a with
    | none => rfl
    | some outcome => rfl

theorem raise_eq_some_iff {x : Expand α} {warnings : List Warning} {result : Except Failure α} :
    x.raise = some (warnings, result.mapError Failure.raise) ↔ x = some (warnings, result) := by
  constructor
  · intro h
    rcases x with _ | ⟨first, failure | a⟩
    · cases h
    · cases result with
      | error failure' =>
        obtain ⟨rfl, hfailure⟩ := Prod.mk.inj (Option.some.inj h)
        rw [Failure.raise_injective (Except.error.inj hfailure)]
      | ok b => cases h
    · cases result with
      | error failure' => cases h
      | ok b => exact h
  · rintro rfl
    rfl

theorem raise_eq_none_iff {x : Expand α} : x.raise = none ↔ x = none := by
  rcases x with _ | ⟨warnings, result⟩
  · exact Iff.rfl
  · simp [raise]

end Expand

namespace Expansion

section

variable [Codecs]
variable {config : Config} {tree : Tree} {bound : Int}

omit [Codecs] in
theorem lockstep_raise : Lockstep fun _ x y => x.raise = y where
  same := Expand.raise_eq
  andThen := by
    rintro α β x _ f g rfl hfg
    rw [Expand.raise_andThen]
    exact congrArg _ (funext hfg)

/-- One level deeper, the outcome is the one under the higher bound. -/
theorem expandIncludes_raise (fuel : Nat) (directory document : Text) :
    (expandIncludes (config.withBound bound) tree fuel directory 0 document).raise =
      expandIncludes (config.withBound (bound + 1)) tree fuel directory 1 document := by
  refine expandIncludes_lockstep lockstep_raise ?_ fuel 0 directory document
  rintro k path x _ rfl
  unfold withinBound
  by_cases hdeep : bound < (0 + k : Nat)
  · have hdeep' : bound + 1 < (1 + k : Nat) := by omega
    rw [if_pos hdeep, if_pos hdeep']
    rfl
  · have hwithin : ¬ bound + 1 < (1 + k : Nat) := by omega
    rw [if_neg hdeep, if_neg hwithin]

/-- Nothing changes when an expanded document is expanded again. -/
theorem expandIncludes_again (fuel : Nat) (directory directory' document : Text)
    (depth depth' : Nat) :
    (expandIncludes config tree fuel directory depth document).andThen
        (expandIncludes config tree fuel directory' depth') =
      expandIncludes config tree fuel directory depth document := by
  cases fuel with
  | zero => rfl
  | succ fuel =>
    cases h : expandIncludes config tree (fuel + 1) directory depth document with
    | none => rfl
    | some outcome =>
      obtain ⟨warnings, failure | text⟩ := outcome
      · rfl
      · obtain ⟨parts, hsplices, -⟩ := exists_splices ⟨fuel + 1, h⟩
        have hagain : expandIncludes config tree (fuel + 1) directory' depth' text = .done text :=
          expandIncludes_done config tree hsplices.find?_result
        exact (Expand.andThen_ok hagain).trans (by rw [List.append_nil])

variable {file text : Text}

/-- Without a hook, a single file is included like a document. -/
theorem addFiles_single (hhook : config.hook = none)
    (hread : File.read tree file config.encoding = .ok text) (fuel : Nat)
    (expand : Text → Text → Expand Text) (locals : Bindings Json) :
    addFiles config tree fuel expand [file] [] locals =
      (substitute config tree fuel locals text).andThen fun document =>
        expand document (Path.parent file) := by
  have hhooked (text : Text) : (applyHook config text locals file).andThen
      (fun hooked => addFiles config tree fuel expand [] hooked.1 hooked.2) = .done text := by
    simp only [applyHook, hhook]
    exact Expand.done_andThen _ _
  have hadd : addFiles config tree fuel expand [file] [] locals =
      (Expand.ofExcept ((File.read tree file config.encoding).mapError .file)).andThen
        fun contents => (substitute config tree fuel locals ([] ++ contents ++ [])).andThen
          fun document => (expand document (Path.parent file)).andThen
            fun text => (applyHook config text locals file).andThen
              fun hooked => addFiles config tree fuel expand [] hooked.1 hooked.2 := rfl
  rw [hadd, hread]
  simp only [hhooked, Expand.andThen_done]
  exact (Expand.done_andThen text _).trans (by simp)

/-! ### A document that is one directive -/

/-- A document that consists of a directive, and the one file that the directive names. -/
structure Lone (config : Config) (tree : Tree) (directory document : Text) (warnings : List Warning)
    (file text : Text) where
  /-- The directive. -/
  directive : Directive
  /-- Its variables. -/
  bindings : Bindings Json
  found : Directive.find? config.delimiters document = some directive
  before : directive.before = []
  after : directive.after = []
  bound : directive.bindings = .ok bindings
  resolved : resolvePath config tree.cwd directive.path directory = some (warnings, .ok file)
  literal : Wildcard.isPattern file = false
  read : File.read tree file config.encoding = .ok text

namespace Lone

variable {directory document : Text} {depth : Nat} {warnings : List Warning}
variable (lone : Lone config tree directory document warnings file text)

/-- The variables of the include. -/
def locals : Bindings Json := localsOf config tree file lone.bindings

include lone

/-- Nothing is left around what is included. -/
theorem splice_eq (contents : Text) : lone.directive.splice contents = contents := by
  simp [Directive.splice, lone.before, lone.after]

/-- What the directive names is the file. -/
theorem including_eq (fuel : Nat) :
    including config tree directory depth lone.directive fuel =
      (resolvePath config tree.cwd lone.directive.path directory).andThen fun _ =>
        includeContents config tree fuel
          (fun text inner => expandIncludes config tree fuel inner (depth + 1) text) file
          lone.locals (depth + 1) := by
  have hincluding : including config tree directory depth lone.directive fuel =
      (Expand.ofExcept (lone.directive.bindings.mapError .directive)).andThen fun bindings =>
        (resolvePath config tree.cwd lone.directive.path directory).andThen fun path =>
          includeContents config tree fuel
            (fun text inner => expandIncludes config tree fuel inner (depth + 1) text) path
            (localsOf config tree path bindings) (depth + 1) := rfl
  rw [hincluding, lone.bound]
  refine (Expand.done_andThen _ _).trans (Expand.andThen_congr fun _ path hpath => ?_)
  obtain ⟨-, hfile⟩ := Prod.mk.inj (Option.some.inj (lone.resolved.symm.trans hpath))
  rw [← Except.ok.inj hfile]
  rfl

/-- Within the bound the file takes the place of the document. -/
theorem expandIncludes_within (hhook : config.hook = none)
    (hdepth : (depth + 1 : Nat) ≤ config.maxDepth) (fuel : Nat) :
    expandIncludes config tree (fuel + 1) directory depth document =
      (resolvePath config tree.cwd lone.directive.path directory).andThen fun _ =>
        (substitute config tree fuel lone.locals text).andThen
          (expandIncludes config tree fuel (Path.parent file) (depth + 1)) := by
  let expand (text inner : Text) := expandIncludes config tree fuel inner (depth + 1) text
  have hfiles := Glob.expandFiles_of_isFile lone.literal (File.isFile_of_read lone.read)
  have hcontents : includeContents config tree fuel expand file lone.locals (depth + 1) =
      (substitute config tree fuel lone.locals text).andThen
        (expandIncludes config tree fuel (Path.parent file) (depth + 1)) := by
    have hadd : includeContents config tree fuel expand file lone.locals (depth + 1) =
        addFiles config tree fuel expand [file] [] lone.locals := by
      rw [includeContents_of_found config tree hdepth (by rw [hfiles]; simp), hfiles]
    rw [hadd, addFiles_single hhook lone.read]
  rw [expandIncludes_succ config tree lone.found, lone.including_eq, hcontents]
  -- What has been included is expanded, so that the next round finds nothing.
  simp only [lone.splice_eq, Expand.andThen_assoc, expandIncludes_again]

/-- Beyond the bound the file is not read. -/
theorem expandIncludes_beyond (hdepth : config.maxDepth < (depth + 1 : Nat)) (fuel : Nat) :
    expandIncludes config tree (fuel + 1) directory depth document =
      some (warnings, .error (.tooDeep file config.maxDepth)) := by
  have hcontents (expand : Text → Text → Expand Text) :
      includeContents config tree fuel expand file lone.locals (depth + 1) =
        some ([], .error (.tooDeep file config.maxDepth)) := by
    simp only [includeContents, if_pos hdepth]
    rfl
  have hincluding : including config tree directory depth lone.directive fuel =
      some (warnings, .error (.tooDeep file config.maxDepth)) := by
    rw [lone.including_eq, lone.resolved]
    exact (Expand.andThen_ok (hcontents _)).trans (by rw [List.append_nil])
  rw [expandIncludes_succ config tree lone.found, hincluding]
  exact Expand.andThen_error

end Lone

omit [Codecs] in
/-- An absolute path in its normal form stands for itself. -/
theorem resolvePath_normal (habsolute : Path.isAbsolute file = true)
    (hnormal : Path.normalize file = file) (cwd directory : Text) :
    resolvePath config cwd file directory =
      some (if config.includesDir.isEmpty then [] else [.absoluteInclude file], .ok file) := by
  have hpath : Path.absolute cwd file = file := by
    rw [Path.absolute, Path.join, if_pos habsolute, hnormal]
  simp only [resolvePath, habsolute, hpath, if_true]
  cases config.includesDir.isEmpty <;> rfl

/-- A directive without variables that names a file by its absolute path. -/
def Lone.bare (habsolute : Path.isAbsolute file = true) (hnormal : Path.normalize file = file)
    (hpath : ∀ c ∈ file, Directive.isQuote c = false ∧ c ≠ '\n')
    (hliteral : Wildcard.isPattern file = false)
    (hread : File.read tree file config.encoding = .ok text) (directory : Text) :
    Lone config tree directory (Directive.bare config.delimiters file)
      (if config.includesDir.isEmpty then [] else [.absoluteInclude file]) file text where
  directive := ⟨[], Directive.bare config.delimiters file, file, none, []⟩
  bindings := []
  found := Directive.find?_bare hpath
  before := rfl
  after := rfl
  bound := rfl
  resolved := resolvePath_normal habsolute hnormal tree.cwd directory
  literal := hliteral
  read := hread

theorem expandIncludes_bare {bound : Int} (hbound : 0 ≤ bound) (hdir : config.includesDir = [])
    (hhook : config.hook = none) (habsolute : Path.isAbsolute file = true)
    (hnormal : Path.normalize file = file)
    (hpath : ∀ c ∈ file, Directive.isQuote c = false ∧ c ≠ '\n')
    (hliteral : Wildcard.isPattern file = false)
    (hread : File.read tree file config.encoding = .ok text) (directory : Text) (fuel : Nat) :
    expandIncludes (config.withBound (bound + 1)) tree (fuel + 1) directory 0
        (Directive.bare config.delimiters file) =
      (expandDocument (config.withBound bound) tree fuel text file).raise := by
  let higher := config.withBound (bound + 1)
  let locals := [(docrootName, docrootOf config tree file)]
  have hdepth : ((0 + 1 : Nat) : Int) ≤ higher.maxDepth := by
    show ((0 + 1 : Nat) : Int) ≤ bound + 1
    omega
  -- The two configurations differ in the bound only.
  have hhook : higher.hook = none := hhook
  have hread : File.read tree file higher.encoding = .ok text := hread
  let lone : Lone higher tree directory (Directive.bare config.delimiters file) _ file text :=
    Lone.bare habsolute hnormal hpath hliteral hread directory
  have hresolved : resolvePath higher tree.cwd file directory = .done file := by
    have hdir : higher.includesDir = [] := hdir
    rw [resolvePath_normal habsolute hnormal, hdir]
    rfl
  have hsubstitute : (substitute config tree fuel locals text).FailsOnly Failure.Shallow :=
    substitute_failsOnly (covers_shallow tree) locals text
  calc
    expandIncludes higher tree (fuel + 1) directory 0 (Directive.bare config.delimiters file)
    _ = (substitute config tree fuel locals text).andThen
          (expandIncludes higher tree fuel (Path.parent file) 1) := by
      refine (lone.expandIncludes_within hhook hdepth fuel).trans ?_
      exact (congrArg (Expand.andThen · _) hresolved).trans (Expand.done_andThen _ _)
    _ = (expandDocument (config.withBound bound) tree fuel text file).raise :=
      (lockstep_raise.andThen (lockstep_raise.same hsubstitute)
        (expandIncludes_raise fuel (Path.parent file))).symm

/-- The outcome for a document and that for a directive that names its file, which is given by its
normal absolute path, are the same up to the bound: the bound has to be higher by one for the
directive. -/
theorem expanded_bare_iff {bound : Int} (hbound : 0 ≤ bound) (hdir : config.includesDir = [])
    (hhook : config.hook = none) (habsolute : Path.isAbsolute file = true)
    (hnormal : Path.normalize file = file)
    (hpath : ∀ c ∈ file, Directive.isQuote c = false ∧ c ≠ '\n')
    (hliteral : Wildcard.isPattern file = false)
    (hread : File.read tree file config.encoding = .ok text) (directory : Text) :
    (∀ warnings result,
      Expanded (config.withBound (bound + 1)) tree directory 0
          (Directive.bare config.delimiters file) warnings (result.mapError Failure.raise) ↔
        DocumentExpanded (config.withBound bound) tree text file warnings result) ∧
      ((Diverges fun fuel => expandIncludes (config.withBound (bound + 1)) tree fuel directory 0
          (Directive.bare config.delimiters file)) ↔
        Diverges fun fuel => expandDocument (config.withBound bound) tree fuel text file) := by
  have hround (fuel : Nat) := expandIncludes_bare hbound hdir hhook habsolute hnormal hpath hliteral
    hread directory fuel
  constructor
  · intro warnings result
    constructor
    · rintro ⟨fuel, h⟩
      cases fuel with
      | zero => cases h
      | succ fuel => exact ⟨fuel, Expand.raise_eq_some_iff.mp ((hround fuel).symm.trans h)⟩
    · rintro ⟨fuel, h⟩
      exact ⟨fuel + 1, (hround fuel).trans (Expand.raise_eq_some_iff.mpr h)⟩
  · rw [← diverges_succ_iff]
    constructor
    · intro h fuel
      exact Expand.raise_eq_none_iff.mp ((hround fuel).symm.trans (h fuel))
    · intro h fuel
      exact (hround fuel).trans (Expand.raise_eq_none_iff.mpr (h fuel))

end

/-- A site with a file that includes itself. -/
def selfIncluding : Tree where
  cwd := "/site"
  entries := [(["site"], .directory),
    (["site", "x"], .file (Encoding.encodeUtf8 "<@@include(\"x\")"))]

/-- As a document the file is stopped by the bound two, and for a directive by the bound three, at
the same place. -/
theorem expanded_bare_selfIncluding :
    (0 : Int) ≤ 2 ∧ ({} : Config).includesDir = [] ∧ ({} : Config).hook = none ∧
      Path.isAbsolute "/site/x" = true ∧ Path.normalize "/site/x" = "/site/x" ∧
      (∀ c ∈ ("/site/x" : Text), Directive.isQuote c = false ∧ c ≠ '\n') ∧
      Wildcard.isPattern "/site/x" = false ∧
      File.read selfIncluding "/site/x" "utf-8" = .ok "<@@include(\"x\")" ∧
      Expanded (({} : Config).withBound 3) selfIncluding "/other" 0 (Directive.bare {} "/site/x") []
        (.error (.tooDeep "/site/x" 3)) := by
  have hnormal : Path.normalize "/site/x" = "/site/x" := by decide
  have hpath : ∀ c ∈ ("/site/x" : Text), Directive.isQuote c = false ∧ c ≠ '\n' := by
    simp [Directive.isQuote]
  have hread : File.read selfIncluding "/site/x" "utf-8" = .ok "<@@include(\"x\")" := by cbv
  have hdocument : DocumentExpanded (({} : Config).withBound 2) selfIncluding "<@@include(\"x\")"
      "/site/x" [] (.error (.tooDeep "/site/x" 2)) := ⟨5, by cbv⟩
  exact ⟨by decide, rfl, rfl, rfl, hnormal, hpath, by decide, hread,
    ((expanded_bare_iff (by decide) rfl rfl rfl hnormal hpath (by decide) hread "/other").1 _ _).mpr
      hdocument⟩

end Expansion

end Splice
