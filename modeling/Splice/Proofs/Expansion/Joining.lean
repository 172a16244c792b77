import Mathlib.Data.List.Forall2
import Splice.Proofs.Directive.Division
import Splice.Proofs.Expansion.Inert
import Splice.Proofs.Expansion.Scans

/-!
# Files that are joined

The files of an include are added to a text one after the other, and the whole text is expanded
again with each of them. If neither a placeholder nor a tag can begin in what they hold, nor where
one file follows another, then they are joined by line feeds and nothing else happens to them.

* `Expansion.Contents`, `Expansion.joined` — the contents of files, and what they are joined to;
* `Expansion.adding_quiet` — files that are added to a text; and
* `Expansion.includeContents_joined` — the files of an include.
-/

namespace Splice.Expansion

section

variable [Codecs]
variable {config : Config} {tree : Tree} {depth : Nat}

/-- The contents of some files. -/
def Contents (config : Config) (tree : Tree) (files contents : List Text) : Prop :=
  List.Forall₂ (fun file text => File.read tree file config.encoding = .ok text) files contents

/-- The contents of files, with a line feed between each two. -/
def joined (contents : List Text) : Text := List.intercalate ['\n'] contents

theorem joined_cons {first : Text} {files rest : List Text}
    (hcontents : Contents config tree files rest) :
    joined (first :: rest) = first ++ (if files.isEmpty then [] else ['\n']) ++ joined rest := by
  cases hcontents with
  | nil => simp [joined]
  | cons _ _ => simp [joined, List.intercalate_cons_cons]

/-- Files that are added to a text. With each of them, the text so far is the beginning of what the
text is in the end, so that nothing begins in it either. -/
theorem adding_quiet (hhook : config.hook = none) {files contents : List Text} {text : Text}
    (hcontents : Contents config tree files contents)
    (hquiet : Quiet config.delimiters (text ++ joined contents)) (locals : Bindings Json)
    (fuel : Nat) :
    adding config tree depth files text locals (fuel + 1) = .done (text ++ joined contents) := by
  induction hcontents generalizing text with
  | nil =>
    simp only [adding, addFiles, joined]
    simp
  | @cons file first files rest hread hrest ih =>
    let next := text ++ first ++ (if files.isEmpty then [] else ['\n'])
    have hnext : text ++ joined (first :: rest) = next ++ joined rest := by
      rw [joined_cons hrest]
      simp [next]
    rw [hnext] at hquiet ⊢
    have hfront : Quiet config.delimiters next := hquiet.of_prefix (List.prefix_append _ _)
    have hhooked : applyHook config next locals file = .done (next, locals) := by
      rw [applyHook, hhook]
    have hcontent : Expand.ofExcept ((File.read tree file config.encoding).mapError Failure.file) =
        .done first := by
      rw [hread]
      rfl
    rw [adding_cons]
    simp only [hcontent, Expand.done_andThen]
    rw [substitute_quiet hfront, Expand.done_andThen,
      expandIncludes_done config tree (Directive.find?_eq_none hfront.no_opener),
      Expand.done_andThen, addingRest, hhooked, Expand.done_andThen]
    exact ih hquiet

/-- The files of an include are joined by line feeds, without a warning, if neither the opener of
placeholders nor that of tags is in what they are joined to. -/
theorem includeContents_joined (hhook : config.hook = none) (hdepth : depth ≤ config.maxDepth)
    {path : Text} {contents : List Text} (hfound : Glob.expandFiles tree none path ≠ [])
    (hcontents : Contents config tree (Glob.expandFiles tree none path) contents)
    (hopener : ¬ config.delimiters.opener <:+: joined contents)
    (htag : ¬ Mustache.standardDelimiters.opener <:+: joined contents) (locals : Bindings Json)
    (fuel : Nat) :
    includeContents config tree (fuel + 1)
        (fun text inner => expandIncludes config tree (fuel + 1) inner depth text) path
          locals depth =
      .done (joined contents) := by
  have hadding : adding config tree depth (Glob.expandFiles tree none path) [] locals (fuel + 1) =
      .done (joined contents) := adding_quiet hhook hcontents ⟨hopener, htag⟩ locals fuel
  rw [includeContents_of_found config tree hdepth hfound]
  exact hadding

end

/-- A site with three pages, of which the second is empty, and a directory that is named like
them. -/
def threePages : Tree where
  cwd := "/site"
  entries := [(["site"], .directory), (["site", "p4"], .directory),
    (["site", "p3"], .file (Encoding.encodeUtf8 "@x \x7b\n")), (["site", "p2"], .file []),
    (["site", "p1"], .file (Encoding.encodeUtf8 "a\r\n"))]

/-- A variable whose name is in the third page, but not behind an opener. -/
def withVariable : Config := { globals := ([("x", .scalar (.text "1"))] : List (Text × Value)) }

theorem includeContents_threePages :
    Glob.expandFiles threePages none "/site/p*" =
      (["/site/p1", "/site/p2", "/site/p3"] : List Text) ∧
      Contents withVariable threePages (["/site/p1", "/site/p2", "/site/p3"] : List Text)
        (["a\r\n", "", "@x \x7b\n"] : List Text) ∧
      includeContents withVariable threePages 1
          (fun text inner => expandIncludes withVariable threePages 1 inner 1 text) "/site/p*"
          ([("a", .int 2)] : List (Text × Json)) 1 =
        .done "a\r\n\n\n@x \x7b\n" := by
  have hfiles : Glob.expandFiles threePages none "/site/p*" =
      (["/site/p1", "/site/p2", "/site/p3"] : List Text) := by cbv
  have hcontents :
    Contents withVariable threePages (["/site/p1", "/site/p2", "/site/p3"] : List Text)
      (["a\r\n", "", "@x \x7b\n"] : List Text) :=
    .cons (by cbv) (.cons (by cbv) (.cons (by cbv) .nil))
  have hdepth : (1 : ℕ) ≤ withVariable.maxDepth := by decide
  refine ⟨hfiles, hcontents, ?_⟩
  exact includeContents_joined rfl hdepth (by rw [hfiles]; simp) (hfiles ▸ hcontents) (by decide)
    (by decide) _ 0

end Splice.Expansion
