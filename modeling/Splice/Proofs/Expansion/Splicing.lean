import Mathlib
import Splice.Proofs.Directive.Division
import Splice.Proofs.Expansion.Fuel

/-!
# Rounds of splicing

A document is expanded in rounds: each replaces the first directive of the document that the one
before has left.

* `Expansion.Splices` — these rounds, up to a document without directives;
* `Expansion.expanded_ok_iff` — they are what expansion does; and
* `Expansion.expanded_replaced` — if no directive can begin in what has been replaced, the rounds
  replace the directives of the original document, each one once, from left to right.
-/

namespace Splice.Expansion

section

variable [Codecs]
variable (config : Config) (tree : Tree)

/-! ### Rounds -/

/-- A directive that is replaced, with what is included for it. -/
structure Part where
  /-- The directive. -/
  directive : Directive
  /-- The warnings of the include. -/
  warnings : List Warning
  /-- The text in its place. -/
  contents : Text

/-- The part that is replaced first. The document stands in `directory` with `depth` includes around
it. -/
structure Round (directory : Text) (depth : Nat) (document : Text) (part : Part) : Prop where
  found : Directive.find? config.delimiters document = some part.directive
  included : Included config tree directory depth part.directive part.warnings (.ok part.contents)

/-- The parts that are replaced in the rounds of a document, in their order, and the last
document. -/
inductive Splices (directory : Text) (depth : Nat) : Text → List Part → Text → Prop
  /-- There is no directive. -/
  | done {document : Text} : Directive.find? config.delimiters document = none →
      Splices directory depth document [] document
  /-- The first directive is replaced, and then those of the new document. -/
  | next {document : Text} {part : Part} {parts : List Part} {result : Text} :
      Round config tree directory depth document part →
      Splices directory depth (part.directive.splice part.contents) parts result →
      Splices directory depth document (part :: parts) result

variable {config} {tree}
variable {directory document result : Text} {depth : Nat} {parts : List Part}

/-- A document has one first round at most. -/
theorem Round.unique {part part' : Part} (h : Round config tree directory depth document part)
    (h' : Round config tree directory depth document part') : part = part' := by
  obtain ⟨directive, warnings, contents⟩ := part
  obtain ⟨directive', warnings', contents'⟩ := part'
  obtain rfl := Option.some.inj (h.found.symm.trans h'.found)
  have houtcome := h.included.unique (stable_including config tree directory depth _) h'.included
  obtain ⟨rfl, hcontents⟩ := Prod.mk.inj houtcome
  obtain rfl := Except.ok.inj hcontents
  rfl

/-- No directive is left in the last document. -/
theorem Splices.find?_result (h : Splices config tree directory depth document parts result) :
    Directive.find? config.delimiters result = none := by
  induction h with
  | done hfind => exact hfind
  | next _ _ ih => exact ih

/-- The rounds of a document are determined. -/
theorem Splices.unique {parts' : List Part} {result' : Text}
    (h : Splices config tree directory depth document parts result)
    (h' : Splices config tree directory depth document parts' result') :
    parts = parts' ∧ result = result' := by
  induction h generalizing parts' result' with
  | done hfind =>
    cases h' with
    | done => exact ⟨rfl, rfl⟩
    | next hround' => exact absurd (hfind.symm.trans hround'.found) (by simp)
  | next hround _ ih =>
    cases h' with
    | done hfind' => exact absurd (hfind'.symm.trans hround.found) (by simp)
    | next hround' hrest =>
      obtain rfl := hround.unique hround'
      obtain ⟨rfl, rfl⟩ := ih hrest
      exact ⟨rfl, rfl⟩

theorem Splices.expanded (h : Splices config tree directory depth document parts result) :
    Expanded config tree directory depth document (parts.flatMap Part.warnings) (.ok result) := by
  induction h with
  | done hfind => exact expanded_done hfind
  | next hround _ ih => exact expanded_next hround.found hround.included ih

theorem exists_splices {warnings : List Warning}
    (h : Expanded config tree directory depth document warnings (.ok result)) :
    ∃ parts, Splices config tree directory depth document parts result ∧
      warnings = parts.flatMap Part.warnings := by
  obtain ⟨fuel, h⟩ := h
  induction fuel generalizing document warnings with
  | zero => cases h
  | succ fuel ih =>
    cases hfind : Directive.find? config.delimiters document with
    | none =>
      simp only [expandIncludes_done config tree hfind] at h
      cases h
      exact ⟨[], .done hfind, rfl⟩
    | some directive =>
      simp only [expandIncludes_succ config tree hfind] at h
      obtain ⟨first, contents, second, hincluded, hrest, rfl⟩ := Expand.ok_of_andThen h
      obtain ⟨parts, hsplices, rfl⟩ := ih hrest
      exact ⟨⟨directive, first, contents⟩ :: parts, .next ⟨hfind, fuel, hincluded⟩ hsplices, rfl⟩

/-- A document is expanded to a text if and only if its rounds end there. -/
theorem expanded_ok_iff {warnings : List Warning} :
    Expanded config tree directory depth document warnings (.ok result) ↔
      ∃ parts, Splices config tree directory depth document parts result ∧
        warnings = parts.flatMap Part.warnings := by
  refine ⟨exists_splices, ?_⟩
  rintro ⟨parts, hsplices, rfl⟩
  exact hsplices.expanded

/-! ### Replacing all directives at once -/

/-- The text in front of each directive and what is included for it, one after the other. -/
def replaced (parts : List Part) : Text :=
  parts.flatMap fun part => part.directive.before ++ part.contents

/-- The parts as they are found when what stands in front of them has been replaced already. -/
def placed : Text → List Part → List Part
  | _, [] => []
  | left, part :: parts =>
      { part with directive := part.directive.behind left } ::
        placed (left ++ part.directive.before ++ part.contents) parts

omit [Codecs] in
theorem warnings_placed (left : Text) (parts : List Part) :
    (placed left parts).flatMap Part.warnings = parts.flatMap Part.warnings := by
  induction parts generalizing left with
  | nil => rfl
  | cons part parts ih => simp only [placed, List.flatMap_cons, ih]

/-- What is included for a directive does not depend on the text around it. -/
theorem Included.behind {directive : Directive} {warnings : List Warning}
    {contents : Except Failure Text}
    (h : Included config tree directory depth directive warnings contents) (left : Text) :
    Included config tree directory depth (directive.behind left) warnings contents := h

theorem splices_placed {left last : Text}
    (hdivides : Directive.Divides config.delimiters document (parts.map Part.directive) last)
    (hincluded : ∀ part ∈ parts,
      Included config tree directory depth part.directive part.warnings (.ok part.contents))
    (hleft : Directive.NoneOpens config.delimiters left document)
    (hnone : ∀ done part rest, parts = done ++ part :: rest →
      Directive.NoneOpens config.delimiters (left ++ replaced (done ++ [part]))
        part.directive.after) :
    Splices config tree directory depth (left ++ document) (placed left parts)
      (left ++ replaced parts ++ last) := by
  induction parts generalizing left document with
  | nil =>
    cases hdivides with
    | last hfind =>
      have hnothing := Directive.find?_append hleft
      rw [hfind] at hnothing
      simpa [replaced, placed] using Splices.done hnothing
  | cons part parts ih =>
    cases hdivides with
    | next hfind hrest =>
      have hfound := Directive.find?_append hleft
      rw [hfind] at hfound
      -- What has been replaced so far grows by the text in front of the directive and its contents.
      let left' := left ++ part.directive.before ++ part.contents
      have hsplices : Splices config tree directory depth (left' ++ part.directive.after)
          (placed left' parts) (left' ++ replaced parts ++ last) := ih hrest
        (fun other hmem => hincluded other (List.mem_cons_of_mem _ hmem))
        (by simpa [replaced, left'] using hnone [] part parts rfl)
        (fun done other rest hsplit => by
          simpa [replaced, left'] using hnone (part :: done) other rest (by rw [hsplit]; rfl))
      refine .next ⟨hfound, (hincluded part (by simp)).behind left⟩ ?_
      simpa [replaced, Directive.splice, Directive.behind, left'] using hsplices

/-- A document is divided into its directives, of which each has its contents. If, after each
replacement, no directive can begin to the left of the end of the new contents, then expansion
replaces each directive once, from left to right, and gives the document with all of them
replaced. -/
theorem expanded_replaced {last : Text}
    (hdivides : Directive.Divides config.delimiters document (parts.map Part.directive) last)
    (hincluded : ∀ part ∈ parts,
      Included config tree directory depth part.directive part.warnings (.ok part.contents))
    (hnone : ∀ done part rest, parts = done ++ part :: rest →
      Directive.NoneOpens config.delimiters (replaced (done ++ [part])) part.directive.after) :
    Expanded config tree directory depth document (parts.flatMap Part.warnings)
        (.ok (replaced parts ++ last)) ∧
      ∀ rounds result, Splices config tree directory depth document rounds result ↔
        rounds = placed [] parts ∧ result = replaced parts ++ last := by
  have hsplices : Splices config tree directory depth document (placed [] parts)
      (replaced parts ++ last) :=
    splices_placed hdivides hincluded (Directive.noneOpens_nil document) hnone
  refine ⟨expanded_ok_iff.mpr ⟨_, hsplices, (warnings_placed [] parts).symm⟩,
    fun rounds result => ⟨fun h => ?_, ?_⟩⟩
  · exact h.unique hsplices
  · rintro ⟨rfl, rfl⟩
    exact hsplices

end

/-- A site with one file. -/
def oneFile : Tree where
  cwd := "/site"
  entries := [(["site"], .directory), (["site", "x"], .file [104, 105])]

/-- A directive for the file of that site, and one for a file that it does not have. -/
def twoParts : List Part :=
  [⟨⟨"a", "@@include(\"x\")", "x", none, "b@@include(\"y\")c"⟩, [], "hi"⟩,
    ⟨⟨"b", "@@include(\"y\")", "y", none, "c"⟩, [.includeNotFound "/site/y"], []⟩]

/-- Both directives of a document are replaced at once. -/
theorem expanded_twoParts :
    Expanded {} oneFile "/site" 0 "a@@include(\"x\")b@@include(\"y\")c"
        [.includeNotFound "/site/y"] (.ok "ahibc") ∧
      Splices {} oneFile "/site" 0 "a@@include(\"x\")b@@include(\"y\")c" (placed [] twoParts)
        "ahibc" := by
  have hdivides : Directive.Divides ({} : Config).delimiters
      "a@@include(\"x\")b@@include(\"y\")c" (twoParts.map Part.directive) "c" :=
    .next (by cbv) (.next (by cbv) (.last (by cbv)))
  have hincluded : ∀ part ∈ twoParts,
      Included {} oneFile "/site" 0 part.directive part.warnings (.ok part.contents) := by
    intro part hpart
    simp only [twoParts, List.mem_cons, List.not_mem_nil, or_false] at hpart
    rcases hpart with rfl | rfl
    · exact ⟨4, by cbv⟩
    · exact ⟨4, by cbv⟩
  have hnone : ∀ done part rest, twoParts = done ++ part :: rest →
      Directive.NoneOpens ({} : Config).delimiters (replaced (done ++ [part]))
        part.directive.after := by
    intro done part rest hsplit
    -- There is no at sign in the texts between the directives and in their contents.
    have hall : '@' ∉ replaced twoParts := by decide
    have hword :
        ({} : Config).delimiters.opener ++ Directive.keyword = '@' :: ("@include(" : Text) :=
      by decide
    refine Directive.noneOpens_of_not_mem hword (fun hmem => hall ?_) _
    rw [hsplit, List.append_cons]
    simp only [replaced, List.flatMap_append, List.mem_append] at hmem ⊢
    exact .inl hmem
  obtain ⟨hexpanded, hrounds⟩ := expanded_replaced hdivides hincluded hnone
  exact ⟨hexpanded, (hrounds _ _).mpr ⟨rfl, by decide⟩⟩

end Splice.Expansion
