import Splice.Proofs.Expansion.Scans
import Splice.Proofs.Mustache.Loading

/-!
# Whether expansions end

Includes nest up to a bound, but nothing bounds the rounds of a document. Without a hook, what is
included has no directives left, so a round brings the end of the document nearer unless the next
directive reaches into the new contents from the left.

* `Expansion.Straddles` — the next directive does so;
* `Expansion.expandDocument_settles_iff` — an expansion ends if and only if this does not happen
  again and again in some document; and
* `Expansion.expandDocument_cyclic` — an expansion in which it does.
-/

namespace Splice.Expansion

section

variable [Codecs]
variable {config : Config} {tree : Tree}

/-! ### Included contents -/

theorem find?_adding (hhook : config.hook = none) {depth fuel : Nat} {files : List Text}
    {text result : Text} {locals : Bindings Json} {warnings : List Warning}
    (hnil : files = [] → Directive.find? config.delimiters text = none)
    (h : adding config tree depth files text locals fuel = some (warnings, .ok result)) :
    Directive.find? config.delimiters result = none := by
  induction files generalizing text locals warnings with
  | nil =>
    cases h
    exact hnil rfl
  | cons file files ih =>
    simp only [adding_cons] at h
    obtain ⟨_, contents, _, -, h, -⟩ := Expand.ok_of_andThen h
    obtain ⟨_, document, _, -, h, -⟩ := Expand.ok_of_andThen h
    obtain ⟨more, expanded, _, hexpanded, h, -⟩ := Expand.ok_of_andThen h
    obtain ⟨_, ⟨text', locals'⟩, _, happly, h, -⟩ := Expand.ok_of_andThen h
    -- The hook, which is missing, leaves the expanded text as it is.
    rw [applyHook, hhook] at happly
    cases happly
    obtain ⟨parts, hsplices, -⟩ := expanded_ok_iff.mp ⟨fuel, hexpanded⟩
    exact ih (fun _ => hsplices.find?_result) h

/-- Without a hook, there are no directives in what is included. -/
theorem Included.find?_contents (hhook : config.hook = none) {directory : Text} {depth : Nat}
    {directive : Directive} {warnings : List Warning} {contents : Text}
    (h : Included config tree directory depth directive warnings (.ok contents)) :
    Directive.find? config.delimiters contents = none := by
  obtain ⟨fuel, h⟩ := h
  obtain ⟨_, bindings, _, -, h, -⟩ := Expand.ok_of_andThen h
  obtain ⟨_, path, _, -, h, -⟩ := Expand.ok_of_andThen h
  unfold includeContents at h
  split at h
  · cases h
  split at h
  · cases h
  · simp only at h
    split at h
    · obtain ⟨_, _, _, -, h, -⟩ := Expand.ok_of_andThen h
      exact find?_adding hhook (fun _ => Directive.find?_nil) h
    · exact find?_adding hhook (fun _ => Directive.find?_nil) h

/-! ### Progress of rounds -/

/-- The directive of the next round begins in front of the contents that have just been inserted,
and ends within them. -/
structure Straddles (part next : Part) : Prop where
  start_lt : next.directive.start < part.directive.start
  lt_stop : part.directive.start < next.directive.stop
  stop_le : next.directive.stop ≤ part.directive.start + part.contents.length

omit [Codecs] in
/-- A text within another: of two divisions of one text, the middle part of one lies in that of the
other. -/
theorem eq_append_of_within {a b c x y z : Text} (h : a ++ (b ++ c) = x ++ (y ++ z))
    (hstart : a.length ≤ x.length) (hstop : x.length + y.length ≤ a.length + b.length) :
    ∃ front back, b = front ++ (y ++ back) := by
  obtain ⟨front, rfl⟩ : a <+: x := by
    refine List.prefix_of_prefix_length_le ⟨b ++ c, rfl⟩ ⟨y ++ z, h.symm⟩ hstart
  rw [List.append_assoc, List.append_cancel_left_eq] at h
  obtain ⟨back, hback⟩ : front ++ y <+: b := by
    refine List.prefix_of_prefix_length_le ⟨z, by rw [h, List.append_assoc]⟩ ⟨c, rfl⟩ ?_
    simp only [List.length_append] at hstop ⊢
    omega
  exact ⟨front, back, by rw [← hback, List.append_assoc]⟩

omit [Codecs] in
/-- A round brings the end of the document nearer unless the next directive straddles. -/
theorem length_after_lt_or_straddles {d : Delimiters} {document : Text} {part next : Part}
    (hfound : Directive.find? d document = some part.directive)
    (hcontents : Directive.find? d part.contents = none)
    (hnext : Directive.find? d (part.directive.splice part.contents) = some next.directive) :
    next.directive.after.length < part.directive.after.length ∨ Straddles part next := by
  have hsplit := Directive.split_of_find? hnext
  rw [Directive.splice, List.append_assoc] at hsplit
  have hlength := congrArg List.length hsplit
  simp only [List.length_append] at hlength
  by_cases hafter : next.directive.after.length < part.directive.after.length
  · exact .inl hafter
  refine .inr ⟨?_, ?_, ?_⟩
  · -- Otherwise the directive lies within the contents, which have none.
    refine Nat.lt_of_not_le fun hle => ?_
    simp only [Directive.start] at hle
    obtain ⟨front, back, hwithin⟩ := eq_append_of_within hsplit hle (by omega)
    obtain ⟨other, hother, -⟩ := Directive.find?_text hnext front back
    rw [← hwithin, hcontents] at hother
    cases hother
  · -- Otherwise it lies in front of the contents, and would have been found before.
    refine Nat.lt_of_not_le fun hle => ?_
    simp only [Directive.start, Directive.stop] at hle
    have hsplit' : [] ++ (part.directive.before ++ (part.contents ++ part.directive.after)) =
      next.directive.before ++ (next.directive.text ++ next.directive.after) := hsplit
    obtain ⟨front, back, hwithin⟩ :=
      eq_append_of_within hsplit' (Nat.zero_le _) (by simpa using hle)
    have hlengths := congrArg List.length hwithin
    have hpos := List.length_pos_iff.mpr (Directive.text_ne_nil_of_find? hnext)
    obtain ⟨other, hother, hstart⟩ := Directive.find?_text hnext front
      (back ++ (part.directive.text ++ part.directive.after))
    have hdocument := Directive.split_of_find? hfound
    rw [hwithin] at hdocument
    rw [show front
      ++ (next.directive.text ++ (back ++ (part.directive.text ++ part.directive.after))) =
        document by rw [hdocument]; simp only [List.append_assoc], hfound] at hother
    obtain rfl := Option.some.inj hother
    simp only [Directive.start, List.length_append] at hstart hlengths
    omega
  · simp only [Directive.start, Directive.stop]
    omega

/-- In rounds without end, directives straddle again and again. -/
theorem Scan.Endless.straddles (hhook : config.hook = none) {scan : Scan} {parts : Nat → Part}
    (h : scan.Endless config tree parts) (n : Nat) :
    ∃ m, n ≤ m ∧ Straddles (parts m) (parts (m + 1)) := by
  refine Classical.byContradiction fun hnone => ?_
  have hshorter (m : Nat) (hle : n ≤ m) :
      (parts (m + 1)).directive.after.length < (parts m).directive.after.length :=
    (length_after_lt_or_straddles (h m).found ((h m).included.find?_contents hhook)
      (h (m + 1)).found).resolve_right fun hstraddles => hnone ⟨m, hle, hstraddles⟩
  -- What stands behind the directive would get shorter for ever.
  have hdown (k : Nat) :
      (parts (n + k)).directive.after.length + k ≤ (parts n).directive.after.length := by
    induction k with
    | zero => exact Nat.le_refl _
    | succ k ih =>
      have := hshorter (n + k) (Nat.le_add_right n k)
      simp only [← Nat.add_assoc]
      omega
  have := hdown ((parts n).directive.after.length + 1)
  omega

/-! ### Ends of expansions -/

/-- The rounds of a scan go on without end, and directives straddle in them again and again. -/
def Scan.Recurs (config : Config) (tree : Tree) (scan : Scan) : Prop :=
  ∃ parts, scan.Endless config tree parts ∧
    ∀ n, ∃ m, n ≤ m ∧ Straddles (parts m) (parts (m + 1))

/-- The scan with which the expansion of a document begins. -/
def Starts (config : Config) (tree : Tree) (document file : Text) (scan : Scan) : Prop :=
  ∃ substituted warnings, scan = ⟨Path.parent file, 0, substituted⟩ ∧
    Settles (fun fuel =>
      substitute config tree fuel [(docrootName, docrootOf config tree file)] document)
      (warnings, .ok substituted)

theorem diverges_expandDocument_iff (hrender : RenderingEnds config tree) {document file : Text} :
    (Diverges fun fuel => expandDocument config tree fuel document file) ↔
      ∃ start, Starts config tree document file start ∧ Diverges (start.expand config tree) := by
  have hexpand : (fun fuel => expandDocument config tree fuel document file) = fun fuel =>
      (substitute config tree fuel [(docrootName, docrootOf config tree file)] document).andThen
        (expandIncludes config tree fuel (Path.parent file) 0) := rfl
  rw [hexpand, Expand.diverges_andThen_iff (stable_substitute config tree _ _)
    (stable_expandIncludes config tree _ _)]
  constructor
  · rintro (hdiverges | ⟨warnings, substituted, hsubstitute, hdiverges⟩)
    · exact absurd hdiverges (not_diverges_substitute hrender _ _)
    · exact ⟨_, ⟨substituted, warnings, rfl, hsubstitute⟩, hdiverges⟩
  · rintro ⟨_, ⟨substituted, warnings, rfl, hsubstitute⟩, hdiverges⟩
    exact .inr ⟨warnings, substituted, hsubstitute, hdiverges⟩

/-- Without a hook, and if rendering ends, the expansion of a document has an outcome unless it
comes to a document whose rounds go on without end, with directives that begin in front of what has
just been inserted and end within it again and again. -/
theorem expandDocument_settles_iff (hhook : config.hook = none)
    (hrender : RenderingEnds config tree) (document file : Text) :
    (∃ outcome, Settles (fun fuel => expandDocument config tree fuel document file) outcome) ↔
      ¬ ∃ start scan, Starts config tree document file start ∧
        start.Reaches config tree scan ∧ scan.Recurs config tree := by
  constructor
  · rintro ⟨outcome, hsettles⟩ ⟨start, scan, hstarts, hreaches, parts, hendless, -⟩
    exact ((diverges_expandDocument_iff hrender).mpr
      ⟨start, hstarts, hreaches.diverges hrender hendless.diverges⟩).not_settles outcome hsettles
  · intro hnone
    rcases settles_or_diverges fun fuel => expandDocument config tree fuel document file with
      hsettles | hdiverges
    · exact hsettles
    · obtain ⟨start, hstarts, hstart⟩ := (diverges_expandDocument_iff hrender).mp hdiverges
      obtain ⟨scan, parts, hreaches, hendless⟩ := Scan.exists_endless_of_diverges hrender hstart
      exact absurd ⟨start, scan, hstarts, hreaches, parts, hendless, hendless.straddles hhook⟩ hnone

omit [Codecs] in
/-- Without templates to embed, rendering ends. -/
theorem renderingEnds_of_no_templates (config : Config) (h : Mustache.hasTemplates tree = false) :
    RenderingEnds config tree := by
  intro locals document
  simp only [renderTemplate]
  split
  · have hload (key : Text) : (environment config tree).load key = .ok [] := by
      simp only [environment, Mustache.loadEmbedded_eq_nil h]
      rfl
    obtain ⟨outcome, fuel, hrender⟩ := Mustache.render_settles hload locals document
    exact ⟨([], outcome), fuel, by simp only [hrender]; rfl⟩
  · exact ⟨_, 0, rfl⟩

end

/-- The expansion of a page with one include ends, so that its directives do not recur. -/
theorem not_recurs_oneFile :
    ¬ ∃ start scan, Starts {} oneFile "a@@include(\"x\")b" "/site/page" start ∧
      start.Reaches {} oneFile scan ∧ scan.Recurs {} oneFile :=
  (expandDocument_settles_iff rfl (renderingEnds_of_no_templates {} (by decide)) _ _).mp
    ⟨([], .ok "ahib"), 5, by cbv⟩

/-! ### An expansion without end -/

/-- A site with two files. The first ends a directive for the second and a directive for itself, and
the second begins two directives. -/
def cyclic : Tree where
  cwd := "/srv/website"
  entries := [(["srv"], .directory), (["srv", "website"], .directory),
    (["srv", "website", "a"], .file (Encoding.encodeUtf8 "\"b\")\"a\")")),
    (["srv", "website", "b"], .file (Encoding.encodeUtf8 "@@include(@@include("))]

/-- A document of that site: the include of its second directive completes its first one. -/
def cyclicPage : Text := "@@include(@@include(\"a\")"

/-- What the first round makes of it. Another round gives the first document again. -/
def cyclicNext : Text := "@@include(\"b\")\"a\")"

/-- What is replaced in the first document. -/
def cyclicPart : Part :=
  ⟨⟨"@@include(", "@@include(\"a\")", "a", none, []⟩, [], "\"b\")\"a\")"⟩

/-- What is replaced in the next. -/
def cyclicNextPart : Part :=
  ⟨⟨[], "@@include(\"b\")", "b", none, "\"a\")"⟩, [], "@@include(@@include("⟩

theorem round_cyclicPage : Round {} cyclic "/srv/website" 0 cyclicPage cyclicPart :=
  ⟨by cbv, 5, by cbv⟩

theorem round_cyclicNext : Round {} cyclic "/srv/website" 0 cyclicNext cyclicNextPart :=
  ⟨by cbv, 5, by cbv⟩

/-- A document whose expansion does not end, although rendering does and there is no hook. -/
theorem expandDocument_cyclic :
    ({} : Config).hook = none ∧ RenderingEnds {} cyclic ∧
      Diverges fun fuel => expandDocument {} cyclic fuel cyclicPage "/srv/website/page" := by
  have hrender : RenderingEnds {} cyclic := renderingEnds_of_no_templates {} (by decide)
  refine ⟨rfl, hrender, (diverges_expandDocument_iff hrender).mpr
    ⟨⟨"/srv/website", 0, cyclicPage⟩, ⟨cyclicPage, [], by cbv, 5, by cbv⟩, ?_⟩⟩
  refine diverges_of_rounds (fun document => document = cyclicPage ∨ document = cyclicNext) ?_
    (.inl rfl)
  rintro document (rfl | rfl)
  · exact ⟨cyclicPart, round_cyclicPage, .inr (by decide)⟩
  · exact ⟨cyclicNextPart, round_cyclicNext, .inl (by decide)⟩

end Splice.Expansion
