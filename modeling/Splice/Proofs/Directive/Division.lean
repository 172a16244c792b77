import Splice.Proofs.Directive.Grammar

/-!
# The directives of a document

A document falls into its directives, from left to right and without overlap, and the texts between
them.

* `Directive.Divides` — this division;
* `Directive.NoneOpens` — when no directive can begin in a part of a document; and
* `Directive.find?_append` — the search then goes on behind that part.
-/

namespace Splice.Directive

variable {d : Delimiters}

/-! ### What a found directive leaves -/

/-- The document is the directive with the text around it. -/
theorem split_of_find? {document : Text} {found : Directive} (h : find? d document = some found) :
    document = found.before ++ (found.text ++ found.after) := by
  obtain ⟨o, -, rfl⟩ := exists_first_of_find? h
  exact o.split

/-- A directive is never empty. -/
theorem text_ne_nil_of_find? {document : Text} {found : Directive}
    (h : find? d document = some found) : found.text ≠ [] := by
  obtain ⟨o, -, rfl⟩ := exists_first_of_find? h
  exact o.reading.written_ne_nil d

theorem length_after_lt {document : Text} {found : Directive}
    (h : find? d document = some found) : found.after.length < document.length := by
  have htext := List.length_pos_iff.mpr (text_ne_nil_of_find? h)
  have hsplit := congrArg List.length (split_of_find? h)
  simp only [List.length_append] at hsplit
  omega

/-- The text of a directive is a directive in any document. -/
theorem find?_text {document : Text} {found : Directive} (h : find? d document = some found)
    (front back : Text) :
    ∃ other, find? d (front ++ (found.text ++ back)) = some other ∧ other.start ≤ front.length := by
  obtain ⟨o, -, rfl⟩ := exists_first_of_find? h
  let o' : Occurrence d (front ++ (o.directive.text ++ back)) :=
    ⟨front.length, o.reading, back, List.drop_left⟩
  cases hfind : find? d (front ++ (o.directive.text ++ back)) with
  | none => exact absurd ⟨o'⟩ (find?_eq_none_iff.mp hfind)
  | some other =>
    obtain ⟨first, hfirst, rfl⟩ := exists_first_of_find? hfind
    exact ⟨_, rfl, first.directive_start ▸ hfirst.start_le o'⟩

theorem find?_nil : find? d [] = none := by
  cases hfind : find? d [] with
  | none => rfl
  | some found => exact absurd (length_after_lt hfind) (by simp)

/-! ### Division -/

/-- The directives of a document, one after the other, and the text behind the last. The text in
front of each directive begins behind the one before. -/
inductive Divides (d : Delimiters) : Text → List Directive → Text → Prop
  /-- There is no directive. -/
  | last {document : Text} : find? d document = none → Divides d document [] document
  /-- There is a first directive, and others behind it. -/
  | next {document : Text} {directive : Directive} {directives : List Directive} {last : Text} :
      find? d document = some directive → Divides d directive.after directives last →
      Divides d document (directive :: directives) last

/-! ### Searching behind a part -/

/-- No directive begins in the first part of a document, since its opener and its word do not. -/
def NoneOpens (d : Delimiters) (left right : Text) : Prop :=
  ∀ front back : Text, left ++ right = front ++ (d.opener ++ keyword ++ back) →
    left.length ≤ front.length

/-- The directive in a document with more text in front. -/
def behind (left : Text) (directive : Directive) : Directive :=
  { directive with before := left ++ directive.before }

theorem noneOpens_nil (right : Text) : NoneOpens d [] right := fun _ _ _ => Nat.zero_le _

/-- A part without the first character of the opener is such a part. -/
theorem noneOpens_of_not_mem {c : Char} {word left : Text} (hword : d.opener ++ keyword = c :: word)
    (h : c ∉ left) (right : Text) : NoneOpens d left right := by
  intro front back hsplit
  refine Nat.le_of_not_lt fun hlt => h ?_
  rw [hword] at hsplit
  have hat := congrArg (fun text => text[front.length]?) hsplit
  simp only [List.getElem?_append_left hlt, List.cons_append, List.getElem?_append_right,
    Nat.le_refl, Nat.sub_self, List.getElem?_cons_zero] at hat
  exact List.mem_of_getElem? hat

theorem NoneOpens.tail {c : Char} {left right : Text} (h : NoneOpens d (c :: left) right) :
    NoneOpens d left right := by
  intro front back hsplit
  have := h (c :: front) back (by rw [List.cons_append, hsplit, List.cons_append])
  simpa using this

theorem read?_eq_none_of_noneOpens {c : Char} {left right : Text}
    (h : NoneOpens d (c :: left) right) : read? d (c :: left ++ right) = none := by
  cases hread : read? d (c :: left ++ right) with
  | none => rfl
  | some parts =>
    obtain ⟨r, hwritten, -⟩ := read?_eq_some hread
    rw [Reading.written_append] at hwritten
    exact absurd (h [] _ (by rw [hwritten, List.nil_append])) (by simp)

/-- What is found in a document is found in what follows a part in which no directive begins. -/
theorem find?_append {left right : Text} (h : NoneOpens d left right) :
    find? d (left ++ right) = (find? d right).map (behind left) := by
  induction left with
  | nil => cases hfind : find? d right <;> simp [hfind, behind]
  | cons c left ih =>
    have hnone := read?_eq_none_of_noneOpens h
    rw [List.cons_append] at hnone
    rw [List.cons_append, find?, hnone]
    simp only
    rw [ih h.tail]
    cases find? d right <;> simp [behind]

/-- Without its opener no directive is found. -/
theorem find?_eq_none {text : Text} (h : ¬ d.opener <:+: text) : find? d text = none := by
  have hopens : NoneOpens d text [] := by
    intro front back hsplit
    rw [List.append_nil] at hsplit
    refine absurd ⟨front, keyword ++ back, ?_⟩ h
    simp [hsplit]
  have hfind := find?_append hopens
  rwa [List.append_nil, find?_nil] at hfind

end Splice.Directive
