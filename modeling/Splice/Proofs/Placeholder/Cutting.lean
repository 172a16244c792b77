import Splice.Proofs.Placeholder.Replacing
import Splice.Text.Pattern

/-!
# Cutting a text at a token

What replacing a token is, said without a scan: the token is taken where it occurs first, and then
where it occurs first behind that. And a pattern that is escaped searches for the text itself.

* `Text.Cut` — the pieces of a text between the occurrences of a token;
* `Text.Replaced` — a text with the occurrences of a token replaced;
* `Text.replaced_iff` — there is just one, the result of `Text.replace`; and
* `Pattern.literal?_escape_append`, `Pattern.literal?_escape` — what an escaped text matches.
-/

namespace Splice

namespace Text

variable {token value text : Text}

/-! ### Pieces -/

/-- The pieces of a text between the occurrences of a token, which are taken from the left and do
not overlap. -/
inductive Cut (token : Text) : Text → List Text → Prop
  /-- A text without the token is one piece. -/
  | whole {text : Text} (hnone : ¬ token <:+: text) : Cut token text [text]
  /-- The first piece ends where the token occurs first, and the others are those of the text behind
  that occurrence. -/
  | first {text before after : Text} {pieces : List Text}
      (htext : text = before ++ (token ++ after))
      (hfirst : ∀ front back, text = front ++ (token ++ back) → before.length ≤ front.length)
      (hrest : Cut token after pieces) : Cut token text (before :: pieces)

theorem infix_of_eq_append {front back : Text} (h : text = front ++ (token ++ back)) :
    token <:+: text :=
  ⟨front, back, by rw [h, List.append_assoc]⟩

/-- A text is cut in one way only. -/
theorem Cut.unique {pieces pieces' : List Text} (h : Cut token text pieces)
    (h' : Cut token text pieces') : pieces = pieces' := by
  induction h generalizing pieces' with
  | whole hnone =>
    cases h' with
    | whole => rfl
    | first htext => exact absurd (infix_of_eq_append htext) hnone
  | first htext hfirst hrest ih =>
    cases h' with
    | whole hnone => exact absurd (infix_of_eq_append htext) hnone
    | first htext' hfirst' hrest' =>
      have hlength := Nat.le_antisymm (hfirst _ _ htext') (hfirst' _ _ htext)
      obtain ⟨rfl, hbehind⟩ := List.append_inj (htext.symm.trans htext') hlength
      obtain rfl := List.append_cancel_left hbehind
      rw [ih hrest']

/-- A character at which the token does not begin belongs to the first piece. -/
theorem Cut.cons {c : Char} {piece : Text} {pieces : List Text} (hlead : ¬ token <+: c :: text)
    (h : Cut token text (piece :: pieces)) : Cut token (c :: text) ((c :: piece) :: pieces) := by
  cases h with
  | whole hnone =>
    refine .whole fun hwithin => ?_
    rcases List.infix_cons_iff.mp hwithin with hhere | htail
    · exact hlead hhere
    · exact hnone htail
  | first htext hfirst hrest =>
    refine .first (by rw [htext, List.cons_append]) (fun front back heq => ?_) hrest
    cases front with
    | nil => exact absurd ⟨back, heq.symm⟩ hlead
    | cons d front =>
      have := hfirst front back (List.cons.inj heq).2
      exact Nat.succ_le_succ this

/-! ### The scan finds the pieces -/

theorem hasLead_iff : hasLead token text = true ↔ token <+: text := by
  rw [hasLead, Option.isSome_iff_exists]
  constructor
  · rintro ⟨rest, hrest⟩
    exact ⟨rest, (dropLead?_eq_some_iff.mp hrest).symm⟩
  · rintro ⟨rest, hrest⟩
    exact ⟨rest, dropLead?_eq_some_iff.mpr hrest.symm⟩

/-- While characters are skipped, the pieces are those of the text behind them. -/
theorem cut_segmentsAux (htoken : token ≠ []) (skip : Nat) (text : Text) :
    Cut token (text.drop skip) (segmentsAux token skip text) := by
  induction text generalizing skip with
  | nil =>
    rw [List.drop_nil]
    exact .whole fun h => htoken (List.infix_nil.mp h)
  | cons c text ih =>
    cases skip with
    | succ skip => exact ih skip
    | zero =>
      rw [segmentsAux]
      split
      · -- The token occurs here: its first character is `c`, and the others are skipped.
        rename_i hhere
        obtain ⟨after, hafter⟩ := hasLead_iff.mp hhere
        obtain ⟨d, others, rfl⟩ := List.exists_cons_of_ne_nil htoken
        have htail : others ++ after = text := (List.cons.inj hafter).2
        have hdrop : text.drop others.length = after := by
          rw [← htail, List.drop_left]
        have hrest := ih ((d :: others).length - 1)
        rw [List.length_cons, Nat.add_sub_cancel, hdrop] at hrest
        exact .first hafter.symm (fun _ _ _ => Nat.zero_le _) hrest
      · rename_i hhere
        have hrest := ih 0
        obtain ⟨piece, pieces, hpieces⟩ :=
          List.exists_cons_of_ne_nil (segmentsAux_ne_nil token 0 text)
        rw [hpieces] at hrest ⊢
        exact hrest.cons (mt hasLead_iff.mpr hhere)

/-- `result` is the text with the occurrences of the token replaced by `value`. The empty token
occurs before, between and after all characters. -/
def Replaced (token value text result : Text) : Prop :=
  if token = [] then result = value ++ text.flatMap fun c => c :: value
  else ∃ pieces, Cut token text pieces ∧ result = List.intercalate value pieces

theorem replaced_iff {result : Text} :
    Replaced token value text result ↔ result = replace token value text := by
  unfold Replaced
  split
  · rename_i htoken
    rw [htoken, replace_nil_token]
  · rename_i htoken
    have hcut : Cut token text (segmentsAux token 0 text) := cut_segmentsAux htoken 0 text
    rw [replace_eq_replaceAux htoken, replaceAux]
    constructor
    · rintro ⟨pieces, hpieces, rfl⟩
      rw [hpieces.unique hcut]
    · exact fun h => ⟨_, hcut, h⟩

end Text

/-! ### Escaped patterns -/

namespace Pattern

theorem not_isAlphanum_of_special : ∀ c ∈ special, c.isAlphanum = false := by
  have hall : special.all (fun c => !c.isAlphanum) = true := by decide
  simpa using List.all_eq_true.mp hall

theorem operators_subset_special : ∀ c ∈ operators, c ∈ special := by
  have hall : operators.all (fun c => special.elem c) = true := by decide
  simpa using List.all_eq_true.mp hall

/-- A character behind a backslash that is neither a letter nor a digit stands for itself. -/
theorem literal?_backslash {c : Char} (hc : c.isAlphanum = false) (pattern : Text) :
    literal? ('\\' :: c :: pattern) = (literal? pattern).map (c :: ·) := by
  rw [literal?, hc]
  rfl

/-- A character that is no operator stands for itself. -/
theorem literal?_plain {c : Char} (hc : c ∉ operators) (pattern : Text) :
    literal? (c :: pattern) = (literal? pattern).map (c :: ·) := by
  have hslash : c ≠ '\\' := by
    rintro rfl
    exact hc (by decide)
  rw [literal?, if_neg hc]
  · exact fun h => absurd h hslash
  · exact fun _ _ h => absurd h hslash

/-- An escaped text matches itself. -/
theorem literal?_escape_append (text pattern : Text) :
    literal? (escape text ++ pattern) = (literal? pattern).map (text ++ ·) := by
  induction text with
  | nil => simp [escape]
  | cons c text ih =>
    have hrest : (literal? (escape text ++ pattern)).map (c :: ·) =
        (literal? pattern).map (c :: text ++ ·) := by
      rw [ih, Option.map_map]
      rfl
    rw [← hrest, escape, List.flatMap_cons]
    by_cases hc : c ∈ special
    · rw [if_pos hc]
      exact literal?_backslash (not_isAlphanum_of_special c hc) _
    · rw [if_neg hc]
      exact literal?_plain (mt (operators_subset_special c) hc) _

theorem literal?_escape (text : Text) : literal? (escape text) = some text := by
  have := literal?_escape_append text []
  simpa [literal?] using this

end Pattern

end Splice
