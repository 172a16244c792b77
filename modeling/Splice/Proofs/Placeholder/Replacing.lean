import Splice.Placeholder

/-!
# Replacing step by step

How a token is replaced in a text, seen character by character, and what that means for a character
that the token does not have: it stays, and the texts on its two sides are dealt with apart.

* `Text.replaceAux_cons` — what replacing does with the first character of a text;
* `Text.replace_append_cons`, `Placeholder.replaceAll_append_cons` — replacing on both sides of a
  foreign character; and
* `Placeholder.length_replaceAll_marked` — the more foreign characters are inserted, the longer is
  the text that is left.
-/

namespace Splice

namespace Text

variable {token value text : Text} {c : Char}

/-! ### One character -/

/-- The text with the occurrences of a token that is not empty replaced. While `skip` is positive
the characters belong to the occurrence found last. -/
def replaceAux (token value : Text) (skip : Nat) (text : Text) : Text :=
  List.intercalate value (segmentsAux token skip text)

theorem segmentsAux_ne_nil (token : Text) (skip : Nat) (text : Text) :
    segmentsAux token skip text ≠ [] := by
  induction text generalizing skip with
  | nil => simp [segmentsAux]
  | cons c text ih =>
    cases skip with
    | succ skip => exact ih skip
    | zero =>
      rw [segmentsAux]
      split
      · simp
      · split <;> simp

theorem replaceAux_cons (token value : Text) (c : Char) (text : Text) :
    replaceAux token value 0 (c :: text) =
      if hasLead token (c :: text) then value ++ replaceAux token value (token.length - 1) text
      else c :: replaceAux token value 0 text := by
  rw [replaceAux, segmentsAux]
  split
  · rw [List.intercalate_cons_of_ne_nil (segmentsAux_ne_nil token _ text)]
    rfl
  · obtain ⟨segment, rest, hsegments⟩ :=
      List.exists_cons_of_ne_nil (segmentsAux_ne_nil token 0 text)
    rw [replaceAux, hsegments]
    cases rest with
    | nil => simp [List.intercalate]
    | cons next rest => simp

theorem replace_eq_replaceAux (h : token ≠ []) (value text : Text) :
    replace token value text = replaceAux token value 0 text := by
  rw [replace, segments, List.isEmpty_eq_false_iff.mpr h]
  rfl

/-- The empty token is found in front of each character and at the end. -/
theorem replace_nil_token (value text : Text) :
    replace [] value text = value ++ text.flatMap fun c => c :: value := by
  have hsegments : segments [] text = [] :: text.map (fun c => [c]) ++ [[]] := rfl
  rw [replace, hsegments, List.cons_append, List.intercalate_cons_of_ne_nil (by simp),
    List.nil_append]
  clear hsegments
  congr 1
  induction text with
  | nil => rfl
  | cons c text ih =>
    rw [List.map_cons, List.cons_append, List.intercalate_cons_of_ne_nil (by simp), ih]
    simp

/-! ### Foreign characters -/

/-- A lead without the character is found in front of it. -/
theorem hasLead_append_cons (hc : c ∉ token) (left right : Text) :
    hasLead token (left ++ c :: right) = hasLead token left := by
  induction token generalizing left with
  | nil => rfl
  | cons d token ih =>
    obtain ⟨hd, htoken⟩ := List.ne_and_not_mem_of_not_mem_cons hc
    cases left with
    | nil => simp [hasLead, dropLead?, Ne.symm hd]
    | cons e left =>
      have hrest := ih htoken left
      simp only [hasLead, List.cons_append, dropLead?] at hrest ⊢
      split
      · exact hrest
      · rfl

theorem length_le_of_hasLead (h : hasLead token text = true) : token.length ≤ text.length := by
  obtain ⟨rest, hrest⟩ := Option.isSome_iff_exists.mp h
  rw [dropLead?_eq_some_iff.mp hrest, List.length_append]
  omega

theorem replaceAux_append_cons (hc : c ∉ token) (htoken : token ≠ []) (value right : Text)
    (left : Text) (skip : Nat) (hskip : skip ≤ left.length) :
    replaceAux token value skip (left ++ c :: right) =
      replaceAux token value skip left ++ c :: replaceAux token value 0 right := by
  induction left generalizing skip with
  | nil =>
    obtain rfl : skip = 0 := Nat.le_zero.mp hskip
    have hhere : hasLead token (c :: right) = false := by
      rw [← List.nil_append (c :: right), hasLead_append_cons hc]
      cases token with
      | nil => exact absurd rfl htoken
      | cons d token => rfl
    rw [List.nil_append, replaceAux_cons, hhere]
    rfl
  | cons d left ih =>
    cases skip with
    | succ skip => exact ih skip (Nat.le_of_succ_le_succ hskip)
    | zero =>
      have hlead := hasLead_append_cons hc (d :: left) right
      rw [List.cons_append] at hlead ⊢
      rw [replaceAux_cons, replaceAux_cons, hlead]
      split
      · -- The token ends in front of the foreign character.
        rename_i hhere
        have hlength : token.length ≤ left.length + 1 := length_le_of_hasLead hhere
        rw [ih (token.length - 1) (by omega), List.append_assoc]
      · rw [ih 0 (Nat.zero_le _), List.cons_append]

/-- On both sides of a character that the token does not have, the token is replaced apart. -/
theorem replace_append_cons (hc : c ∉ token) (value left right : Text) :
    replace token value (left ++ c :: right) =
      replace token value left ++ c :: replace token value right := by
  by_cases htoken : token = []
  · subst htoken
    simp [replace_nil_token]
  · rw [replace_eq_replaceAux htoken, replace_eq_replaceAux htoken, replace_eq_replaceAux htoken]
    exact replaceAux_append_cons hc htoken value right left 0 (Nat.zero_le _)

/-- A text in which the token occurs has several segments. -/
theorem one_lt_length_segments (h : token <:+: text) : 1 < (segments token text).length := by
  by_cases htoken : token = []
  · simp [segments, htoken]
  · rw [segments, List.isEmpty_eq_false_iff.mpr htoken]
    simp only [Bool.false_eq_true, if_false]
    induction text with
    | nil => exact absurd (List.infix_nil.mp h) htoken
    | cons c text ih =>
      rw [segmentsAux]
      split
      · have hrest := List.length_pos_iff.mpr (segmentsAux_ne_nil token (token.length - 1) text)
        rw [List.length_cons]
        omega
      · rename_i hhere
        -- The token does not begin here, so it occurs behind the first character.
        have htail : token <:+: text := by
          rcases List.infix_cons_iff.mp h with ⟨rest, hrest⟩ | htail
          · refine absurd ?_ hhere
            rw [hasLead, dropLead?_eq_some_iff.mpr hrest.symm]
            rfl
          · exact htail
        obtain ⟨segment, rest, hsegments⟩ :=
          List.exists_cons_of_ne_nil (segmentsAux_ne_nil token 0 text)
        have hlong := ih htail
        rw [hsegments] at hlong ⊢
        exact hlong

end Text

namespace Placeholder

variable {d : Delimiters} {texts : Bindings Text} {c : Char}

theorem replaceAll_cons (d : Delimiters) (name value : Text) (texts : Bindings Text)
    (document : Text) :
    replaceAll d ((name, value) :: texts) document =
      replaceAll d texts (Text.replace (token d name) value document) := rfl

theorem replaceAll_append (d : Delimiters) (first second : Bindings Text) (document : Text) :
    replaceAll d (first ++ second) document = replaceAll d second (replaceAll d first document) :=
  List.foldl_append

theorem replaceAll_append_cons (hc : ∀ name ∈ Bindings.names texts, c ∉ token d name)
    (left right : Text) :
    replaceAll d texts (left ++ c :: right) =
      replaceAll d texts left ++ c :: replaceAll d texts right := by
  induction texts generalizing left right with
  | nil => rfl
  | cons entry texts ih =>
    obtain ⟨name, value⟩ := entry
    have hfirst : c ∉ token d name := hc name List.mem_cons_self
    have hrest := ih fun other hother => hc other (List.mem_cons_of_mem _ hother)
    rw [replaceAll_cons, Text.replace_append_cons hfirst, hrest]
    rfl

/-- If a foreign character is written twice between segments, then more is left than if it is
written once. -/
theorem length_replaceAll_marked (hc : ∀ name ∈ Bindings.names texts, c ∉ token d name)
    (segments : List Text) :
    (replaceAll d texts (List.intercalate [c] segments)).length + (segments.length - 1) ≤
      (replaceAll d texts (List.intercalate [c, c] segments)).length := by
  induction segments with
  | nil => simp
  | cons segment rest ih =>
    cases rest with
    | nil => simp [List.intercalate]
    | cons next rest =>
      have hone : List.intercalate [c] (segment :: next :: rest) =
          segment ++ c :: List.intercalate [c] (next :: rest) := by
        simp
      have htwo : List.intercalate [c, c] (segment :: next :: rest) =
          segment ++ c :: ([] ++ c :: List.intercalate [c, c] (next :: rest)) := by
        simp
      rw [hone, htwo, replaceAll_append_cons hc, replaceAll_append_cons hc,
        replaceAll_append_cons hc]
      simp only [List.length_append, List.length_cons] at ih ⊢
      omega

end Placeholder

end Splice
