import Splice.Proofs.Expansion.Inert
import Splice.Proofs.Placeholder.Cutting

/-!
# A placeholder on its own

A document that is nothing but the placeholder of one variable becomes the value of that variable,
unless the placeholder of a variable whose turn comes first stands in it. Without a closing
delimiter this happens as soon as one name begins with another.

* `Text.Cut.length_flatten` — how much of a text its pieces are;
* `Placeholder.replaceAll_token` — a placeholder in which no other one stands;
* `Placeholder.replaceAll_token_iff` — for which orders of names a placeholder becomes its value;
  and
* `Placeholder.replaceAll_token_cut` — a placeholder of which only a part is replaced.
-/

namespace Splice

namespace Text

variable {token value text : Text}

/-- A token that is all of the text is replaced. -/
theorem replace_self (htoken : token ≠ []) (value : Text) : replace token value token = value := by
  have hend : Cut token [] [[]] := .whole fun h => htoken (List.infix_nil.mp h)
  have hcut : Cut token token [[], []] := .first (by simp) (fun _ _ _ => Nat.zero_le _) hend
  have hreplaced : Replaced token value token value := by
    rw [Replaced, if_neg htoken]
    exact ⟨_, hcut, by simp [List.intercalate]⟩
  exact (replaced_iff.mp hreplaced).symm

/-- The pieces of a text and the occurrences between them make up its length. -/
theorem Cut.length_flatten {pieces : List Text} (h : Cut token text pieces) :
    pieces.flatten.length + (pieces.length - 1) * token.length = text.length ∧ pieces ≠ [] := by
  induction h with
  | whole => simp
  | @first text before after pieces htext _ _ ih =>
    obtain ⟨hlength, hpieces⟩ := ih
    obtain ⟨piece, rest, rfl⟩ := List.exists_cons_of_ne_nil hpieces
    refine ⟨?_, by simp⟩
    rw [htext]
    simp only [List.length_append, List.flatten_cons, List.length_cons, Nat.add_sub_cancel,
      Nat.add_mul] at hlength ⊢
    omega

theorem intercalate_nil_left (pieces : List Text) :
    List.intercalate [] pieces = pieces.flatten := by
  induction pieces with
  | nil => rfl
  | cons piece rest ih =>
    cases rest with
    | nil => simp [List.intercalate]
    | cons next rest =>
      rw [List.intercalate_cons_of_ne_nil (by simp), ih]
      simp

theorem length_replace_nil (htoken : token ≠ []) (text : Text) :
    (replace token [] text).length + ((segments token text).length - 1) * token.length =
      text.length := by
  have hcut : Cut token text (segmentsAux token 0 text) := cut_segmentsAux htoken 0 text
  rw [replace, intercalate_nil_left, segments, List.isEmpty_eq_false_iff.mpr htoken]
  exact hcut.length_flatten.1

/-- Erasing a token never makes a text longer. -/
theorem length_replace_nil_le (token text : Text) :
    (replace token [] text).length ≤ text.length := by
  by_cases htoken : token = []
  · rw [htoken, replace_nil_token]
    simp
  · have := length_replace_nil htoken text
    omega

/-- Erasing a token that occurs makes a text shorter. -/
theorem length_replace_nil_lt (htoken : token ≠ []) (h : token <:+: text) :
    (replace token [] text).length < text.length := by
  have hlength := length_replace_nil htoken text
  have hsegments := one_lt_length_segments h
  have htokenLength := List.length_pos_iff.mpr htoken
  have := Nat.mul_pos (Nat.sub_pos_of_lt hsegments) htokenLength
  omega

end Text

/-- A bound name stands where it is bound first. -/
theorem Bindings.exists_first {α : Type} {name : Text} {bindings : Bindings α}
    (h : name ∈ names bindings) :
    ∃ before value after, bindings = before ++ (name, value) :: after ∧
      names before = (names bindings).takeWhile (· ≠ name) ∧ get? name bindings = some value := by
  induction bindings with
  | nil => exact absurd h List.not_mem_nil
  | cons entry rest ih =>
    obtain ⟨key, value⟩ := entry
    by_cases hkey : key = name
    · subst hkey
      exact ⟨[], value, rest, rfl, by simp [names], by simp [get?]⟩
    · have hrest : name ∈ names rest := List.mem_of_ne_of_mem (Ne.symm hkey) h
      obtain ⟨before, found, after, rfl, hbefore, hget⟩ := ih hrest
      refine ⟨(key, value) :: before, found, after, rfl, ?_, ?_⟩
      · simp only [names, List.map_cons] at hbefore ⊢
        rw [hbefore, List.takeWhile_cons_of_pos (by simpa using hkey)]
      · rw [get?, if_neg hkey, hget]

namespace Placeholder

variable {d : Delimiters} {texts : Bindings Text} {document name : Text}

theorem token_ne_nil (hopener : d.opener ≠ []) (name : Text) : token d name ≠ [] := by
  simp [token, hopener]

/-- A value without the opening delimiter holds no placeholder. -/
theorem not_token_infix {value : Text} (h : ¬ d.opener <:+: value) (name : Text) :
    ¬ token d name <:+: value := by
  intro htoken
  refine h (List.IsInfix.trans ?_ htoken)
  exact ⟨[], name ++ d.closer, by simp [token]⟩

/-- A placeholder in which no placeholder of an earlier name stands becomes the value of its name,
if the values hold no placeholders. -/
theorem replaceAll_token (hopener : d.opener ≠ []) (hname : name ∈ Bindings.names texts)
    (hvalues : ∀ entry ∈ texts, ¬ d.opener <:+: entry.2)
    (hearlier : ∀ earlier ∈ (Bindings.names texts).takeWhile (· ≠ name),
      ¬ token d earlier <:+: token d name) :
    Bindings.get? name texts = some (replaceAll d texts (token d name)) := by
  obtain ⟨before, value, after, rfl, hbefore, hget⟩ := Bindings.exists_first hname
  have hfirst : replaceAll d before (token d name) = token d name :=
    replaceAll_eq_self (by rw [hbefore]; exact hearlier)
  have hvalue : ¬ d.opener <:+: value := hvalues (name, value) (by simp)
  have hlast : replaceAll d after value = value :=
    replaceAll_eq_self fun other _ => not_token_infix hvalue other
  rw [hget, replaceAll_append, hfirst, replaceAll_cons,
    Text.replace_self (token_ne_nil hopener name), hlast]

/-! ### Placeholders of earlier names -/

/-- Nothing is added to a document by empty values, and by values of names whose placeholders are
longer than the document. -/
theorem length_replaceAll_le
    (h : ∀ entry ∈ texts, entry.2 = [] ∨ document.length < (token d entry.1).length) :
    (replaceAll d texts document).length ≤ document.length := by
  induction texts generalizing document with
  | nil => exact Nat.le_refl _
  | cons entry texts ih =>
    obtain ⟨other, value⟩ := entry
    have hstep : (Text.replace (token d other) value document).length ≤ document.length := by
      rcases h (other, value) List.mem_cons_self with rfl | hlong
      · exact Text.length_replace_nil_le _ _
      · have hnone : ¬ token d other <:+: document := fun hwithin =>
          absurd hwithin.length_le (Nat.not_le_of_lt hlong)
        exact Nat.le_of_eq (congrArg List.length (Text.replace_eq_self value hnone))
    have hrest := ih fun entry hentry =>
      (h entry (List.mem_cons_of_mem _ hentry)).imp_right (Nat.lt_of_le_of_lt hstep)
    rw [replaceAll_cons]
    exact Nat.le_trans hrest hstep

/-- Empty values make a document shorter in which one of their placeholders stands. -/
theorem length_replaceAll_lt (hopener : d.opener ≠ []) (hempty : ∀ entry ∈ texts, entry.2 = [])
    (h : ∃ other ∈ Bindings.names texts, token d other <:+: document) :
    (replaceAll d texts document).length < document.length := by
  induction texts generalizing document with
  | nil =>
    obtain ⟨other, hother, -⟩ := h
    exact absurd hother List.not_mem_nil
  | cons entry texts ih =>
    obtain ⟨first, value⟩ := entry
    obtain rfl : value = [] := hempty (first, value) List.mem_cons_self
    have htexts : ∀ entry ∈ texts, entry.2 = [] := fun entry hentry =>
      hempty entry (List.mem_cons_of_mem _ hentry)
    rw [replaceAll_cons]
    by_cases hfirst : token d first <:+: document
    · -- The first name makes the text shorter, and the others do not make it longer.
      have hstep := Text.length_replace_nil_lt (token_ne_nil hopener first) hfirst
      have hrest : (replaceAll d texts (Text.replace (token d first) [] document)).length ≤
          (Text.replace (token d first) [] document).length :=
        length_replaceAll_le fun entry hentry => .inl (htexts entry hentry)
      exact Nat.lt_of_le_of_lt hrest hstep
    · -- The first name leaves the text as it is, with the other token in it.
      rw [Text.replace_eq_self [] hfirst]
      obtain ⟨other, hother, hwithin⟩ := h
      rcases List.mem_cons.mp hother with rfl | hother
      · exact absurd hwithin hfirst
      · exact ih htexts ⟨other, hother, hwithin⟩

/-- The names bound to no text, but for one. -/
def onlyBound (names : List Text) (name value : Text) : Bindings Text :=
  names.map fun other => (other, if other = name then value else [])

theorem names_onlyBound (names : List Text) (name value : Text) :
    Bindings.names (onlyBound names name value) = names := by
  simp [Bindings.names, onlyBound, Function.comp_def]

theorem get?_onlyBound {names : List Text} (h : name ∈ names) (value : Text) :
    Bindings.get? name (onlyBound names name value) = some value := by
  induction names with
  | nil => exact absurd h List.not_mem_nil
  | cons other names ih =>
    by_cases hother : other = name
    · simp [onlyBound, Bindings.get?, hother]
    · have := ih (List.mem_of_ne_of_mem (Ne.symm hother) h)
      simpa [onlyBound, Bindings.get?, hother] using this

/-- If a placeholder of an earlier name stands in it, then a placeholder is not replaced where the
values of other names are empty. -/
theorem length_replaceAll_onlyBound (hopener : d.opener ≠ []) {names : List Text}
    (hname : name ∈ names) {earlier : Text} (hearlier : earlier ∈ names.takeWhile (· ≠ name))
    (hwithin : token d earlier <:+: token d name) (value : Text) :
    (replaceAll d (onlyBound names name value) (token d name)).length < (token d name).length := by
  have hbound : name ∈ Bindings.names (onlyBound names name value) := by rwa [names_onlyBound]
  obtain ⟨before, found, after, hsplit, hbefore, -⟩ := Bindings.exists_first hbound
  rw [names_onlyBound] at hbefore
  have hempty (entry : Text × Text) (hentry : entry ∈ onlyBound names name value)
      (hother : entry.1 ≠ name) : entry.2 = [] := by
    obtain ⟨other, -, rfl⟩ := List.mem_map.mp hentry
    exact if_neg hother
  have hfirst : (replaceAll d before (token d name)).length < (token d name).length := by
    refine length_replaceAll_lt hopener (fun entry hentry => ?_)
      ⟨earlier, by rwa [hbefore], hwithin⟩
    refine hempty entry (by rw [hsplit]; exact List.mem_append_left _ hentry) ?_
    have hkey : entry.1 ∈ names.takeWhile (· ≠ name) := by
      rw [← hbefore]
      exact List.mem_map_of_mem hentry
    simpa using List.all_eq_true.mp List.all_takeWhile _ hkey
  -- The placeholder does not come back: the document stays shorter than it.
  have hlast : (replaceAll d ((name, found) :: after) (replaceAll d before (token d name))).length ≤
      (replaceAll d before (token d name)).length := by
    refine length_replaceAll_le fun entry hentry => ?_
    by_cases hother : entry.1 = name
    · exact .inr (by rwa [hother])
    · exact .inl (hempty entry (by rw [hsplit]; exact List.mem_append_right _ hentry) hother)
  rw [hsplit, replaceAll_append]
  exact Nat.lt_of_le_of_lt hlast hfirst

/-- Some text of any length does without the opening delimiter. -/
theorem exists_long_value (hopener : d.opener ≠ []) (length : Nat) :
    ∃ value : Text, value.length = length ∧ ¬ d.opener <:+: value := by
  obtain ⟨o, opener, heq⟩ := List.exists_cons_of_ne_nil hopener
  obtain ⟨c, hc⟩ : ∃ c, c ≠ o := by
    by_cases ho : o = 'a'
    · exact ⟨'b', by rw [ho]; decide⟩
    · exact ⟨'a', Ne.symm ho⟩
  refine ⟨List.replicate length c, List.length_replicate, fun hwithin => ?_⟩
  have hmem : o ∈ List.replicate length c := hwithin.subset (by rw [heq]; exact List.mem_cons_self)
  exact hc (List.eq_of_mem_replicate hmem).symm

/-- Names are bound in some order, to values without the opening delimiter. The placeholder of a
name becomes the value of that name, whatever the values are, if and only if it holds no placeholder
of a name that comes before it. -/
theorem replaceAll_token_iff (hopener : d.opener ≠ []) {names : List Text} (hname : name ∈ names) :
    (∀ texts, Bindings.names texts = names → (∀ entry ∈ texts, ¬ d.opener <:+: entry.2) →
        Bindings.get? name texts = some (replaceAll d texts (token d name))) ↔
      ∀ earlier ∈ names.takeWhile (· ≠ name), ¬ token d earlier <:+: token d name := by
  constructor
  · intro hlaw earlier hearlier hwithin
    obtain ⟨value, hlength, hvalue⟩ := exists_long_value hopener (token d name).length
    have hvalues : ∀ entry ∈ onlyBound names name value, ¬ d.opener <:+: entry.2 := by
      intro entry hentry
      obtain ⟨other, -, rfl⟩ := List.mem_map.mp hentry
      dsimp only
      split
      · exact hvalue
      · exact fun h => hopener (List.infix_nil.mp h)
    have hresult := hlaw _ (names_onlyBound names name value) hvalues
    rw [get?_onlyBound hname] at hresult
    have hshort := length_replaceAll_onlyBound hopener hname hearlier hwithin value
    rw [← Option.some.inj hresult, hlength] at hshort
    exact absurd hshort (Nat.lt_irrefl _)
  · rintro hearlier texts rfl hvalues
    exact replaceAll_token hopener hname hvalues hearlier

/-- Two variables, the longer name first. -/
def longerFirst : Bindings Text := [("ab", "2"), ("a", "1")]

/-- The same variables, the shorter name first. -/
def shorterFirst : Bindings Text := [("a", "1"), ("ab", "2")]

/-- The placeholder `@@a` holds no placeholder of a longer name. -/
theorem replaceAll_token_longerFirst :
    ({} : Delimiters).opener ≠ [] ∧ ("a" : Text) ∈ Bindings.names longerFirst ∧
      Bindings.get? "a" longerFirst = some (replaceAll {} longerFirst (token {} "a")) := by
  have hopener : ({} : Delimiters).opener ≠ [] := by decide
  have hname : ("a" : Text) ∈ Bindings.names longerFirst := by decide
  have hlaw := (replaceAll_token_iff hopener hname).mpr (by decide)
  exact ⟨hopener, hname, hlaw longerFirst rfl (by decide)⟩

/-- Of the placeholder `@@ab` the part `@@a` is replaced if the shorter name comes first. -/
theorem replaceAll_token_cut :
    Bindings.get? "ab" shorterFirst = some ("2" : Text) ∧
      (∀ entry ∈ shorterFirst, ¬ ({} : Delimiters).opener <:+: entry.2) ∧
      replaceAll {} shorterFirst (token {} "ab") = ("1b" : Text) := by
  decide

end Placeholder

end Splice
