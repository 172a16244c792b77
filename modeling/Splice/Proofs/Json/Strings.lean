import Splice.Json.Parser
import Splice.Proofs.Outcomes

/-!
# What the readers of white space and strings consume

A reader that succeeds has consumed the front of its text, and it would have read the same whatever
followed that front. For a string this holds although the reader looks ahead within escapes: it sees
nothing behind the closing quote.

* `Json.skipSpace_replace` — white space in front of a text that is not empty;
* `Json.TakesChar` — how one character of a string can be written, with what a round of the reader
  makes of it; and
* `Json.readString_local` — a string is read up to its quote.
-/

namespace Splice.Json

/-! ### White space -/

/-- Are all characters of a text white space between tokens? -/
def AllSpace (text : Text) : Prop := ∀ c ∈ text, isSpace c = true

theorem eq_space_append (text : Text) :
    ∃ space, AllSpace space ∧ text = space ++ skipSpace text := by
  refine ⟨text.takeWhile isSpace, List.all_eq_true.mp List.all_takeWhile, ?_⟩
  rw [skipSpace, List.takeWhile_append_dropWhile]

theorem skipSpace_append {space : Text} (h : AllSpace space) {c : Char} (hc : isSpace c = false)
    (rest : Text) : skipSpace (space ++ c :: rest) = c :: rest := by
  rw [skipSpace, List.dropWhile_append_of_pos h, List.dropWhile_cons_of_neg (by simp [hc])]

/-- The first character behind white space is none. -/
theorem isSpace_of_skipSpace {text rest : Text} {c : Char} (h : skipSpace text = c :: rest) :
    isSpace c = false := by
  have := List.head?_dropWhile_not isSpace text
  rw [← skipSpace, h] at this
  simpa using this

/-- What follows the character that white space stands before may be another text. -/
theorem skipSpace_before {text : Text} {c : Char} {back : Text} (h : skipSpace text = c :: back) :
    ∃ space, AllSpace space ∧ text = space ++ c :: back ∧
      ∀ back', skipSpace (space ++ c :: back') = c :: back' := by
  obtain ⟨space, hspace, htext⟩ := eq_space_append text
  rw [h] at htext
  exact ⟨space, hspace, htext, fun back' => skipSpace_append hspace (isSpace_of_skipSpace h) back'⟩

/-- What white space stands before may end in another way. -/
theorem skipSpace_replace {text : Text} {c : Char} {front back : Text}
    (h : skipSpace text = c :: front ++ back) :
    ∃ space, AllSpace space ∧ text = space ++ (c :: front ++ back) ∧
      ∀ back', skipSpace (space ++ (c :: front ++ back')) = c :: front ++ back' := by
  obtain ⟨space, hspace, htext, hsame⟩ := skipSpace_before h
  exact ⟨space, hspace, htext, fun back' => hsame (front ++ back')⟩

/-! ### Bodies of strings -/

/-- A body that goes on with a second escape holds all of it. -/
def HoldsEscape (body : Text) : Prop :=
  ∀ rest more, body ++ '"' :: rest = '\\' :: 'u' :: more → 6 ≤ body.length

/-- A body that holds the second escape begins with it. -/
theorem HoldsEscape.split {body rest more : Text} {e f g h : Char} (hbody : HoldsEscape body)
    (heq : body ++ '"' :: rest = '\\' :: 'u' :: e :: f :: g :: h :: more) :
    ∃ behind, body = '\\' :: 'u' :: e :: f :: g :: h :: behind := by
  have hlen := hbody _ _ heq
  have htake := congrArg (List.take 6) heq
  rw [List.take_append_of_le_length hlen] at htake
  exact ⟨body.drop 6, by rw [← List.take_append_drop 6 body, htake]; simp⟩

/-! ### Numeric escapes -/

/-- The number of an escape does not begin a surrogate pair with what follows the escape. -/
def StaysAlone (n : Nat) (behind : Text) : Prop :=
  isHighSurrogate n = true → ∀ e f g h after more,
    behind = '\\' :: 'u' :: e :: f :: g :: h :: after :: more →
      ∃ m, hex4? e f g h = some m ∧ isLowSurrogate m = false

/-- What stands behind a body is the closing quote; whether an escape in front of the body stays
alone does not depend on what follows that. -/
theorem StaysAlone.body {n : Nat} {body rest : Text} (h : StaysAlone n (body ++ '"' :: rest))
    (hbody : HoldsEscape body) (rest' : Text) : StaysAlone n (body ++ '"' :: rest') := by
  intro hhigh e f g i after more heq
  obtain ⟨behind, rfl⟩ := hbody.split heq
  obtain ⟨after', more', hbehind⟩ :=
    List.exists_cons_of_ne_nil (l := behind ++ '"' :: rest) (by simp)
  exact h hhigh e f g i after' more' (by simp [← hbehind])

section

variable {u a₁ a₂ a₃ a₄ e f g i : Char} {n m : Nat} {behind : Text}

theorem readNumericEscape_alone (hn : hex4? a₁ a₂ a₃ a₄ = some n) (hbehind : behind ≠ [])
    (halone : StaysAlone n behind) :
    readNumericEscape (u :: a₁ :: a₂ :: a₃ :: a₄ :: behind) = .ok (Char.ofNat n, behind) := by
  obtain ⟨next, rest, rfl⟩ := List.exists_cons_of_ne_nil hbehind
  simp only [readNumericEscape, hn]
  split
  · rfl
  · rename_i hhigh
    split
    · rename_i e f g i after more
      obtain ⟨m, hm, hlow⟩ := halone (by simpa using hhigh) e f g i after more rfl
      simp [hm, hlow]
    · rfl

theorem readNumericEscape_pair (hn : hex4? a₁ a₂ a₃ a₄ = some n) (hhigh : isHighSurrogate n = true)
    (hm : hex4? e f g i = some m) (hlow : isLowSurrogate m = true) (hbehind : behind ≠ []) :
    readNumericEscape (u :: a₁ :: a₂ :: a₃ :: a₄ :: '\\' :: 'u' :: e :: f :: g :: i :: behind) =
      .ok (Char.ofNat (joinSurrogates n m), behind) := by
  obtain ⟨after, more, rfl⟩ := List.exists_cons_of_ne_nil hbehind
  simp [readNumericEscape, hn, hhigh, hm, hlow]

end

/-- A numeric escape is a number that stays alone, or two that are a pair. Something follows it. -/
theorem readNumericEscape_cases {text behind : Text} {c : Char}
    (h : readNumericEscape text = .ok (c, behind)) :
    behind ≠ [] ∧ ∃ u a₁ a₂ a₃ a₄ n, hex4? a₁ a₂ a₃ a₄ = some n ∧
      ((text = u :: a₁ :: a₂ :: a₃ :: a₄ :: behind ∧ c = Char.ofNat n ∧ StaysAlone n behind) ∨
        ∃ e f g i m, text = u :: a₁ :: a₂ :: a₃ :: a₄ :: '\\' :: 'u' :: e :: f :: g :: i :: behind ∧
          hex4? e f g i = some m ∧ isHighSurrogate n = true ∧ isLowSurrogate m = true ∧
          c = Char.ofNat (joinSurrogates n m)) := by
  unfold readNumericEscape at h
  split at h
  · rename_i u a₁ a₂ a₃ a₄ next rest
    split at h
    · exact absurd h (by simp)
    · rename_i n hn
      dsimp only at h
      split at h
      · -- the number is no first half
        rename_i hhigh
        obtain ⟨rfl, rfl⟩ := Prod.mk.inj (Except.ok.inj h)
        have halone : StaysAlone n (next :: rest) :=
          fun hfirst => absurd hfirst (by simpa using hhigh)
        exact ⟨by simp, u, a₁, a₂, a₃, a₄, n, hn, .inl ⟨rfl, rfl, halone⟩⟩
      · rename_i hhigh
        have hfirst : isHighSurrogate n = true := by simpa using hhigh
        split at h
        · rename_i e f g i after more
          split at h
          · exact absurd h (by simp)
          · rename_i m hm
            split at h
            · rename_i hlow
              obtain ⟨hc, rfl⟩ := Prod.mk.inj (Except.ok.inj h)
              exact ⟨by simp, u, a₁, a₂, a₃, a₄, n, hn,
                .inr ⟨e, f, g, i, m, rfl, hm, hfirst, hlow, hc.symm⟩⟩
            · -- the second escape is no second half
              rename_i hlow
              obtain ⟨rfl, rfl⟩ := Prod.mk.inj (Except.ok.inj h)
              have halone : StaysAlone n ('\\' :: 'u' :: e :: f :: g :: i :: after :: more) := by
                rintro - e' f' g' i' after' more' heq
                cases heq
                exact ⟨m, hm, by simpa using hlow⟩
              exact ⟨by simp, u, a₁, a₂, a₃, a₄, n, hn, .inl ⟨rfl, rfl, halone⟩⟩
        · -- no second escape follows
          rename_i hpair
          obtain ⟨rfl, rfl⟩ := Prod.mk.inj (Except.ok.inj h)
          have halone : StaysAlone n (next :: rest) := by
            intro _ e f g i after more heq
            obtain ⟨hnext, hrest⟩ := List.cons.inj heq
            exact (hpair e f g i after more hnext hrest).elim
          exact ⟨by simp, u, a₁, a₂, a₃, a₄, n, hn, .inl ⟨rfl, rfl, halone⟩⟩
  · exact absurd h (by simp)

/-- A numeric escape uses the same characters whatever follows the string in which it stands. `body`
is the string behind the escape up to its quote. -/
theorem readNumericEscape_local {text body rest : Text} {c : Char}
    (h : readNumericEscape text = .ok (c, body ++ '"' :: rest)) (hbody : HoldsEscape body) :
    ∃ escape, text = escape ++ (body ++ '"' :: rest) ∧ 5 ≤ escape.length ∧
      ∀ rest', readNumericEscape (escape ++ (body ++ '"' :: rest')) =
        .ok (c, body ++ '"' :: rest') := by
  have hbehind : ∀ rest' : Text, body ++ '"' :: rest' ≠ [] := by simp
  obtain ⟨-, u, a₁, a₂, a₃, a₄, n, hn,
      ⟨rfl, rfl, halone⟩ | ⟨e, f, g, i, m, rfl, hm, hhigh, hlow, hc⟩⟩ :=
    readNumericEscape_cases h
  · exact ⟨[u, a₁, a₂, a₃, a₄], rfl, by simp, fun rest' =>
      readNumericEscape_alone hn (hbehind rest') (halone.body hbody rest')⟩
  · rw [hc]
    exact ⟨[u, a₁, a₂, a₃, a₄, '\\', 'u', e, f, g, i], rfl, by simp, fun rest' =>
      readNumericEscape_pair hn hhigh hm hlow (hbehind rest')⟩

/-! ### Characters of a string -/

/-- A text begins with a character of a string in one of its written forms, and goes on with another
text. -/
inductive TakesChar : Text → Char → Text → Prop
  /-- The character has a numeric escape. -/
  | numeric {digits behind : Text} {c : Char} :
      readNumericEscape ('u' :: digits) = .ok (c, behind) →
      TakesChar ('\\' :: 'u' :: digits) c behind
  /-- It has an escape of one letter. -/
  | letter {e c : Char} {behind : Text} : e ≠ 'u' → simpleEscape? e = some c →
      TakesChar ('\\' :: e :: behind) c behind
  /-- It stands for itself. -/
  | itself {c : Char} {behind : Text} : c ≠ '"' → c ≠ '\\' → ¬ c.toNat < 0x20 →
      TakesChar (c :: behind) c behind

/-- One round of the reader takes one character. -/
theorem TakesChar.readString {text behind : Text} {c : Char} (h : TakesChar text c behind)
    (start : Text) (fuel : Nat) :
    readString start (fuel + 1) text =
      (readString start fuel behind).map fun (s, rest) => (c :: s, rest) := by
  cases h with
  | numeric hescape => simp only [Json.readString, hescape]
  | letter hu hescape =>
    rw [Json.readString]
    · simp only [hescape]
    · exact hu
  | itself hquote hslash hcontrol =>
    rw [Json.readString]
    · rw [if_neg hcontrol]
    · exact hquote
    · exact hslash

/-- A round of the reader comes to the closing quote, or it takes one character. -/
theorem readString_cases {start text s rest : Text} {fuel : Nat}
    (h : readString start (fuel + 1) text = .ok (s, rest)) :
    (s = [] ∧ text = '"' :: rest) ∨ ∃ c s' behind, s = c :: s' ∧ TakesChar text c behind ∧
      readString start fuel behind = .ok (s', rest) := by
  unfold readString at h
  split at h
  · exact absurd h (by simp)
  · obtain ⟨rfl, rfl⟩ := Prod.mk.inj (Except.ok.inj h)
    exact .inl ⟨rfl, rfl⟩
  · split at h
    · exact absurd h (by simp)
    · split at h
      · exact absurd h (by simp)
      · rename_i c behind hescape
        obtain ⟨⟨s', rest⟩, hread, hpair⟩ := map_eq_ok_iff.mp h
        obtain ⟨rfl, rfl⟩ := Prod.mk.inj hpair
        exact .inr ⟨c, s', behind, rfl, .numeric hescape, hread⟩
    · rename_i e behind hu
      split at h
      · exact absurd h (by simp)
      · rename_i c hescape
        obtain ⟨⟨s', rest⟩, hread, hpair⟩ := map_eq_ok_iff.mp h
        obtain ⟨rfl, rfl⟩ := Prod.mk.inj hpair
        exact .inr ⟨c, s', behind, rfl, .letter hu hescape, hread⟩
  · rename_i c behind hquote hslash
    split at h
    · exact absurd h (by simp)
    · rename_i hcontrol
      obtain ⟨⟨s', rest⟩, hread, hpair⟩ := map_eq_ok_iff.mp h
      obtain ⟨rfl, rfl⟩ := Prod.mk.inj hpair
      exact .inr ⟨c, s', behind, rfl, .itself hquote hslash hcontrol, hread⟩

/-- A character of a string uses the same text whatever follows the string. `body` is the string
behind the character up to its quote. -/
theorem TakesChar.written {text body rest : Text} {c : Char}
    (h : TakesChar text c (body ++ '"' :: rest)) (hbody : HoldsEscape body) :
    ∃ written, text = written ++ (body ++ '"' :: rest) ∧ written ≠ [] ∧
      HoldsEscape (written ++ body) ∧
      ∀ rest', TakesChar (written ++ (body ++ '"' :: rest')) c (body ++ '"' :: rest') := by
  cases h with
  | numeric hescape =>
    obtain ⟨escape, htext, hlength, hsame⟩ := readNumericEscape_local hescape hbody
    cases escape with
    | nil => exact absurd hlength (by simp)
    | cons u escape =>
      obtain ⟨rfl, rfl⟩ := List.cons.inj htext
      refine ⟨'\\' :: 'u' :: escape, rfl, by simp, fun _ _ _ => ?_,
        fun rest' => .numeric (hsame rest')⟩
      simp only [List.length_cons, List.length_append] at hlength ⊢
      omega
  | letter hu hescape =>
    exact ⟨['\\', _], rfl, by simp,
      fun _ _ heq => absurd (List.cons.inj (List.cons.inj heq).2).1 hu, fun _ => .letter hu hescape⟩
  | itself hquote hslash hcontrol =>
    exact ⟨[c], rfl, by simp, fun _ _ heq => absurd (List.cons.inj heq).1 hslash,
      fun _ => .itself hquote hslash hcontrol⟩

/-! ### Strings -/

/-- Is the text, up to a closing quote, read as the rest of a string? -/
def ReadsString (body s : Text) : Prop :=
  ∀ start fuel rest, body.length < fuel →
    readString start fuel (body ++ '"' :: rest) = .ok (s, rest)

theorem readsString_nil : ReadsString [] [] := by
  intro start fuel rest hfuel
  cases fuel with
  | zero => exact absurd hfuel (by simp)
  | succ fuel => rfl

/-- A string that begins with a written character. -/
theorem ReadsString.cons {written body s : Text} {c : Char} (hwritten : written ≠ [])
    (htakes : ∀ rest, TakesChar (written ++ (body ++ '"' :: rest)) c (body ++ '"' :: rest))
    (h : ReadsString body s) : ReadsString (written ++ body) (c :: s) := by
  intro start fuel rest hfuel
  have hlength := List.length_pos_iff.mpr hwritten
  rw [List.length_append] at hfuel
  cases fuel with
  | zero => omega
  | succ fuel =>
    have hread := h start fuel rest (by omega)
    rw [List.append_assoc, (htakes rest).readString, hread]
    rfl

/-- A string is read up to its quote, whatever follows. -/
theorem readString_local {start : Text} {fuel : Nat} {text s rest : Text}
    (h : readString start fuel text = .ok (s, rest)) :
    ∃ body, text = body ++ '"' :: rest ∧ HoldsEscape body ∧ ReadsString body s := by
  induction fuel generalizing text s with
  | zero => exact absurd h (by simp [readString])
  | succ fuel ih =>
    obtain ⟨rfl, rfl⟩ | ⟨c, s, behind, rfl, htakes, hread⟩ := readString_cases h
    · exact ⟨[], rfl, fun _ _ heq => absurd (List.cons.inj heq).1 (by decide), readsString_nil⟩
    · obtain ⟨body, rfl, hholds, hreads⟩ := ih hread
      obtain ⟨written, rfl, hne, hholds', hsame⟩ := htakes.written hholds
      exact ⟨written ++ body, by rw [List.append_assoc], hholds', .cons hne hsame hreads⟩

end Splice.Json
