import Splice.Expansion

/-!
# Computations with fuel

A computation that may run out of fuel has no outcome then, and more fuel may only add one.

* `Approximates` — all that one computation gives the other gives too;
* `Settles` — with enough fuel there is this outcome; and
* `Diverges` — there is none, whatever the fuel.
-/

namespace Splice

/-! ### Approximation -/

/-- If the first computation has an outcome, then the second has the same. -/
def Approximates {β : Type} (x y : Option β) : Prop :=
  ∀ outcome, x = some outcome → y = some outcome

namespace Approximates

variable {β : Type} {x y : Option β}

theorem refl (x : Option β) : Approximates x x := fun _ h => h

theorem of_none (y : Option β) : Approximates none y := fun _ h => absurd h (by simp)

end Approximates

/-! ### Computations one after the other -/

namespace Expand

variable {α β : Type}

theorem andThen_error {warnings : List Warning} {failure : Failure} {f : α → Expand β} :
    andThen (some (warnings, .error failure)) f = some (warnings, .error failure) := rfl

theorem andThen_ok {first second : List Warning} {a : α} {f : α → Expand β}
    {result : Except Failure β} (h : f a = some (second, result)) :
    andThen (some (first, .ok a)) f = some (first ++ second, result) := by
  simp only [andThen, h]
  rfl

theorem andThen_none {first : List Warning} {a : α} {f : α → Expand β} (h : f a = none) :
    andThen (some (first, .ok a)) f = none := by
  simp only [andThen, h]
  rfl

theorem done_andThen (a : α) (f : α → Expand β) : (done a).andThen f = f a := by
  cases h : f a with
  | none => exact andThen_none h
  | some outcome => exact andThen_ok h

theorem andThen_done (x : Expand α) : x.andThen done = x := by
  rcases x with _ | ⟨warnings, failure | a⟩
  · rfl
  · rfl
  · exact (andThen_ok rfl).trans (by rw [List.append_nil])

theorem andThen_assoc {γ : Type} (x : Expand α) (f : α → Expand β) (g : β → Expand γ) :
    (x.andThen f).andThen g = x.andThen fun a => (f a).andThen g := by
  rcases x with _ | ⟨first, failure | a⟩
  · rfl
  · rfl
  · simp only [andThen]
    rcases f a with _ | ⟨second, failure | b⟩
    · rfl
    · rfl
    · simp only
      rcases g b with _ | ⟨third, result⟩
      · rfl
      · simp only [List.append_assoc]
        rfl

theorem andThen_congr {x : Expand α} {f g : α → Expand β}
    (h : ∀ warnings a, x = some (warnings, .ok a) → f a = g a) : x.andThen f = x.andThen g := by
  rcases x with _ | ⟨warnings, failure | a⟩
  · rfl
  · rfl
  · simp only [andThen, h warnings a rfl]

theorem eq_of_andThen {x : Expand α} {f : α → Expand β} {warnings : List Warning}
    {result : Except Failure β} (h : x.andThen f = some (warnings, result)) :
    (∃ failure, x = some (warnings, .error failure) ∧ result = .error failure) ∨
      ∃ first a second, x = some (first, .ok a) ∧ f a = some (second, result) ∧
        warnings = first ++ second := by
  rcases x with _ | ⟨first, failure | a⟩
  · cases h
  · cases h
    exact .inl ⟨failure, rfl, rfl⟩
  · cases hf : f a with
    | none =>
      rw [andThen_none hf] at h
      cases h
    | some outcome =>
      rw [andThen_ok hf] at h
      cases h
      exact .inr ⟨first, a, outcome.1, rfl, hf, rfl⟩

/-- A computation of two parts has a result only if both have. -/
theorem ok_of_andThen {x : Expand α} {f : α → Expand β} {warnings : List Warning} {b : β}
    (h : x.andThen f = some (warnings, .ok b)) :
    ∃ first a second, x = some (first, .ok a) ∧ f a = some (second, .ok b) ∧
      warnings = first ++ second := by
  rcases eq_of_andThen h with ⟨failure, -, hfail⟩ | hparts
  · cases hfail
  · exact hparts

/-- A result whose error is turned into a failure. -/
theorem eq_ok_of_ofExcept {ε : Type} {x : Except ε α} {f : ε → Failure} {warnings : List Warning}
    {a : α} (h : ofExcept (x.mapError f) = some (warnings, .ok a)) : x = .ok a := by
  cases x with
  | error e => cases h
  | ok b =>
    cases h
    rfl

/-- Approximations that go on with approximations approximate. -/
theorem andThen_mono {x y : Expand α} {f g : α → Expand β} (hx : Approximates x y)
    (hf : ∀ a, Approximates (f a) (g a)) : Approximates (x.andThen f) (y.andThen g) := by
  rintro ⟨warnings, result⟩ h
  rcases eq_of_andThen h with ⟨failure, hfail, rfl⟩ | ⟨first, a, second, ha, hfa, rfl⟩
  · rw [hx _ hfail, andThen_error]
  · rw [hx _ ha, andThen_ok (hf a _ hfa)]

end Expand

/-! ### Outcomes -/

/-- The computation has this outcome with enough fuel. -/
def Settles {β : Type} (x : Nat → Option β) (outcome : β) : Prop := ∃ fuel, x fuel = some outcome

/-- The computation has no outcome with any fuel. -/
def Diverges {β : Type} (x : Nat → Option β) : Prop := ∀ fuel, x fuel = none

/-- More fuel keeps the outcome of the computation. -/
def Stable {β : Type} (x : Nat → Option β) : Prop := ∀ n m, n ≤ m → Approximates (x n) (x m)

section

variable {β : Type} {x : Nat → Option β}

theorem settles_or_diverges (x : Nat → Option β) : (∃ outcome, Settles x outcome) ∨ Diverges x := by
  by_cases h : ∃ outcome, Settles x outcome
  · exact .inl h
  · refine .inr fun fuel => ?_
    cases hx : x fuel with
    | none => rfl
    | some outcome => exact absurd ⟨outcome, fuel, hx⟩ h

theorem Diverges.not_settles (h : Diverges x) (outcome : β) : ¬ Settles x outcome := by
  rintro ⟨fuel, hx⟩
  rw [h fuel] at hx
  exact absurd hx (by simp)

/-- The computation has the outcome from some fuel on. -/
theorem Settles.eventually (hx : Stable x) {outcome : β} (h : Settles x outcome) :
    ∃ enough, ∀ fuel, enough ≤ fuel → x fuel = some outcome :=
  h.imp fun enough he fuel hle => hx enough fuel hle outcome he

/-- A computation has one outcome at most. -/
theorem Settles.unique (hx : Stable x) {a b : β} (ha : Settles x a) (hb : Settles x b) : a = b := by
  obtain ⟨n, ha⟩ := ha.eventually hx
  obtain ⟨m, hb⟩ := hb.eventually hx
  have ha := ha (max n m) (Nat.le_max_left n m)
  have hb := hb (max n m) (Nat.le_max_right n m)
  exact Option.some.inj (ha.symm.trans hb)

/-- The outcome with any fuel is the one on which the computation settles. -/
theorem Settles.eq_none_or_some (hx : Stable x) {outcome : β} (h : Settles x outcome) (fuel : Nat) :
    x fuel = none ∨ x fuel = some outcome := by
  cases hfuel : x fuel with
  | none => exact .inl rfl
  | some other => exact .inr (by rw [Settles.unique hx h ⟨fuel, hfuel⟩])

end

namespace Expand

variable {α β : Type} {x : Nat → Expand α} {f : Nat → α → Expand β}

theorem stable_andThen (hx : Stable x) (hf : ∀ a, Stable fun fuel => f fuel a) :
    Stable fun fuel => (x fuel).andThen (f fuel) :=
  fun n m hle => andThen_mono (hx n m hle) fun a => hf a n m hle

theorem settles_error {warnings : List Warning} {failure : Failure}
    (hx : Settles x (warnings, .error failure)) :
    Settles (fun fuel => (x fuel).andThen (f fuel)) (warnings, .error failure) := by
  obtain ⟨fuel, hx⟩ := hx
  exact ⟨fuel, by simp only [hx, andThen_error]⟩

theorem settles_ok {first second : List Warning} {a : α} {result : Except Failure β}
    (hstable : Stable x) (hfstable : Stable fun fuel => f fuel a)
    (hx : Settles x (first, .ok a)) (hf : Settles (fun fuel => f fuel a) (second, result)) :
    Settles (fun fuel => (x fuel).andThen (f fuel)) (first ++ second, result) := by
  obtain ⟨n, hx⟩ := hx.eventually hstable
  obtain ⟨m, hf⟩ := hf.eventually hfstable
  refine ⟨max n m, ?_⟩
  simp only [hx (max n m) (Nat.le_max_left n m)]
  exact andThen_ok (hf (max n m) (Nat.le_max_right n m))

/-- A computation of two parts diverges in the first or, after the first, in the second. -/
theorem diverges_andThen_iff (hstable : Stable x) (hfstable : ∀ a, Stable fun fuel => f fuel a) :
    Diverges (fun fuel => (x fuel).andThen (f fuel)) ↔
      Diverges x ∨ ∃ warnings a, Settles x (warnings, .ok a) ∧ Diverges fun fuel => f fuel a := by
  constructor
  · intro h
    rcases settles_or_diverges x with ⟨⟨warnings, failure | a⟩, hx⟩ | hx
    · exact absurd (settles_error hx) (h.not_settles _)
    · refine .inr ⟨warnings, a, hx, ?_⟩
      rcases settles_or_diverges fun fuel => f fuel a with ⟨⟨more, result⟩, hf⟩ | hf
      · exact absurd (settles_ok hstable (hfstable a) hx hf) (h.not_settles _)
      · exact hf
    · exact .inl hx
  · rintro (hx | ⟨warnings, a, hx, hf⟩) fuel
    · simp only [hx fuel]
      rfl
    · rcases hx.eq_none_or_some hstable fuel with hfuel | hfuel
      · simp only [hfuel]
        rfl
      · simp only [hfuel]
        exact andThen_none (hf fuel)

/-- Only the second part of a computation takes fuel. -/
theorem diverges_const_andThen_iff {x : Expand α} :
    Diverges (fun fuel => x.andThen (f fuel)) ↔
      x = none ∨ ∃ warnings a, x = some (warnings, .ok a) ∧ Diverges fun fuel => f fuel a := by
  constructor
  · intro h
    rcases x with _ | ⟨warnings, failure | a⟩
    · exact .inl rfl
    · exact absurd (h 0) (by simp only [andThen_error]; exact nofun)
    · refine .inr ⟨warnings, a, rfl, fun fuel => ?_⟩
      cases hf : f fuel a with
      | none => exact hf
      | some outcome =>
        have hsome := h fuel
        simp only [andThen_ok hf] at hsome
        cases hsome
  · rintro (rfl | ⟨warnings, a, rfl, hf⟩) fuel
    · rfl
    · exact andThen_none (hf fuel)

end Expand

end Splice
