/-!
# Steps that can fail

A step that is followed by others, or whose result or error is turned into another, succeeds only if
the step itself does. A success of the whole is taken apart with these statements.
-/

namespace Splice

variable {ε δ α β : Type} {x : Except ε α}

theorem bind_eq_ok_iff {f : α → Except ε β} {b : β} :
    x.bind f = .ok b ↔ ∃ a, x = .ok a ∧ f a = .ok b := by
  cases x <;> simp [Except.bind]

theorem bind_eq_error_iff {f : α → Except ε β} {e : ε} :
    x.bind f = .error e ↔ x = .error e ∨ ∃ a, x = .ok a ∧ f a = .error e := by
  cases x <;> simp [Except.bind]

theorem map_eq_ok_iff {f : α → β} {b : β} : x.map f = .ok b ↔ ∃ a, x = .ok a ∧ f a = b := by
  cases x <;> simp [Except.map]

theorem mapError_eq_ok_iff {f : ε → δ} {a : α} : x.mapError f = .ok a ↔ x = .ok a := by
  cases x with
  | error e => exact ⟨nofun, nofun⟩
  | ok a' => exact ⟨fun h => congrArg _ (Except.ok.inj h), fun h => congrArg _ (Except.ok.inj h)⟩

theorem map_eq_error_iff {f : α → β} {e : ε} : x.map f = .error e ↔ x = .error e := by
  cases x <;> simp [Except.map]

theorem mapError_eq_error_iff {f : ε → δ} {e : δ} :
    x.mapError f = .error e ↔ ∃ e', x = .error e' ∧ f e' = e := by
  cases x with
  | error e' =>
    constructor
    · intro h
      exact ⟨e', rfl, Except.error.inj h⟩
    · rintro ⟨_, hx, hf⟩
      cases hx
      exact congrArg _ hf
  | ok a => exact ⟨nofun, nofun⟩

theorem toOption_eq_some_iff {a : α} : x.toOption = some a ↔ x = .ok a := by
  cases x <;> simp [Except.toOption]

/-- A step that succeeds under one condition and with one result leads to one result. -/
theorem bind_eq_ok_iff_of {P : Prop} {a : α} (h : ∀ a', x = .ok a' ↔ P ∧ a' = a)
    {f : α → Except ε β} {b : β} (hf : f a = .ok b) (b' : β) : x.bind f = .ok b' ↔ P ∧ b' = b := by
  rw [bind_eq_ok_iff]
  constructor
  · rintro ⟨a', hx, hb⟩
    obtain ⟨hcondition, rfl⟩ := (h a').mp hx
    exact ⟨hcondition, Except.ok.inj (hb.symm.trans hf)⟩
  · rintro ⟨hcondition, rfl⟩
    exact ⟨a, (h a).mpr ⟨hcondition, rfl⟩, hf⟩

theorem map_eq_ok_iff_of {P : Prop} {a : α} (h : ∀ a', x = .ok a' ↔ P ∧ a' = a) (f : α → β)
    (b : β) : x.map f = .ok b ↔ P ∧ b = f a := by
  simp only [map_eq_ok_iff, h]
  constructor
  · rintro ⟨a', ⟨hcondition, rfl⟩, rfl⟩
    exact ⟨hcondition, rfl⟩
  · rintro ⟨hcondition, rfl⟩
    exact ⟨a, ⟨hcondition, rfl⟩, rfl⟩

end Splice
