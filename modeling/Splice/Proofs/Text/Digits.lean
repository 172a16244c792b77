import Mathlib.Data.Nat.Digits.Defs
import Splice.Text.Basic

/-!
# Digits

The digits of a natural number spell it, and digits spell a number that has no more of them.

* `Text.digitsValue_lt` — digits spell a number below the power of their count;
* `Text.digitsValue_ofNat` — the decimal digits of a number spell it;
* `Text.exists_ofNat_eq_cons` — only zero begins with a zero; and
* `Text.length_ofNat_le` — a number has no more digits than are spelled.
-/

namespace Splice.Text

/-- Digits spell a number below the power of their count. -/
theorem digitsValue_lt {base : Nat} {values : List Nat} (h : ∀ n ∈ values, n < base) :
    digitsValue base values < Nat.pow base values.length := by
  suffices ∀ start, values.foldl (fun n d => base * n + d) start <
      (start + 1) * Nat.pow base values.length by
    have hzero := this 0
    rwa [Nat.zero_add, Nat.one_mul] at hzero
  -- The digits read before count as well, so they are any number in the induction.
  induction values with
  | nil =>
    intro start
    simp
  | cons n values ih =>
    intro start
    have hn := h n List.mem_cons_self
    have hrest := ih (fun m hm => h m (List.mem_cons_of_mem _ hm)) (base * start + n)
    have hstart : base * start + n + 1 ≤ (start + 1) * base := by
      rw [Nat.add_mul, Nat.one_mul, Nat.mul_comm start base]
      omega
    have hpower : Nat.pow base (values.length + 1) = base * Nat.pow base values.length :=
      Nat.mul_comm _ _
    rw [List.foldl_cons, List.length_cons, hpower]
    calc values.foldl (fun n d => base * n + d) (base * start + n)
        < (base * start + n + 1) * Nat.pow base values.length := hrest
      _ ≤ (start + 1) * base * Nat.pow base values.length := Nat.mul_le_mul_right _ hstart
      _ = (start + 1) * (base * Nat.pow base values.length) := Nat.mul_assoc _ _ _

/-- The value of a decimal digit. -/
def digitValue (c : Char) : Nat := c.toNat - '0'.toNat

theorem digitValue_lt {c : Char} (h : c.isDigit = true) : digitValue c < 10 := by
  simp only [Char.isDigit, Bool.and_eq_true, decide_eq_true_eq] at h
  have hle : c.toNat ≤ 57 := h.2
  have hzero : '0'.toNat = 48 := rfl
  rw [digitValue, hzero]
  omega

theorem isDigit_of_mem_ofNat {n : Nat} {c : Char} (h : c ∈ ofNat n) : c.isDigit = true :=
  Nat.isDigit_of_mem_toDigits (by decide) (by decide) h

/-- The decimal digits of a number spell it. -/
theorem digitsValue_ofNat (n : Nat) : digitsValue 10 ((ofNat n).map digitValue) = n := by
  rw [digitsValue, List.foldl_map]
  exact Nat.ofDigitChars_toDigits (by decide) (by decide)

/-- A number has a first digit, which is a zero for zero only. -/
theorem exists_ofNat_eq_cons (n : Nat) :
    ∃ c rest, ofNat n = c :: rest ∧ (c = '0' → n = 0 ∧ rest = []) := by
  induction n using Nat.strongRecOn with
  | ind n ih =>
    by_cases hn : n < 10
    · have hzero : ∀ m < 10, Nat.digitChar m = '0' → m = 0 := by decide
      exact ⟨_, [], Nat.toDigits_of_lt_base hn, fun hc => ⟨hzero n hn hc, rfl⟩⟩
    · obtain ⟨c, rest, hrest, hc⟩ := ih (n / 10) (by omega)
      refine ⟨c, rest ++ [Nat.digitChar (n % 10)], ?_, fun h => ?_⟩
      · rw [ofNat, Nat.toDigits_of_base_le (by decide) (Nat.le_of_not_lt hn)]
        rw [ofNat] at hrest
        rw [hrest, List.cons_append]
      · have := (hc h).1
        omega

/-- The number that decimal digits spell has no more digits than these are. -/
theorem length_ofNat_le {digits : Text} (hdigits : digits ≠ [])
    (h : ∀ c ∈ digits, c.isDigit = true) :
    (ofNat (digitsValue 10 (digits.map digitValue))).length ≤ digits.length := by
  have hvalues : ∀ n ∈ digits.map digitValue, n < 10 := by
    intro n hn
    obtain ⟨c, hc, rfl⟩ := List.mem_map.mp hn
    exact digitValue_lt (h c hc)
  have hlt := digitsValue_lt hvalues
  rw [List.length_map] at hlt
  exact Nat.toDigits_length 10 _ _ (List.length_pos_iff.mpr hdigits) hlt

end Splice.Text
