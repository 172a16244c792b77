import Mathlib.Tactic.NormNum
import Splice.Encoding.Utf8
import Splice.Proofs.Outcomes

/-!
# Decoding UTF-8 and encoding it again

Every character has one form only, so that the text of some bytes has just these bytes.

* `Encoding.Resumes` — what the reading of a character knows half-way;
* `Encoding.encodeUtf8_of_decodeUtf8` — bytes are those of their text; and
* `Encoding.decodeUtf8_eq_ok_iff` — bytes have a text just if they are its bytes.
-/

namespace Splice.Encoding

variable {b first : UInt8} {front bytes rest : Bytes} {pending low high value offset start : Nat}

theorem byte_toNat (b : UInt8) : byte b.toNat = b := UInt8.ofNat_toNat

theorem toNat_ofNat {n : Nat} (h : n.isValidChar) : (Char.ofNat n).toNat = n := by
  unfold Char.ofNat
  rw [dif_pos h]
  rfl

/-- The last bytes of the form of a code point. -/
def lastBytes : (count : Nat) → (full : Nat) → Bytes
  | 0, _ => []
  | count + 1, full => byte (0x80 + full / 0x40 ^ count % 0x40) :: lastBytes count full

/-- The bytes `front` are the beginning of all characters whose code points begin with `value`, and
whose next byte is between `low` and `high`; as many bytes as are pending follow that. -/
structure Resumes (front : Bytes) (pending low high value : Nat) : Prop where
  low_ge : 0x80 ≤ low
  high_le : high ≤ 0xbf
  form : ∀ full, full / 0x40 ^ (pending + 1) = value →
    low ≤ 0x80 + full / 0x40 ^ pending % 0x40 → 0x80 + full / 0x40 ^ pending % 0x40 ≤ high →
      utf8Bytes (Char.ofNat full) = front ++ lastBytes (pending + 1) full

/-- A byte that begins a form of one byte. -/
theorem lt_of_lead {n low high : Nat} (h : utf8Lead? n = some (0, low, high)) : n < 0x80 := by
  unfold utf8Lead? at h
  split at h
  · assumption
  · repeat (split at h; · simp at h)
    simp at h

/-- A byte that begins a longer form, and what it says of the next. -/
theorem utf8Lead?_cases {n count : Nat} (h : utf8Lead? n = some (count + 1, low, high)) :
    (count = 0 ∧ 0xc2 ≤ n ∧ n < 0xe0 ∧ low = 0x80 ∧ high = 0xbf) ∨
      (count = 1 ∧ 0xe0 ≤ n ∧ n < 0xf0 ∧ 0x80 ≤ low ∧ high ≤ 0xbf ∧ (n = 0xe0 → 0xa0 ≤ low) ∧
        (n = 0xed → high ≤ 0x9f)) ∨
      (count = 2 ∧ 0xf0 ≤ n ∧ n < 0xf5 ∧ 0x80 ≤ low ∧ high ≤ 0xbf ∧ (n = 0xf0 → 0x90 ≤ low) ∧
        (n = 0xf4 → high ≤ 0x8f)) := by
  unfold utf8Lead? at h
  split at h
  · simp at h
  split at h
  · simp at h
  split at h
  · exact .inl (by simp at h; omega)
  split at h
  · simp only [Option.some.injEq, Prod.mk.injEq] at h
    obtain ⟨hcount, hlow, hhigh⟩ := h
    exact .inr (.inl (by split at hlow <;> split at hhigh <;> omega))
  split at h
  · simp only [Option.some.injEq, Prod.mk.injEq] at h
    obtain ⟨hcount, hlow, hhigh⟩ := h
    exact .inr (.inr (by split at hlow <;> split at hhigh <;> omega))
  · simp at h

/-- The byte `n` begins the form of the code point `full`, and `count + 1` bytes follow it, of which
the first is between `low` and `high`. -/
structure Leads (n count low high full : Nat) : Prop where
  lead : utf8Lead? n = some (count + 1, low, high)
  bits : full / 0x40 ^ (count + 1) = leadBits (count + 1) n
  low_le : low ≤ 0x80 + full / 0x40 ^ count % 0x40
  le_high : 0x80 + full / 0x40 ^ count % 0x40 ≤ high

/-- How many bytes follow the first says how large the code point is. No surrogate has a form. -/
theorem Leads.cases {n count full : Nat} (h : Leads n count low high full) :
    (count = 0 ∧ n = 0xc0 + full / 0x40 ∧ 0x80 ≤ full ∧ full < 0x800) ∨
      (count = 1 ∧ n = 0xe0 + full / 0x1000 ∧ 0x800 ≤ full ∧ full < 0x10000 ∧
        (full < 0xd800 ∨ 0xdfff < full)) ∨
      (count = 2 ∧ n = 0xf0 + full / 0x40000 ∧ 0x10000 ≤ full ∧ full < 0x110000) := by
  obtain ⟨hlead, hbits, hge, hle⟩ := h
  rcases utf8Lead?_cases hlead with
    ⟨rfl, hfrom, hto, hlow, hhigh⟩ | ⟨rfl, hfrom, hto, hlow, hhigh, hlong, hrange⟩ |
      ⟨rfl, hfrom, hto, hlow, hhigh, hlong, hrange⟩
  · rw [show leadBits (0 + 1) n = n - 0xc0 from rfl] at hbits
    norm_num at hbits hge hle
    exact .inl (by omega)
  · rw [show leadBits (1 + 1) n = n - 0xe0 from rfl] at hbits
    norm_num at hbits hge hle
    exact .inr (.inl (by omega))
  · rw [show leadBits (2 + 1) n = n - 0xf0 from rfl] at hbits
    norm_num at hbits hge hle
    exact .inr (.inr (by omega))

/-- The form of a code point that a byte begins. -/
theorem Leads.utf8Bytes_eq {n count full : Nat} (h : Leads n count low high full) :
    utf8Bytes (Char.ofNat full) = byte n :: lastBytes (count + 1) full := by
  have hvalid : full.isValidChar := by
    unfold Nat.isValidChar
    have hcases := h.cases
    omega
  rw [utf8Bytes, toNat_ofNat hvalid]
  rcases h.cases with ⟨rfl, rfl, hfrom, hto⟩ | ⟨rfl, rfl, hfrom, hto, -⟩ | ⟨rfl, rfl, hfrom, hto⟩
  · have hone : ¬ full < 0x80 := by omega
    simp [hone, hto, lastBytes]
  · have hone : ¬ full < 0x80 := by omega
    have htwo : ¬ full < 0x800 := by omega
    simp [hone, htwo, hto, lastBytes]
  · have hone : ¬ full < 0x80 := by omega
    have htwo : ¬ full < 0x800 := by omega
    have hthree : ¬ full < 0x10000 := by omega
    simp [hone, htwo, hthree, lastBytes]

/-- A byte that begins a longer form. -/
theorem resumes_of_lead {n count : Nat} (h : utf8Lead? n = some (count + 1, low, high)) :
    Resumes [byte n] count low high (leadBits (count + 1) n) where
  low_ge := by
    have hcases := utf8Lead?_cases h
    omega
  high_le := by
    have hcases := utf8Lead?_cases h
    omega
  form _ hbits hge hle := Leads.utf8Bytes_eq ⟨h, hbits, hge, hle⟩

/-- One byte more. -/
theorem Resumes.next {n : Nat} (h : Resumes front (pending + 1) low high value) (hlow : low ≤ n)
    (hhigh : n ≤ high) :
    Resumes (front ++ [byte n]) pending 0x80 0xbf (value * 0x40 + (n - 0x80)) := by
  have hge := h.low_ge
  have hle := h.high_le
  refine ⟨by decide, by decide, fun full hfull _ _ => ?_⟩
  have hpower : full / 0x40 ^ (pending + 1 + 1) = full / 0x40 ^ (pending + 1) / 0x40 := by
    rw [Nat.div_div_eq_div_mul, Nat.pow_succ 0x40 (pending + 1)]
  have hdigit : 0x80 + full / 0x40 ^ (pending + 1) % 0x40 = n := by omega
  have hform := h.form full (by omega) (by omega) (by omega)
  rw [hform, lastBytes, hdigit, List.append_assoc]
  rfl

/-- The last byte. -/
theorem Resumes.last {n : Nat} (h : Resumes front 0 low high value) (hlow : low ≤ n)
    (hhigh : n ≤ high) :
    utf8Bytes (Char.ofNat (value * 0x40 + (n - 0x80))) = front ++ [byte n] := by
  have hge := h.low_ge
  have hle := h.high_le
  have hform := h.form (value * 0x40 + (n - 0x80))
  have hdigit : 0x80 + (value * 0x40 + (n - 0x80)) % 0x40 = n := by omega
  simp only [lastBytes, Nat.zero_add, Nat.pow_one, Nat.pow_zero, Nat.div_one, hdigit] at hform
  exact hform (by omega) hlow hhigh

/-- A byte that is read between characters is one, or begins a longer form. -/
theorem decodeUtf8From_between_cases {text : Text}
    (h : decodeUtf8From offset 0 low high value first start (b :: rest) = .ok text) :
    (b.toNat < 0x80 ∧ ∃ others, decodeUtf8From (offset + 1) 0 0 0 0 b offset rest = .ok others ∧
        text = Char.ofNat b.toNat :: others) ∨
      ∃ left low' high', utf8Lead? b.toNat = some (left + 1, low', high') ∧
        decodeUtf8From (offset + 1) (left + 1) low' high' (leadBits (left + 1) b.toNat) b offset
          rest = .ok text := by
  rw [decodeUtf8From] at h
  split at h
  · cases h
  · rename_i hlead
    obtain ⟨others, hothers, rfl⟩ := map_eq_ok_iff.mp h
    exact .inl ⟨lt_of_lead hlead, others, hothers, rfl⟩
  · rename_i count low' high' hlong hlead
    obtain ⟨left, rfl⟩ := Nat.exists_eq_succ_of_ne_zero fun hzero => hlong hzero
    exact .inr ⟨left, low', high', hlead, h⟩

/-- A byte that is read within a character is in the range of such bytes; it is the last, or others
follow. -/
theorem decodeUtf8From_within_cases {left : Nat} {text : Text}
    (h : decodeUtf8From offset (left + 1) low high value first start (b :: rest) = .ok text) :
    low ≤ b.toNat ∧ b.toNat ≤ high ∧
      ((left = 0 ∧ ∃ others, decodeUtf8From (offset + 1) 0 0 0 0 b offset rest = .ok others ∧
          text = Char.ofNat (value * 0x40 + (b.toNat - 0x80)) :: others) ∨
        ∃ left', left = left' + 1 ∧
          decodeUtf8From (offset + 1) left 0x80 0xbf (value * 0x40 + (b.toNat - 0x80)) first start
            rest = .ok text) := by
  simp only [decodeUtf8From] at h
  split at h
  · rename_i hrange
    refine ⟨hrange.1, hrange.2, ?_⟩
    split at h
    · rename_i hleft
      obtain ⟨others, hothers, rfl⟩ := map_eq_ok_iff.mp h
      exact .inl ⟨hleft, others, hothers, rfl⟩
    · rename_i hleft
      obtain ⟨left', rfl⟩ := Nat.exists_eq_succ_of_ne_zero hleft
      exact .inr ⟨left', rfl, h⟩
  · cases h

/-- Bytes that are read within a character, or between characters, are those of the text read. -/
theorem encodeUtf8_of_decodeUtf8From {offset start : Nat} {first : UInt8} {text : Text}
    (hfront : pending = 0 ∧ front = [] ∨ ∃ left, pending = left + 1 ∧
      Resumes front left low high value)
    (h : decodeUtf8From offset pending low high value first start bytes = .ok text) :
    encodeUtf8 text = front ++ bytes := by
  -- The bytes of a character that is not complete yet are those in front.
  induction bytes generalizing offset pending low high value first start front text with
  | nil =>
    rcases hfront with ⟨rfl, rfl⟩ | ⟨left, rfl, -⟩
    · cases h
      rfl
    · cases h
  | cons b rest ih =>
    have hb := byte_toNat b
    rcases hfront with ⟨rfl, rfl⟩ | ⟨left, rfl, hresumes⟩
    · rcases decodeUtf8From_between_cases h with
        ⟨hsmall, others, hothers, rfl⟩ | ⟨left, low', high', hlead, hrest⟩
      · have hchar : utf8Bytes (Char.ofNat b.toNat) = [b] := by
          rw [utf8Bytes, toNat_ofNat (.inl (by omega)), if_pos hsmall, hb]
        rw [encodeUtf8, List.flatMap_cons, hchar]
        exact congrArg (b :: ·) (ih (.inl ⟨rfl, rfl⟩) hothers)
      · have hresumes := resumes_of_lead hlead
        rw [hb] at hresumes
        exact ih (.inr ⟨left, rfl, hresumes⟩) hrest
    · obtain ⟨hlow, hhigh, hcases⟩ := decodeUtf8From_within_cases h
      rcases hcases with ⟨rfl, others, hothers, rfl⟩ | ⟨left, rfl, hrest⟩
      · have hlast := hresumes.last hlow hhigh
        rw [hb] at hlast
        rw [encodeUtf8, List.flatMap_cons, hlast, List.append_assoc]
        exact congrArg (front ++ b :: ·) (ih (.inl ⟨rfl, rfl⟩) hothers)
      · have hnext := hresumes.next hlow hhigh
        rw [hb] at hnext
        rw [ih (.inr ⟨left, rfl, hnext⟩) hrest, List.append_assoc]
        rfl

/-- Bytes are those of their text. -/
theorem encodeUtf8_of_decodeUtf8 {text : Text} (h : decodeUtf8 bytes = .ok text) :
    encodeUtf8 text = bytes :=
  encodeUtf8_of_decodeUtf8From (.inl ⟨rfl, rfl⟩) h

/-! ## Encoding and decoding again -/

theorem toNat_byte {n : Nat} (h : n < 0x100) : (byte n).toNat = n := by
  simp [byte]
  omega

/-- A byte that begins a longer form is read. -/
theorem decodeUtf8From_lead {n count low' high' : Nat}
    (h : utf8Lead? n = some (count + 1, low', high')) (hn : n < 0x100) :
    decodeUtf8From offset 0 low high value first start (byte n :: rest) =
      decodeUtf8From (offset + 1) (count + 1) low' high' (leadBits (count + 1) n) (byte n) offset
        rest := by
  rw [decodeUtf8From, toNat_byte hn]
  simp only [h]

/-- A byte within a form is read. -/
theorem decodeUtf8From_next {n : Nat} (hlow : low ≤ n) (hhigh : n ≤ high) (hn : n < 0x100) :
    decodeUtf8From offset (pending + 2) low high value first start (byte n :: rest) =
      decodeUtf8From (offset + 1) (pending + 1) 0x80 0xbf (value * 0x40 + (n - 0x80)) first start
        rest := by
  rw [decodeUtf8From, toNat_byte hn]
  simp only [hlow, hhigh, and_self, if_true]
  rfl

/-- The last byte of a form is read. -/
theorem decodeUtf8From_last {n : Nat} (hlow : low ≤ n) (hhigh : n ≤ high) (hn : n < 0x100) :
    decodeUtf8From offset 1 low high value first start (byte n :: rest) =
      (decodeUtf8From (offset + 1) 0 0 0 0 (byte n) offset rest).map
        (Char.ofNat (value * 0x40 + (n - 0x80)) :: ·) := by
  rw [decodeUtf8From, toNat_byte hn]
  simp only [hlow, hhigh, and_self, if_true]

/-- What follows a first byte is read as the rest of the code point. -/
theorem decodeUtf8From_lastBytes {full : Nat} (offset : Nat) (first : UInt8) (start : Nat)
    (rest : Bytes) (hvalue : full / 0x40 ^ (pending + 1) = value)
    (hlow : low ≤ 0x80 + full / 0x40 ^ pending % 0x40)
    (hhigh : 0x80 + full / 0x40 ^ pending % 0x40 ≤ high) :
    ∃ offset' first' start',
      decodeUtf8From offset (pending + 1) low high value first start
          (lastBytes (pending + 1) full ++ rest) =
        (decodeUtf8From offset' 0 0 0 0 first' start' rest).map (Char.ofNat full :: ·) := by
  induction pending generalizing offset low high value first start with
  | zero =>
    have hfull : value * 0x40 + (0x80 + full / 0x40 ^ 0 % 0x40 - 0x80) = full := by
      rw [← hvalue]
      omega
    refine ⟨offset + 1, byte (0x80 + full / 0x40 ^ 0 % 0x40), offset, ?_⟩
    rw [lastBytes, lastBytes, List.singleton_append, decodeUtf8From_last hlow hhigh (by omega),
      hfull]
  | succ pending ih =>
    have hpower : full / 0x40 ^ (pending + 1 + 1) = full / 0x40 ^ (pending + 1) / 0x40 := by
      rw [Nat.div_div_eq_div_mul, Nat.pow_succ 0x40 (pending + 1)]
    have hnext : full / 0x40 ^ (pending + 1) =
        value * 0x40 + (0x80 + full / 0x40 ^ (pending + 1) % 0x40 - 0x80) := by
      rw [← hvalue, hpower]
      omega
    rw [lastBytes, List.cons_append, decodeUtf8From_next hlow hhigh (by omega)]
    exact ih _ _ _ hnext (by omega) (by omega)

/-- A byte begins the form of every character that has more than one. -/
theorem exists_leads {full : Nat} (hvalid : full.isValidChar) (h : 0x80 ≤ full) :
    ∃ n count low high, n < 0x100 ∧ Leads n count low high full := by
  unfold Nat.isValidChar at hvalid
  by_cases htwo : full < 0x800
  · have hbits : leadBits (0 + 1) (0xc0 + full / 0x40) = 0xc0 + full / 0x40 - 0xc0 := rfl
    refine ⟨0xc0 + full / 0x40, 0, 0x80, 0xbf, by omega, ?_, by omega, by omega, by omega⟩
    rw [utf8Lead?, if_neg (by omega), if_neg (by omega), if_pos (by omega)]
  by_cases hthree : full < 0x10000
  · have hbits : leadBits (1 + 1) (0xe0 + full / 0x1000) = 0xe0 + full / 0x1000 - 0xe0 := rfl
    refine ⟨0xe0 + full / 0x1000, 1, if 0xe0 + full / 0x1000 = 0xe0 then 0xa0 else 0x80,
      if 0xe0 + full / 0x1000 = 0xed then 0x9f else 0xbf, by omega,
      ?_, by omega, by split <;> omega, by split <;> omega⟩
    rw [utf8Lead?, if_neg (by omega), if_neg (by omega), if_neg (by omega), if_pos (by omega)]
  · have hbits : leadBits (2 + 1) (0xf0 + full / 0x40000) = 0xf0 + full / 0x40000 - 0xf0 := rfl
    refine ⟨0xf0 + full / 0x40000, 2, if 0xf0 + full / 0x40000 = 0xf0 then 0x90 else 0x80,
      if 0xf0 + full / 0x40000 = 0xf4 then 0x8f else 0xbf, by omega,
      ?_, by omega, by split <;> omega, by split <;> omega⟩
    rw [utf8Lead?, if_neg (by omega), if_neg (by omega), if_neg (by omega), if_neg (by omega),
      if_pos (by omega)]

/-- The form of a character is read. -/
theorem decodeUtf8From_utf8Bytes (c : Char) (offset low high value : Nat)
    (first : UInt8) (start : Nat) (rest : Bytes) :
    ∃ offset' first' start',
      decodeUtf8From offset 0 low high value first start (utf8Bytes c ++ rest) =
        (decodeUtf8From offset' 0 0 0 0 first' start' rest).map (c :: ·) := by
  by_cases hsmall : c.toNat < 0x80
  · have hlead : utf8Lead? c.toNat = some (0, 0, 0) := if_pos hsmall
    refine ⟨offset + 1, byte c.toNat, offset, ?_⟩
    rw [utf8Bytes, if_pos hsmall, List.singleton_append, decodeUtf8From, toNat_byte (by omega)]
    simp only [hlead, Char.ofNat_toNat]
  · have hvalid : c.toNat.isValidChar := c.valid
    obtain ⟨n, count, low', high', hn, hleads⟩ := exists_leads hvalid (by omega)
    have hbytes := hleads.utf8Bytes_eq
    have hrest :=
      decodeUtf8From_lastBytes (offset + 1) (byte n) offset rest hleads.bits hleads.low_le
        hleads.le_high
    rw [Char.ofNat_toNat] at hbytes hrest
    rw [hbytes, List.cons_append, decodeUtf8From_lead hleads.lead hn]
    exact hrest

/-- The bytes of a text are read as this text. -/
theorem decodeUtf8_encodeUtf8 (text : Text) : decodeUtf8 (encodeUtf8 text) = .ok text := by
  suffices ∀ offset low high value first start,
      decodeUtf8From offset 0 low high value first start (encodeUtf8 text) = .ok text from
    this 0 0 0 0 0 0
  induction text with
  | nil => exact fun _ _ _ _ _ _ => rfl
  | cons c text ih =>
    intro offset low high value first start
    obtain ⟨offset', first', start', hread⟩ :=
      decodeUtf8From_utf8Bytes c offset low high value first start (encodeUtf8 text)
    have hbytes : encodeUtf8 (c :: text) = utf8Bytes c ++ encodeUtf8 text := rfl
    rw [hbytes, hread, ih]
    rfl

end Splice.Encoding
