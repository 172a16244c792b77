import Splice.Proofs.Json.Writing
import Splice.Proofs.Value.Json

/-!
# Values that a literal can carry

The variables of a directive are the fields of an object that is read from a text. Such a value has
no integer with too many digits, and no object in it has two fields of one name; otherwise it is any
value. Written as a text, it can be read back unless it holds a floating-point number.

* `Json.all_of_parse` — what holds of every value that is read;
* `Json.Carried`, `Json.carried_iff` — the values of fields, and which values these are;
* `Value.jsonText?` — the JSON text of a value, if it has one; and
* `Json.carried_reads_back` — reading such values back.
-/

namespace Splice

namespace Json

/-! ### Properties of all parts -/

theorem allFields_iff {p : Json → Bool} {fields : List (Text × Json)} :
    allFields p fields = true ↔ ∀ field ∈ fields, field.2.all p = true := by
  induction fields with
  | nil => simp [allFields]
  | cons field fields ih => simp [allFields, ih]

mutual

theorem all_and (p q : Json → Bool) :
    (v : Json) → v.all (fun v => p v && q v) = (v.all p && v.all q)
  | .null | .bool _ | .int _ | .float _ | .str _ => rfl
  | .arr items => by
    rw [all, all, all, allItems_and p q items]
    ac_rfl
  | .obj fields => by
    rw [all, all, all, allFields_and p q fields]
    ac_rfl

theorem allItems_and (p q : Json → Bool) : (items : List Json) →
    allItems (fun v => p v && q v) items = (allItems p items && allItems q items)
  | [] => rfl
  | item :: items => by
    rw [allItems, allItems, allItems, all_and p q item, allItems_and p q items]
    ac_rfl

theorem allFields_and (p q : Json → Bool) : (fields : List (Text × Json)) →
    allFields (fun v => p v && q v) fields = (allFields p fields && allFields q fields)
  | [] => rfl
  | (_, value) :: fields => by
    rw [allFields, allFields, allFields, all_and p q value, allFields_and p q fields]
    ac_rfl

end

/-! ### What is read -/

/-- What holds of every value that is read. -/
def isLegible (v : Json) : Bool := isShort v && isDistinct v

theorem all_isPlain_iff {v : Json} :
    v.all isPlain = true ↔ v.all isExact = true ∧ v.all isShort = true ∧
      v.all isDistinct = true := by
  have hlegible : v.all isLegible = (v.all isShort && v.all isDistinct) :=
    all_and isShort isDistinct v
  have hplain : v.all isPlain = (v.all isExact && v.all isLegible) := all_and isExact isLegible v
  rw [hplain, hlegible, Bool.and_eq_true, Bool.and_eq_true]

theorem digits_of_spanWhole? {text whole rest : Text} (h : spanWhole? text = some (whole, rest)) :
    whole ≠ [] ∧ ∀ c ∈ whole, c.isDigit = true := by
  unfold spanWhole? at h
  split at h
  · obtain ⟨rfl, -⟩ := Prod.mk.inj (Option.some.inj h)
    exact ⟨by simp, by simp⟩
  · rename_i c inside _
    split at h
    · rename_i hc
      obtain ⟨rfl, -⟩ := Prod.mk.inj (Option.some.inj h)
      refine ⟨by simp [List.takeWhile_cons_of_pos hc], List.all_eq_true.mp List.all_takeWhile⟩
    · cases h
  · cases h

theorem all_of_readUnsigned {negative : Bool} {start text rest : Text} {v : Json}
    (h : readUnsigned negative start text = .ok (v, rest)) : v.all isLegible = true := by
  unfold readUnsigned at h
  split at h
  · cases h
  · rename_i whole behind hwhole
    obtain ⟨hne, hdigits⟩ := digits_of_spanWhole? hwhole
    dsimp only at h
    split at h
    · split at h
      · cases h
      · rename_i hmax
        obtain ⟨rfl, -⟩ := Prod.mk.inj (Except.ok.inj h)
        -- The number is written with no more digits than were read.
        have hlength : (Text.ofNat (decimalValue whole)).length ≤ whole.length :=
          Text.length_ofNat_le hne hdigits
        have hnat :
          (if negative = true then -(decimalValue whole : Int) else decimalValue whole).natAbs =
            decimalValue whole := by
          split <;> simp
        simp only [all, isLegible, isShort, isDistinct, hnat, Bool.and_true, decide_eq_true_eq]
        exact Nat.le_trans hlength (Nat.not_lt.mp hmax)
    · obtain ⟨rfl, -⟩ := Prod.mk.inj (Except.ok.inj h)
      rfl

theorem all_of_readAtom {text rest : Text} {v : Json} (h : readAtom text = .ok (v, rest)) :
    v.all isLegible = true := by
  rw [readAtom_eq] at h
  split at h
  · rename_i found hword
    obtain rfl := Except.ok.inj h
    obtain ⟨word, hmem, -⟩ := exists_word hword
    simp only [words, List.mem_cons, Prod.mk.injEq, List.not_mem_nil, or_false] at hmem
    rcases hmem with ⟨-, rfl⟩ | ⟨-, rfl⟩ | ⟨-, rfl⟩ | ⟨-, rfl⟩ | ⟨-, rfl⟩ | ⟨-, rfl⟩ <;> rfl
  · unfold readNumber at h
    split at h
    · exact all_of_readUnsigned h
    · exact all_of_readUnsigned h

/-- An object is made of fields in turn, so its names differ and its values are among those read. -/
theorem all_obj_ofList {fields : List (Text × Json)} (h : allFields isLegible fields = true) :
    (Json.obj (Bindings.ofList fields)).all isLegible = true := by
  have hnone : (Bindings.names ([] : List (Text × Json))).Nodup := List.nodup_nil
  have hnames : (Bindings.names (Bindings.ofList fields)).Nodup :=
    Bindings.nodup_names_overlay hnone fields
  rw [all, Bool.and_eq_true]
  refine ⟨by simpa [isLegible, isShort, isDistinct] using hnames, allFields_iff.mpr
    fun field hfield => ?_⟩
  rcases Bindings.mem_of_mem_overlay hfield with hnone | hread
  · exact absurd hnone List.not_mem_nil
  · exact allFields_iff.mp h field hread

section Step

variable {fuel : Nat}

theorem all_of_readItems_step
    (ihValue : ∀ {text v rest}, readValue fuel text = .ok (v, rest) → v.all isLegible = true)
    (ihItems : ∀ {text items rest}, readItems fuel text = .ok (items, rest) →
      allItems isLegible items = true)
    {text : Text} {items : List Json} {rest : Text}
    (h : readItems (fuel + 1) text = .ok (items, rest)) : allItems isLegible items = true := by
  rw [readItems] at h
  split at h
  · cases h
  · rename_i item behind hvalue
    have hitem := ihValue hvalue
    split at h
    · obtain ⟨rfl, -⟩ := Prod.mk.inj (Except.ok.inj h)
      simp [allItems, hitem]
    · obtain ⟨⟨more, _⟩, hmore, hpair⟩ := map_eq_ok_iff.mp h
      obtain ⟨rfl, -⟩ := Prod.mk.inj hpair
      simp [allItems, hitem, ihItems hmore]
    · cases h

theorem all_of_readFields_step
    (ihValue : ∀ {text v rest}, readValue fuel text = .ok (v, rest) → v.all isLegible = true)
    (ihFields : ∀ {text fields rest}, readFields fuel text = .ok (fields, rest) →
      allFields isLegible fields = true)
    {text : Text} {fields : List (Text × Json)} {rest : Text}
    (h : readFields (fuel + 1) text = .ok (fields, rest)) : allFields isLegible fields = true := by
  unfold readFields at h
  split at h
  · split at h
    · cases h
    · split at h
      · split at h
        · cases h
        · rename_i v behind hvalue
          have hv := ihValue hvalue
          split at h
          · obtain ⟨rfl, -⟩ := Prod.mk.inj (Except.ok.inj h)
            simp [allFields, hv]
          · obtain ⟨⟨more, _⟩, hmore, hpair⟩ := map_eq_ok_iff.mp h
            obtain ⟨rfl, -⟩ := Prod.mk.inj hpair
            simp [allFields, hv, ihFields hmore]
          · cases h
      · cases h
  · cases h

theorem all_of_readValue_step
    (ihItems : ∀ {text items rest}, readItems fuel text = .ok (items, rest) →
      allItems isLegible items = true)
    (ihFields : ∀ {text fields rest}, readFields fuel text = .ok (fields, rest) →
      allFields isLegible fields = true)
    {text : Text} {v : Json} {rest : Text} (h : readValue (fuel + 1) text = .ok (v, rest)) :
    v.all isLegible = true := by
  unfold readValue at h
  split at h
  · -- a string
    obtain ⟨_, -, hpair⟩ := map_eq_ok_iff.mp h
    obtain ⟨rfl, -⟩ := Prod.mk.inj hpair
    rfl
  · -- an array
    split at h
    · obtain ⟨rfl, -⟩ := Prod.mk.inj (Except.ok.inj h)
      rfl
    · obtain ⟨⟨items, _⟩, hitems, hpair⟩ := map_eq_ok_iff.mp h
      obtain ⟨rfl, -⟩ := Prod.mk.inj hpair
      rw [all, ihItems hitems]
      rfl
  · -- an object
    split at h
    · obtain ⟨rfl, -⟩ := Prod.mk.inj (Except.ok.inj h)
      rfl
    · obtain ⟨⟨fields, _⟩, hfields, hpair⟩ := map_eq_ok_iff.mp h
      obtain ⟨rfl, -⟩ := Prod.mk.inj hpair
      exact all_obj_ofList (ihFields hfields)
  · exact all_of_readAtom h

end Step

theorem all_of_read (fuel : Nat) :
    (∀ {text v rest}, readValue fuel text = .ok (v, rest) → v.all isLegible = true) ∧
    (∀ {text items rest}, readItems fuel text = .ok (items, rest) →
      allItems isLegible items = true) ∧
    ∀ {text fields rest}, readFields fuel text = .ok (fields, rest) →
      allFields isLegible fields = true := by
  induction fuel with
  | zero =>
    exact ⟨fun h => absurd h (by simp [readValue]), fun h => absurd h (by simp [readItems]),
      fun h => absurd h (by simp [readFields])⟩
  | succ fuel ih =>
    obtain ⟨ihValue, ihItems, ihFields⟩ := ih
    exact ⟨all_of_readValue_step ihItems ihFields, all_of_readItems_step ihValue ihItems,
      all_of_readFields_step ihValue ihFields⟩

theorem all_of_parse {text : Text} {v : Json} (h : parse text = .ok v) :
    v.all isLegible = true := by
  unfold parse at h
  split at h
  · cases h
  · split at h
    · cases h
    · rename_i value rest hread
      split at h
      · cases h
        exact (all_of_read _).1 hread
      · cases h

/-! ### Values of variables -/

/-- Some text is an object with a field of this value. -/
def Carried (v : Json) : Prop :=
  ∃ literal fields name, parse literal = .ok (.obj fields) ∧ (name, v) ∈ fields

/-- Without floating-point numbers, a value is carried unless an integer in it is too long or an
object in it has two fields of one name. -/
theorem carried_iff {v : Json} (hexact : v.all isExact = true) :
    Carried v ↔ v.all isShort = true ∧ v.all isDistinct = true := by
  constructor
  · rintro ⟨literal, fields, name, hparse, hmem⟩
    have hall := all_of_parse hparse
    rw [all, Bool.and_eq_true] at hall
    have hlegible : v.all isLegible = true := allFields_iff.mp hall.2 (name, v) hmem
    rw [← Bool.and_eq_true, ← all_and]
    exact hlegible
  · intro h
    have hplain : v.all isPlain = true := all_isPlain_iff.mpr ⟨hexact, h⟩
    -- It is carried by the object of which it is the only field.
    have hobject : (Json.obj [(['x'], v)]).all isPlain = true := by
      rw [all, allFields, hplain]
      rfl
    exact ⟨_, [(['x'], v)], ['x'], parse_write hobject, List.mem_cons_self⟩

/-- A value that is carried is read from its own text. -/
theorem Carried.parse_write {v : Json} (hcarried : Carried v) (hexact : v.all isExact = true) :
    parse v.write = .ok v :=
  Json.parse_write (all_isPlain_iff.mpr ⟨hexact, (carried_iff hexact).mp hcarried⟩)

end Json

/-- The JSON text of a value, if JSON can hold the value and no integer in it is too long to be
written. -/
def Value.jsonText? (value : Value) : Option Text :=
  match value.toJson? with
  | some json => if json.all Json.isShort then some json.write else none
  | none => none

namespace Json

/-- Without floating-point numbers, any value that a literal can carry is written as JSON and read
back from its text, with its fields in their order; and no two such values have the same text. They
are the values in which no object has two fields of one name and no integer is too long. -/
theorem carried_reads_back {v : Json} (hexact : v.all isExact = true) :
    (Carried v ↔ v.all isShort = true ∧ v.all isDistinct = true) ∧
      (Carried v → (Value.ofJson v).jsonText? = some (Value.ofJson v).toText ∧
        parse (Value.ofJson v).toText = .ok v ∧
        ∀ w, w.all isExact = true → Carried w → (Value.ofJson w).toText = (Value.ofJson v).toText →
          w = v) := by
  refine ⟨carried_iff hexact, fun hcarried => ⟨?_, ?_, fun w hw hcarriedW heq => ?_⟩⟩
  · have hshort := ((carried_iff hexact).mp hcarried).1
    rw [Value.jsonText?, Value.toJson?_ofJson, Value.toText_ofJson]
    exact if_pos hshort
  · rw [Value.toText_ofJson]
    exact hcarried.parse_write hexact
  · rw [Value.toText_ofJson, Value.toText_ofJson] at heq
    have hread := hcarriedW.parse_write hw
    rw [heq, hcarried.parse_write hexact] at hread
    exact (Except.ok.inj hread).symm

/-- Fields of all kinds, with a control character, a quote and a backslash in their texts. -/
def fieldsOfAllKinds : Json :=
  .obj [(['\x01', '"', 'é'], .arr [.int (-120), .null, .bool true, .obj []]),
    (['b'], .str ['\\', '\n'])]

theorem carried_reads_back_fieldsOfAllKinds :
    fieldsOfAllKinds.all isExact = true ∧ Carried fieldsOfAllKinds ∧
      parse (Value.ofJson fieldsOfAllKinds).toText = .ok fieldsOfAllKinds := by
  have hexact : fieldsOfAllKinds.all isExact = true := by decide
  have hcarried : Carried fieldsOfAllKinds :=
    (carried_reads_back hexact).1.mpr ⟨by decide, by decide⟩
  exact ⟨hexact, hcarried, ((carried_reads_back hexact).2 hcarried).2.1⟩

end Json

end Splice
