import Mathlib.Data.List.Induction
import Mathlib.Data.List.Nodup
import Splice.Bindings

/-!
# Bindings made in turn

What definitions leave when names are bound one after the other: each name has the value of its last
definition and the place of its first one.

* `Bindings.overlay_eq_append`, `Bindings.ofList_eq_self` — definitions of different names are
  bindings already;
* `Bindings.overlay_ofList` — laying definitions over bindings in one go, or laying over what they
  leave; and
* `Bindings.LeftBy`, `Bindings.leftBy_iff` — the bindings that definitions leave.
-/

namespace Splice.Bindings

variable {α : Type} {lower upper bindings : Bindings α} {name other : Text} {value last : α}

/-! ### Names -/

theorem nodup_names_set (h : (names bindings).Nodup) (name : Text) (value : α) :
    (names (set name value bindings)).Nodup := by
  rw [names_set]
  split
  · exact h
  · rename_i hnew
    refine List.nodup_append.mpr ⟨h, by simp, ?_⟩
    rintro other hother name' hname' rfl
    exact hnew (List.mem_singleton.mp hname' ▸ hother)

theorem nodup_names_overlay (h : (names lower).Nodup) (upper : Bindings α) :
    (names (overlay lower upper)).Nodup := by
  induction upper generalizing lower with
  | nil => exact h
  | cons entry upper ih => exact ih (nodup_names_set h entry.1 entry.2)

theorem nodup_names_ofList (definitions : List (Text × α)) :
    (names (ofList definitions)).Nodup := by
  have hnil : (names ([] : Bindings α)).Nodup := List.nodup_nil
  exact nodup_names_overlay hnil definitions

theorem mem_names_set : other ∈ names (set name value bindings) ↔
    other = name ∨ other ∈ names bindings := by
  rw [names_set]
  split
  · rename_i hmem
    constructor
    · exact .inr
    · rintro (rfl | hother)
      · exact hmem
      · exact hother
  · rw [List.mem_append, List.mem_singleton, or_comm]

theorem mem_of_mem_set {entry : Text × α} (h : entry ∈ set name value bindings) :
    entry ∈ bindings ∨ entry = (name, value) := by
  induction bindings with
  | nil => exact .inr (List.mem_singleton.mp h)
  | cons first rest ih =>
    obtain ⟨key, old⟩ := first
    rw [set] at h
    split at h
    · rename_i hkey
      rcases List.mem_cons.mp h with rfl | hrest
      · exact .inr (by rw [hkey])
      · exact .inl (List.mem_cons_of_mem _ hrest)
    · rcases List.mem_cons.mp h with rfl | hrest
      · exact .inl List.mem_cons_self
      · exact (ih hrest).imp_left (List.mem_cons_of_mem _)

theorem mem_of_mem_overlay {entry : Text × α} (h : entry ∈ overlay lower upper) :
    entry ∈ lower ∨ entry ∈ upper := by
  induction upper generalizing lower with
  | nil => exact .inl h
  | cons first upper ih =>
    have hstep : entry ∈ overlay (set first.1 first.2 lower) upper := h
    rcases ih hstep with hlower | hupper
    · rcases mem_of_mem_set hlower with hold | rfl
      · exact .inl hold
      · exact .inr List.mem_cons_self
    · exact .inr (List.mem_cons_of_mem _ hupper)

/-! ### Different names -/

theorem set_new (h : name ∉ names bindings) (value : α) :
    set name value bindings = bindings ++ [(name, value)] := by
  induction bindings with
  | nil => rfl
  | cons entry rest ih =>
    obtain ⟨key, old⟩ := entry
    obtain ⟨hkey, hrest⟩ := List.ne_and_not_mem_of_not_mem_cons h
    rw [set, if_neg (Ne.symm hkey), ih hrest, List.cons_append]

theorem overlay_eq_append (h : (names (lower ++ upper)).Nodup) :
    overlay lower upper = lower ++ upper := by
  induction upper generalizing lower with
  | nil => exact (List.append_nil lower).symm
  | cons entry rest ih =>
    obtain ⟨name, value⟩ := entry
    have hnew : name ∉ names lower := by
      rw [names, List.map_append] at h
      exact fun hmem => (List.nodup_append.mp h).2.2 name hmem name List.mem_cons_self rfl
    have hstep : overlay lower ((name, value) :: rest) = overlay (set name value lower) rest := rfl
    rw [hstep, set_new hnew]
    have hsame : lower ++ [(name, value)] ++ rest = lower ++ (name, value) :: rest := by simp
    rw [ih (by rw [hsame]; exact h), hsame]

/-- Entries with different names are bindings already. -/
theorem ofList_eq_self (h : (names bindings).Nodup) : ofList bindings = bindings :=
  overlay_eq_append h

/-! ### Laying over -/

theorem overlay_cons (lower upper : Bindings α) (name : Text) (value : α) :
    overlay lower ((name, value) :: upper) = overlay (set name value lower) upper := rfl

theorem overlay_append (lower definitions more : Bindings α) :
    overlay lower (definitions ++ more) = overlay (overlay lower definitions) more :=
      List.foldl_append

theorem overlay_concat (lower definitions : Bindings α) (name : Text) (value : α) :
    overlay lower (definitions ++ [(name, value)]) = set name value (overlay lower definitions) :=
  overlay_append lower definitions [(name, value)]

theorem get?_overlay_concat (lower definitions : Bindings α) (name other : Text) (value : α) :
    get? other (overlay lower (definitions ++ [(name, value)])) =
      if name = other then some value else get? other (overlay lower definitions) := by
  rw [overlay_concat]
  exact get?_set _ _ _ _

/-- Of two values for one name the second one counts. -/
theorem set_set (bindings : Bindings α) (name : Text) (old value : α) :
    set name value (set name old bindings) = set name value bindings := by
  induction bindings with
  | nil => simp [set]
  | cons entry rest ih =>
    obtain ⟨key, first⟩ := entry
    by_cases hkey : key = name <;> simp [set, hkey, ih]

/-- A name that is bound already may be bound again before or after another one. -/
theorem set_comm (hne : name ≠ other) (h : name ∈ names bindings) (value last : α) :
    set name value (set other last bindings) = set other last (set name value bindings) := by
  induction bindings with
  | nil => cases h
  | cons entry rest ih =>
    obtain ⟨key, old⟩ := entry
    by_cases hother : key = other
    · subst hother
      simp [set, Ne.symm hne]
    · by_cases hkey : key = name
      · subst hkey
        simp [set, hother]
      · have hrest : name ∈ names rest := (List.mem_cons.mp h).resolve_left (Ne.symm hkey)
        simp [set, hother, hkey, ih hrest]

theorem set_overlay (hlower : name ∈ names lower) (hupper : name ∉ names upper) (value : α) :
    set name value (overlay lower upper) = overlay (set name value lower) upper := by
  induction upper generalizing lower with
  | nil => rfl
  | cons entry upper ih =>
    obtain ⟨key, last⟩ := entry
    obtain ⟨hkey, hrest⟩ := List.ne_and_not_mem_of_not_mem_cons hupper
    rw [overlay_cons, ih (mem_names_set.mpr (.inr hlower)) hrest,
      set_comm hkey hlower, overlay_cons]

/-- Binding a name before bindings are laid over others, or afterwards. -/
theorem overlay_set (h : (names upper).Nodup) (lower : Bindings α) (name : Text) (value : α) :
    overlay lower (set name value upper) = set name value (overlay lower upper) := by
  induction upper generalizing lower with
  | nil => rfl
  | cons entry upper ih =>
    obtain ⟨key, old⟩ := entry
    obtain ⟨hnew, hrest⟩ := List.nodup_cons.mp h
    by_cases hkey : key = name
    · subst hkey
      rw [set, if_pos rfl, overlay_cons, overlay_cons,
        set_overlay (mem_names_set.mpr (.inl rfl)) hnew, set_set]
    · rw [set, if_neg hkey, overlay_cons, overlay_cons, ih hrest]

/-- Laying definitions over bindings, or what they leave. -/
theorem overlay_ofList (lower : Bindings α) (definitions : List (Text × α)) :
    overlay lower (ofList definitions) = overlay lower definitions := by
  induction definitions using List.reverseRecOn with
  | nil => rfl
  | append_singleton definitions definition ih =>
    obtain ⟨name, value⟩ := definition
    rw [ofList, overlay_concat, overlay_concat, ← ih]
    exact overlay_set (nodup_names_ofList definitions) lower name value

/-- Three layers, of which the last one is laid over the middle one first. -/
theorem overlay_overlay {middle : Bindings α} (hlower : (names lower).Nodup)
    (hmiddle : (names middle).Nodup) (upper : Bindings α) :
    overlay lower (overlay middle upper) = ofList (lower ++ middle ++ upper) := by
  have hsame : overlay lower (middle ++ upper) = overlay (ofList lower) (middle ++ upper) := by
    rw [ofList_eq_self hlower]
  calc overlay lower (overlay middle upper)
    _ = overlay lower (overlay (ofList middle) upper) := by rw [ofList_eq_self hmiddle]
    _ = overlay lower (ofList (middle ++ upper)) := by rw [ofList, ofList, overlay_append]
    _ = overlay (ofList lower) (middle ++ upper) := by rw [overlay_ofList, hsame]
    _ = ofList (lower ++ middle ++ upper) := by
      rw [ofList, ofList, ← overlay_append, List.append_assoc]

/-! ### What definitions leave -/

/-- The value is that of the last definition of the name. -/
def IsLast (definitions : List (Text × α)) (name : Text) (value : α) : Prop :=
  ∃ before after, definitions = before ++ (name, value) :: after ∧ name ∉ after.map Prod.fst

/-- The bindings are those that definitions leave: just the names that are defined, in the order of
their first definitions, each with the value of its last one. -/
structure LeftBy (definitions : List (Text × α)) (bindings : Bindings α) : Prop where
  names_eq : names bindings = (definitions.map Prod.fst).eraseDups
  get?_iff : ∀ name value, get? name bindings = some value ↔ IsLast definitions name value

theorem isLast_concat_iff {definitions : List (Text × α)} :
    IsLast (definitions ++ [(other, last)]) name value ↔
      if other = name then value = last else IsLast definitions name value := by
  constructor
  · rintro ⟨before, after, heq, hafter⟩
    -- The binding is the last of all, or another one is behind it.
    rcases after.eq_nil_or_concat' with rfl | ⟨after, definition, rfl⟩
    · obtain ⟨-, hlast⟩ := List.append_inj' heq rfl
      cases List.head_eq_of_cons_eq hlast
      rw [if_pos rfl]
    · rw [← List.cons_append, ← List.append_assoc] at heq
      obtain ⟨rfl, hlast⟩ := List.append_inj' heq rfl
      cases List.head_eq_of_cons_eq hlast
      rw [List.map_append, List.mem_append, not_or] at hafter
      have hne : other ≠ name := fun h => hafter.2 (by simp [h])
      rw [if_neg hne]
      exact ⟨before, after, rfl, hafter.1⟩
  · split
    · rintro rfl
      rename_i heq
      exact ⟨definitions, [], by rw [heq], by simp⟩
    · rename_i hne
      rintro ⟨before, after, rfl, hafter⟩
      refine ⟨before, after ++ [(other, last)], by simp, ?_⟩
      rw [List.map_append, List.mem_append, not_or]
      exact ⟨hafter, by simpa using Ne.symm hne⟩

theorem eraseDups_concat (texts : List Text) (text : Text) :
    (texts ++ [text]).eraseDups =
      if text ∈ texts then texts.eraseDups else texts.eraseDups ++ [text] := by
  have hsingle : [text].eraseDups = [text] := rfl
  rw [List.eraseDups_append]
  by_cases hmem : text ∈ texts <;> simp [List.removeAll, hmem, hsingle]

theorem leftBy_ofList (definitions : List (Text × α)) :
    LeftBy definitions (ofList definitions) := by
  induction definitions using List.reverseRecOn with
  | nil =>
    refine ⟨rfl, fun name value => iff_of_false (by simp [ofList, overlay, get?]) ?_⟩
    rintro ⟨before, after, heq, -⟩
    simp at heq
  | append_singleton definitions definition ih =>
    obtain ⟨other, last⟩ := definition
    have hstep : ofList (definitions ++ [(other, last)]) = set other last (ofList definitions) :=
      overlay_concat [] definitions other last
    refine ⟨?_, fun name value => ?_⟩
    · rw [hstep, names_set, ih.names_eq, List.map_append, List.map_singleton, eraseDups_concat]
      simp only [List.mem_eraseDups]
    · rw [hstep, get?_set, isLast_concat_iff]
      split
      · rw [Option.some.injEq, eq_comm]
      · exact ih.get?_iff name value

theorem get?_eq_none (h : name ∉ names bindings) : get? name bindings = none := by
  induction bindings with
  | nil => rfl
  | cons entry rest ih =>
    obtain ⟨key, value⟩ := entry
    obtain ⟨hkey, hrest⟩ := List.ne_and_not_mem_of_not_mem_cons h
    rw [get?, if_neg (Ne.symm hkey), ih hrest]

/-- Bindings are settled by their names and the values of these. -/
theorem eq_of_get? (hnodup : (names lower).Nodup) (hnames : names upper = names lower)
    (hget : ∀ name, get? name upper = get? name lower) : upper = lower := by
  induction lower generalizing upper with
  | nil => exact List.map_eq_nil_iff.mp hnames
  | cons entry lower ih =>
    obtain ⟨key, value⟩ := entry
    cases upper with
    | nil => cases hnames
    | cons first upper =>
      obtain ⟨key', value'⟩ := first
      obtain ⟨rfl, hrest⟩ := List.cons.inj hnames
      obtain ⟨hnew, hnodup⟩ := List.nodup_cons.mp hnodup
      have hnew' : key' ∉ names upper := by
        unfold names
        rw [hrest]
        exact hnew
      have hvalue : value' = value := by simpa [get?] using hget key'
      rw [hvalue, ih hnodup hrest fun name => ?_]
      by_cases hkey : key' = name
      · subst hkey
        rw [get?_eq_none hnew, get?_eq_none hnew']
      · simpa [get?, hkey] using hget name

/-- Definitions leave nothing else. -/
theorem leftBy_iff {definitions : List (Text × α)} :
    LeftBy definitions bindings ↔ bindings = ofList definitions := by
  constructor
  · intro h
    have hof := leftBy_ofList definitions
    refine eq_of_get? (nodup_names_ofList definitions) (h.names_eq.trans hof.names_eq.symm)
      fun name => ?_
    refine Option.ext fun value => ?_
    rw [h.get?_iff, hof.get?_iff]
  · rintro rfl
    exact leftBy_ofList definitions

end Splice.Bindings
