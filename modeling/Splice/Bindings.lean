import Splice.Text.Basic

/-!
# Bindings

What names stand for, in the order in which the names were first bound. Rebinding a name changes
its value and keeps its place.

* `Bindings.get?` — the value of a name;
* `Bindings.set` — binds or rebinds a name; and
* `Bindings.overlay`, `Bindings.ofList` — bind the names of a list one after the other.
-/

namespace Splice

/-- Names with their values, in order of first binding. -/
abbrev Bindings (α : Type) := List (Text × α)

namespace Bindings

variable {α : Type}

/-- The value of a name. -/
def get? (name : Text) : Bindings α → Option α
  | [] => none
  | (key, value) :: rest => if key = name then some value else get? name rest

/-- Binds a name: in its place if it is bound, at the end if it is new. -/
def set (name : Text) (value : α) : Bindings α → Bindings α
  | [] => [(name, value)]
  | (key, old) :: rest =>
      if key = name then (key, value) :: rest else (key, old) :: set name value rest

/-- The names in their order. -/
def names (bindings : Bindings α) : List Text := bindings.map Prod.fst

/-- Binds each entry of `upper` in turn over `lower`. -/
def overlay (lower upper : Bindings α) : Bindings α :=
  upper.foldl (fun bindings (name, value) => set name value bindings) lower

/-- Binds the entries of a list in turn, so that of a repeated name the last value counts. -/
def ofList (entries : List (Text × α)) : Bindings α := overlay [] entries

theorem get?_set (bindings : Bindings α) (name other : Text) (value : α) :
    get? other (set name value bindings) =
      if name = other then some value else get? other bindings := by
  induction bindings with
  | nil => simp [set, get?]
  | cons entry rest ih =>
    obtain ⟨key, old⟩ := entry
    by_cases h : key = name
    · subst h
      by_cases ho : key = other <;> simp [set, get?, ho]
    · by_cases ho : key = other
      · subst ho
        simp [set, get?, h, Ne.symm h]
      · simp [set, get?, h, ho, ih]

/-- A name that is bound already keeps its place; a new one goes last. -/
theorem names_set (bindings : Bindings α) (name : Text) (value : α) :
    names (set name value bindings) =
      if name ∈ names bindings then names bindings else names bindings ++ [name] := by
  induction bindings with
  | nil => simp [set, names]
  | cons entry rest ih =>
    obtain ⟨key, old⟩ := entry
    by_cases h : key = name
    · simp [set, names, h]
    · simp only [names, set, h, if_false, List.map_cons, List.mem_cons, Ne.symm h,
        false_or] at ih ⊢
      by_cases hn : name ∈ rest.map Prod.fst
      · simp [ih, hn]
      · simp [ih, hn]

end Bindings

end Splice
