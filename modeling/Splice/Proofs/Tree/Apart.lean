import Splice.Proofs.Tree.Ways

/-!
# Trees that differ at some places

Two trees may differ at some places, and in what they have below these. Everything else is found
alike in both.

* `Tree.Apart` — closed trees that differ at some places only;
* `Tree.Apart.find?_eq` — a path without double dots that leads to another place finds the same; and
* `Tree.Apart.filter_children` — a directory lists the same, but for these places.
-/

namespace Splice

namespace Tree

/-- Closed trees that differ at some places only. What either has below such a place is at such a
place too. -/
structure Apart (places : Place → Prop) [DecidablePred places] (tree other : Tree) : Prop where
  closed : tree.Closed
  closed' : other.Closed
  same : SameOutside places tree other
  below : ∀ place names, places place → (tree.entry? (place ++ names)).isSome →
      places (place ++ names)
  below' : ∀ place names, places place → (other.entry? (place ++ names)).isSome →
    places (place ++ names)

variable {places : Place → Prop} [DecidablePred places] {tree other : Tree} {path : Text}
  {place : Place}

theorem Apart.symm (h : Apart places tree other) : Apart places other tree :=
  ⟨h.closed', h.closed, h.same.symm, h.below', h.below⟩

theorem Apart.placeOf (h : Apart places tree other) (path : Text) :
    other.placeOf path = tree.placeOf path :=
  placeOf_of_cwd h.same.1 path

theorem Apart.entry? (h : Apart places tree other) (hplace : ¬ places place) :
    Tree.entry? other place = Tree.entry? tree place :=
  h.same.entry? hplace

/-- A path that leads to another place finds the same. -/
theorem Apart.find?_eq (h : Apart places tree other) (hstraight : Path.Straight path)
    (hplace : ¬ places (tree.placeOf path)) : other.find? path = tree.find? path := by
  have hiff (entry : Entry) : other.find? path = some entry ↔ tree.find? path = some entry := by
    rw [find?_straight_iff h.closed' hstraight, find?_straight_iff h.closed hstraight, h.placeOf,
      h.entry? hplace]
  cases hfind : tree.find? path with
  | some entry => exact (hiff entry).mpr hfind
  | none =>
    cases hother : other.find? path with
    | none => rfl
    | some entry =>
      rw [(hiff entry).mp hother] at hfind
      cases hfind

/-! ### Directories -/

theorem filter_filterMap_eq {α β : Type} {f : α → Option β} {p : β → Bool} {q : α → Bool}
    (h : ∀ a b, f a = some b → p b = q a) (l : List α) :
    (l.filterMap f).filter p = (l.filter q).filterMap f := by
  induction l with
  | nil => rfl
  | cons a l ih =>
    cases hf : f a with
    | none =>
      rw [List.filterMap_cons_none hf, ih, List.filter_cons]
      split
      · rw [List.filterMap_cons_none hf]
      · rfl
    | some b =>
      rw [List.filterMap_cons_some hf, List.filter_cons, List.filter_cons, h a b hf, ih]
      split
      · rw [List.filterMap_cons_some hf]
      · rfl

/-- A directory lists the same, but for the places at which the trees differ. -/
theorem Apart.filter_children (h : Apart places tree other) (place : Place) :
    (other.children place).filter (fun name => !decide (places (place ++ [name]))) =
      (tree.children place).filter fun name => !decide (places (place ++ [name])) := by
  have hchild (item : Place × Entry) (name : Text) (hname : childName? place item.1 = some name) :
      (!decide (places (place ++ [name]))) = !decide (places item.1) := by
    rw [childName?_eq_some_iff.mp hname]
  unfold children
  rw [filter_filterMap_eq hchild, filter_filterMap_eq hchild, h.same.2]

end Tree

end Splice
