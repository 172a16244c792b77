import Splice.Proofs.Yaml.Scanning
import Splice.Yaml.Node

/-!
# The faults of a reader

A reader that comes to the end of the tokens meets the fault of the scan; any other fault is that of
a malformed document.

* `Yaml.Faithful` — a reading has no faults of other kinds; and
* `Yaml.fault_of_ofScan?` — the faults of the tree of a document.
-/

namespace Splice.Yaml

variable {α β : Type} {text : Text} {e : Error}

/-- Where a reading fails, it does so as malformed, or with the fault behind the tokens, which it
does not change otherwise. -/
def Faithful (reading : Reading α) : Prop :=
  ∀ reader, match reading reader with
    | .ok (_, reader') => reader'.fault = reader.fault
    | .error e => e = .malformed ∨ e = reader.fault

namespace Faithful

theorem pure (a : α) : Faithful (Pure.pure a : Reading α) := fun _ => rfl

theorem malformed : Faithful (throw .malformed : Reading α) := fun _ => .inl rfl

theorem bind {reading : Reading α} {next : α → Reading β} (h : Faithful reading)
    (hnext : ∀ a, Faithful (next a)) : Faithful (reading >>= next) := by
  intro reader
  have hfirst := h reader
  show match (reading reader >>= fun read => next read.1 read.2) with
    | .ok (_, reader') => reader'.fault = reader.fault
    | .error e => e = .malformed ∨ e = reader.fault
  cases hread : reading reader with
  | error e =>
    rw [hread] at hfirst
    exact hfirst
  | ok read =>
    rw [hread] at hfirst
    have hsecond := hnext read.1 read.2
    rw [hfirst] at hsecond
    exact hsecond

theorem ite {c : Prop} [Decidable c] {reading reading' : Reading α} (h : Faithful reading)
    (h' : Faithful reading') : Faithful (if c then reading else reading') := by
  split
  · exact h
  · exact h'

theorem get : Faithful (MonadState.get : Reading Reader) := fun _ => rfl

theorem modify {f : Reader → Reader} (h : ∀ reader, (f reader).fault = reader.fault) :
    Faithful (modify f : Reading Unit) := h

end Faithful

namespace Reader

theorem peek_faithful : Faithful peek := by
  intro reader
  unfold peek
  cases reader.tokens with
  | nil => exact .inr rfl
  | cons token tokens => exact rfl

theorem advance_faithful : Faithful advance := .modify fun _ => rfl

theorem accept_faithful (token : Token) : Faithful (accept token) :=
  peek_faithful.bind fun _ => .ite (advance_faithful.bind fun _ => .pure _) (.pure _)

theorem expect_faithful (token : Token) : Faithful (expect token) :=
  (accept_faithful token).bind fun _ => .ite .malformed (.pure _)

theorem properties_faithful : Faithful properties := by
  refine peek_faithful.bind fun token => ?_
  split
  · refine advance_faithful.bind fun _ => peek_faithful.bind fun token => ?_
    split
    · exact advance_faithful.bind fun _ => .pure _
    · exact .pure _
  · refine advance_faithful.bind fun _ => peek_faithful.bind fun token => ?_
    split
    · exact advance_faithful.bind fun _ => .pure _
    · exact .pure _
  · exact .pure _

theorem wholeName_faithful (tag : TagName) : Faithful (wholeName tag) := by
  unfold wholeName
  split
  · exact .pure _
  · refine Faithful.get.bind fun reader => ?_
    split
    · exact .pure _
    · exact .malformed

theorem mapM_wholeName_faithful (tag : Option TagName) : Faithful (tag.mapM wholeName) := by
  cases tag with
  | none => exact .pure _
  | some tag => exact (wholeName_faithful tag).bind fun _ => .pure _

theorem bind_faithful (anchor : Option Text) (node : Node) : Faithful (bind anchor node) := by
  unfold bind
  split
  · refine Faithful.get.bind fun reader => ?_
    exact .ite (.bind .malformed fun _ => .modify fun _ => rfl) (.modify fun _ => rfl)
  · exact .pure _

theorem collection_faithful (anchor : Option Text) (tag : Tag) {contents : Reading Node}
    (h : Faithful contents) : Faithful (collection anchor tag contents) := by
  refine (bind_faithful anchor _).bind fun _ => h.bind fun node => ?_
  split
  · exact Faithful.bind (.modify fun _ => rfl) fun _ => .pure _
  · exact .pure _

theorem contentUnless_faithful (stops : List Token) {content : Reading Node}
    (h : Faithful content) :
    Faithful (contentUnless stops content) :=
  peek_faithful.bind fun _ => .ite (.pure _) h

theorem pair_faithful (stops : List Token) {content : Reading Node} (h : Faithful content) :
    Faithful (pair stops content) :=
  (contentUnless_faithful stops h).bind fun _ => (accept_faithful _).bind fun _ =>
    .ite ((contentUnless_faithful stops h).bind fun _ => .pure _) (.pure _)

/-- The readings of a node and of the contents of each kind of collection are faithful with this
fuel. -/
structure FaithfulWith (fuel : Nat) : Prop where
  node : ∀ place, Faithful (node place fuel)
  items : Faithful (items fuel)
  looseItems : Faithful (looseItems fuel)
  entries : Faithful (entries fuel)
  flowItems : ∀ first, Faithful (flowItems first fuel)
  flowEntries : ∀ first, Faithful (flowEntries first fuel)

namespace FaithfulWith

theorem zero : FaithfulWith 0 where
  node _ := .malformed
  items := .malformed
  looseItems := .malformed
  entries := .malformed
  flowItems _ := .malformed
  flowEntries _ := .malformed

section

variable {fuel : Nat} (h : FaithfulWith fuel)
include h

theorem node_succ (place : Reader.Place) : Faithful (Reader.node place (fuel + 1)) := by
  rw [Reader.node]
  refine peek_faithful.bind fun token => ?_
  split
  · -- An alias.
    refine advance_faithful.bind fun _ => Faithful.get.bind fun reader => ?_
    split
    · exact .pure _
    · exact fun _ => .inl rfl
  · refine properties_faithful.bind fun (anchor, tag) => ?_
    refine (mapM_wholeName_faithful tag).bind fun name => ?_
    have hsequence {items : Reading (List Node)} (h : Faithful items) : Faithful
        (collection anchor (tagFor name .seq) do return .sequence (tagFor name .seq) (← items)) :=
      collection_faithful _ _ (h.bind fun _ => .pure _)
    have hmapping {entries : Reading (List (Node × Node))} (h : Faithful entries) : Faithful
        (collection anchor (tagFor name .map) do return .mapping (tagFor name .map) (← entries)) :=
      collection_faithful _ _ (h.bind fun _ => .pure _)
    refine peek_faithful.bind fun next => .ite (hsequence h.looseItems) ?_
    split
    · exact advance_faithful.bind fun _ => (bind_faithful _ _).bind fun _ => .pure _
    · exact advance_faithful.bind fun _ => hsequence (h.flowItems true)
    · exact advance_faithful.bind fun _ => hmapping (h.flowEntries true)
    · refine .ite (advance_faithful.bind fun _ => hsequence h.items) ?_
      refine .ite (advance_faithful.bind fun _ => hmapping h.entries) ?_
      exact .ite ((bind_faithful _ _).bind fun _ => .pure _) .malformed

theorem items_succ : Faithful (Reader.items (fuel + 1)) :=
  (accept_faithful _).bind fun _ => .ite
    ((contentUnless_faithful _ (h.node _)).bind fun _ => h.items.bind fun _ => .pure _)
    ((expect_faithful _).bind fun _ => .pure _)

theorem looseItems_succ : Faithful (Reader.looseItems (fuel + 1)) :=
  (accept_faithful _).bind fun _ => .ite
    ((contentUnless_faithful _ (h.node _)).bind fun _ => h.looseItems.bind fun _ => .pure _)
    (.pure _)

theorem entries_succ : Faithful (Reader.entries (fuel + 1)) :=
  (accept_faithful _).bind fun _ => .ite
    ((pair_faithful _ (h.node _)).bind fun _ => h.entries.bind fun _ => .pure _)
    ((expect_faithful _).bind fun _ => .pure _)

theorem flowItems_succ (first : Bool) : Faithful (Reader.flowItems first (fuel + 1)) := by
  have hitem : Faithful (do
      if ← accept .flowSequenceEnd then return []
      let item ← if ← accept .key then
          let entry ← pair flowItemStops (Reader.node .flow fuel)
          Pure.pure (Node.mapping .map [entry])
        else Reader.node .flow fuel
      return item :: (← Reader.flowItems false fuel)) := by
    refine (accept_faithful _).bind fun _ => .ite (.pure _) ?_
    refine (accept_faithful _).bind fun _ => .ite ?_ ?_
    · exact (pair_faithful _ (h.node _)).bind fun _ => (h.flowItems _).bind fun _ => .pure _
    · exact (h.node _).bind fun _ => (h.flowItems _).bind fun _ => .pure _
  refine (accept_faithful _).bind fun _ => .ite (.pure _) ?_
  exact .ite ((expect_faithful _).bind fun _ => hitem) hitem

theorem flowEntries_succ (first : Bool) : Faithful (Reader.flowEntries first (fuel + 1)) := by
  have hentry : Faithful (do
      if ← accept .flowMappingEnd then return []
      let entry ← if ← accept .key then pair flowEntryStops (Reader.node .flow fuel)
        else do Pure.pure (← Reader.node .flow fuel, Node.absent)
      return entry :: (← Reader.flowEntries false fuel)) := by
    refine (accept_faithful _).bind fun _ => .ite (.pure _) ?_
    refine (accept_faithful _).bind fun _ => .ite ?_ ?_
    · exact (pair_faithful _ (h.node _)).bind fun _ => (h.flowEntries _).bind fun _ => .pure _
    · exact (h.node _).bind fun _ => (h.flowEntries _).bind fun _ => .pure _
  refine (accept_faithful _).bind fun _ => .ite (.pure _) ?_
  exact .ite ((expect_faithful _).bind fun _ => hentry) hentry

/-- The readings call each other with less fuel. -/
theorem succ : FaithfulWith (fuel + 1) where
  node := h.node_succ
  items := h.items_succ
  looseItems := h.looseItems_succ
  entries := h.entries_succ
  flowItems := h.flowItems_succ
  flowEntries := h.flowEntries_succ

end

end FaithfulWith

end Reader

end Splice.Yaml
