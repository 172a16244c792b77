import Splice.Proofs.Outcomes
import Splice.Yaml.Document

/-!
# Keys of mappings

In the value of a document no mapping has two entries of one key, however deep it lies: entries that
are repeated or merged are set one after the other.

* `Value.DistinctKeys`, `Value.Distinct` — the keys of entries differ, and those of all mappings in
  a value;
* `Yaml.Yields` — what holds of the value of an outcome; and
* `Yaml.distinct_of_parse` — the value of a document.
-/

namespace Splice

namespace Value

variable {key : Scalar} {value : Value} {entries : List (Scalar × Value)}

/-- No two entries have the same key. -/
def DistinctKeys (entries : List (Scalar × Value)) : Prop :=
  entries.Pairwise fun first second => first.1.sameKey second.1 = false

/-- In all mappings of the value the keys differ. -/
inductive Distinct : Value → Prop where
  /-- A value without parts. -/
  | scalar (s : Scalar) : Distinct (.scalar s)
  /-- A list. -/
  | list {items : List Value} (hitems : ∀ item ∈ items, Distinct item) : Distinct (.list items)
  /-- A pair. -/
  | pair {first second : Value} (hfirst : Distinct first) (hsecond : Distinct second) :
      Distinct (.pair first second)
  /-- A mapping. -/
  | map {entries : List (Scalar × Value)} (hkeys : DistinctKeys entries)
      (hvalues : ∀ entry ∈ entries, Distinct entry.2) : Distinct (.map entries)
  /-- A set. -/
  | set (members : List Scalar) : Distinct (.set members)
  /-- A list that encloses the value. -/
  | outerList : Distinct .outerList
  /-- A mapping that encloses the value. -/
  | outerMap : Distinct .outerMap

theorem mem_of_mem_setEntry {entry : Scalar × Value} (h : entry ∈ setEntry key value entries) :
    entry.2 = value ∧ (entry.1 = key ∨ ∃ old, (entry.1, old) ∈ entries) ∨ entry ∈ entries := by
  induction entries with
  | nil =>
    rw [List.mem_singleton.mp h]
    exact .inl ⟨rfl, .inl rfl⟩
  | cons first entries ih =>
    obtain ⟨other, old⟩ := first
    rw [setEntry] at h
    split at h
    · rcases List.mem_cons.mp h with rfl | hrest
      · exact .inl ⟨rfl, .inr ⟨old, List.mem_cons_self⟩⟩
      · exact .inr (List.mem_cons_of_mem _ hrest)
    · rcases List.mem_cons.mp h with rfl | hrest
      · exact .inr List.mem_cons_self
      · rcases ih hrest with ⟨hvalue, hkey | ⟨old, hmem⟩⟩ | hmem
        · exact .inl ⟨hvalue, .inl hkey⟩
        · exact .inl ⟨hvalue, .inr ⟨old, List.mem_cons_of_mem _ hmem⟩⟩
        · exact .inr (List.mem_cons_of_mem _ hmem)

/-- An entry is set in the place of its key, or it has a new one. -/
theorem DistinctKeys.setEntry (h : DistinctKeys entries) (key : Scalar) (value : Value) :
    DistinctKeys (setEntry key value entries) := by
  induction entries with
  | nil => exact List.pairwise_singleton _ _
  | cons first entries ih =>
    obtain ⟨other, old⟩ := first
    obtain ⟨hfirst, hrest⟩ := List.pairwise_cons.mp h
    rw [Value.setEntry]
    split
    · exact List.pairwise_cons.mpr ⟨hfirst, hrest⟩
    · rename_i hother
      refine List.pairwise_cons.mpr ⟨fun entry hentry => ?_, ih hrest⟩
      rcases mem_of_mem_setEntry hentry with ⟨-, hkey | ⟨old', hmem⟩⟩ | hmem
      · rw [hkey]
        exact Bool.eq_false_iff.mpr hother
      · exact hfirst (entry.1, old') hmem
      · exact hfirst entry hmem

/-- Entries with texts as their keys have different names. -/
theorem DistinctKeys.nodup_names {bindings : Bindings Value}
    (h : DistinctKeys (bindings.map fun (name, value) => (.text name, value))) :
    (Bindings.names bindings).Nodup := by
  refine List.pairwise_map.mpr ((List.pairwise_map.mp h).imp fun hdiffer heq => ?_)
  simp [Scalar.sameKey, heq] at hdiffer

end Value

namespace Yaml

open Value (Distinct DistinctKeys)

variable {α β : Type} {P : α → Prop} {Q : β → Prop}

/-! ### Outcomes -/

/-- The value of the outcome has a property, if there is one. -/
def Yields (P : α → Prop) (outcome : Outcome α) : Prop := ∀ value, outcome = .ok value → P value

theorem yields_ok {value : α} (h : P value) : Yields P (.ok value : Outcome α) := by
  rintro _ ⟨⟩
  exact h

theorem yields_error (fault : Nat × Error) : Yields P (.error fault : Outcome α) :=
  fun _ h => nomatch h

theorem Yields.map {outcome : Outcome α} (h : Yields P outcome) {f : α → β}
    (hf : ∀ a, P a → Q (f a)) :
    Yields Q (outcome.map f) := by
  cases outcome with
  | ok a => exact yields_ok (hf a (h a rfl))
  | error fault => exact yields_error fault

theorem Yields.inside {outcome : Outcome α} (h : Yields P outcome) : Yields P outcome.inside := by
  cases outcome with
  | ok a => exact h
  | error fault => exact yields_error _

theorem Yields.both {outcome : Outcome α} {outcome' : Outcome β} (h : Yields P outcome)
    (h' : Yields Q outcome') :
    Yields (fun pair => P pair.1 ∧ Q pair.2) (Outcome.both outcome outcome') :=
  match outcome, outcome' with
  | .ok a, .ok b => yields_ok ⟨h a rfl, h' b rfl⟩
  | .ok _, .error fault => yields_error fault
  | .error fault, .ok _ => yields_error fault
  | .error _, .error _ => yields_error _

theorem Yields.all {outcomes : List (Outcome α)} (h : ∀ outcome ∈ outcomes, Yields P outcome) :
    Yields (fun values => ∀ value ∈ values, P value) (Outcome.all outcomes) := by
  induction outcomes with
  | nil => exact yields_ok nofun
  | cons outcome outcomes ih =>
    obtain ⟨hfirst, hrest⟩ := List.forall_mem_cons.mp h
    exact (hfirst.both (ih hrest)).map fun pair hpair => List.forall_mem_cons.mpr hpair

/-! ### Trees -/

namespace Node

/-- The values of the entries are as they should be. -/
def EntriesYield (entries : List Entry) : Prop := ∀ entry ∈ entries, Yields Distinct entry.2

theorem EntriesYield.append {entries entries' : List Entry} (h : EntriesYield entries)
    (h' : EntriesYield entries') : EntriesYield (entries ++ entries') :=
  fun entry hmem => (List.mem_append.mp hmem).elim (h entry) (h' entry)

theorem yields_ofText? (tag : Tag) (text : Option Text) : Yields Distinct (ofText? tag text) := by
  unfold ofText?
  split
  · rename_i t
    cases tag.construct t with
    | ok s => exact yields_ok (.scalar s)
    | error e => exact yields_error _
  · exact yields_error _

theorem yields_unfit (tag : Tag) : Yields Distinct (unfit tag) := by
  unfold unfit
  split
  · exact yields_error _
  · exact yields_error _

/-- Setting entries one after the other leaves every key once. -/
theorem distinct_foldl_setEntry {pairs entries : List (Scalar × Value)}
    (h : Distinct (.map entries)) (hpairs : ∀ pair ∈ pairs, Distinct pair.2) :
    Distinct (.map (pairs.foldl (fun entries (key, value) => Value.setEntry key value entries)
      entries)) := by
  induction pairs generalizing entries with
  | nil => exact h
  | cons pair pairs ih =>
    obtain ⟨hpair, hpairs⟩ := List.forall_mem_cons.mp hpairs
    obtain ⟨hkeys, hvalues⟩ : DistinctKeys entries ∧ ∀ entry ∈ entries, Distinct entry.2 := by
      cases h with
      | map hkeys hvalues => exact ⟨hkeys, hvalues⟩
    refine ih (.map (hkeys.setEntry pair.1 pair.2) fun entry hentry => ?_) hpairs
    rcases Value.mem_of_mem_setEntry hentry with ⟨hnew, -⟩ | hold
    · rw [hnew]
      exact hpair
    · exact hvalues entry hold

theorem yields_ofEntries {entries : List Entry} (h : EntriesYield entries) :
    Yields (fun pairs => Distinct (.map pairs)) (ofEntries entries) := by
  unfold ofEntries
  refine (Yields.all (P := fun pair => True ∧ Distinct pair.2) fun outcome hmem => ?_).map
    fun pairs hpairs => ?_
  · obtain ⟨entry, hentry, rfl⟩ := List.mem_map.mp hmem
    have hkey : Yields (fun _ => True) entry.1 := fun _ _ => trivial
    exact hkey.both (h entry hentry)
  · have hempty : Distinct (.map []) := .map List.Pairwise.nil nofun
    exact distinct_foldl_setEntry hempty fun pair hpair => (hpairs pair hpair).2

-- The proofs follow the recursion of the construction, one for each of its functions.
mutual

theorem yields_construct (node : Node) : Yields Distinct node.construct := by
  match node with
  | .scalar tag text =>
    unfold construct
    split
    · exact yields_unfit tag
    · exact yields_ofText? tag _
  | .sequence tag items =>
    unfold construct
    split
    · exact (Yields.all (yields_constructItems items)).inside.map fun _ => .list
    · exact (Yields.all (yields_constructPairs items)).inside.map fun _ => .list
    · exact yields_unfit tag
  | .mapping tag entries =>
    have hentries := yields_constructEntries entries
    unfold construct
    split
    · split
      · exact yields_unfit _
      · rename_i result hresult
        exact (yields_ofEntries (hentries result hresult)).inside.map fun _ hpairs => hpairs
    · split
      · exact yields_unfit _
      · exact Yields.map (fun _ _ => trivial) fun _ _ => Distinct.set _
    · split
      · exact yields_unfit tag
      · exact yields_ofText? tag _
  | .enclosing tag =>
    unfold construct
    split
    · exact yields_ok .outerList
    · exact yields_ok .outerList
    · exact yields_ok .outerMap
    · exact yields_ok .outerMap
    · exact yields_unfit tag

theorem yields_constructItems (items : List Node) :
    ∀ outcome ∈ constructItems items, Yields Distinct outcome := by
  match items with
  | [] => exact fun _ hmem => nomatch hmem
  | item :: items =>
    unfold constructItems
    exact List.forall_mem_cons.mpr ⟨yields_construct item, yields_constructItems items⟩

theorem yields_constructPairs (items : List Node) :
    ∀ outcome ∈ constructPairs items, Yields Distinct outcome := by
  match items with
  | [] => exact fun _ hmem => nomatch hmem
  | item :: items =>
    have hrest := yields_constructPairs items
    match item with
    | .mapping tag [(key, value)] =>
      unfold constructPairs
      refine List.forall_mem_cons.mpr ⟨?_, hrest⟩
      exact ((yields_construct key).both (yields_construct value)).map fun _ hpair =>
        .pair hpair.1 hpair.2
    | .mapping _ [] | .mapping _ (_ :: _ :: _) | .scalar _ _ | .sequence _ _ | .enclosing _ =>
      exact List.forall_mem_cons.mpr ⟨yields_error _, hrest⟩

theorem yields_constructEntries (entries : List (Node × Node)) (result : Entries)
    (hresult : constructEntries entries = some result) : EntriesYield result.toList := by
  match entries with
  | [] =>
    unfold constructEntries at hresult
    cases hresult
    exact fun _ hmem => nomatch hmem
  | (key, value) :: entries =>
    unfold constructEntries at hresult
    obtain ⟨later, hlater, hresult⟩ := Option.bind_eq_some_iff.mp hresult
    have hrest := yields_constructEntries entries later hlater
    split at hresult
    · obtain ⟨merged, hmerged, hresult⟩ := Option.bind_eq_some_iff.mp hresult
      cases hresult
      rw [Entries.toList, List.append_assoc]
      exact (yields_constructMerged value merged hmerged).append hrest
    · cases hresult
      intro entry hmem
      rcases List.mem_append.mp hmem with hmerged | hown
      · exact hrest entry (List.mem_append_left _ hmerged)
      · rcases List.mem_cons.mp hown with rfl | hlater
        · exact yields_construct value
        · exact hrest entry (List.mem_append_right _ hlater)

theorem yields_constructMerged (node : Node) (result : List Entry)
    (hresult : constructMerged node = some result) : EntriesYield result := by
  match node with
  | .mapping tag entries =>
    unfold constructMerged at hresult
    obtain ⟨result, hentries, rfl⟩ := Option.map_eq_some_iff.mp hresult
    exact yields_constructEntries entries result hentries
  | .sequence tag items =>
    unfold constructMerged at hresult
    exact yields_constructMergedItems items result hresult
  | .enclosing tag =>
    unfold constructMerged at hresult
    split at hresult
    · cases hresult
      exact fun _ hmem => nomatch hmem
    · cases hresult
  | .scalar tag text =>
    unfold constructMerged at hresult
    cases hresult

theorem yields_constructMergedItems (items : List Node) (result : List Entry)
    (hresult : constructMergedItems items = some result) : EntriesYield result := by
  match items with
  | [] =>
    unfold constructMergedItems at hresult
    cases hresult
    exact fun _ hmem => nomatch hmem
  | item :: items =>
    match item with
    | .mapping tag entries =>
      unfold constructMergedItems at hresult
      obtain ⟨later, hlater, hresult⟩ := Option.bind_eq_some_iff.mp hresult
      obtain ⟨first, hfirst, hresult⟩ := Option.bind_eq_some_iff.mp hresult
      cases hresult
      exact (yields_constructMergedItems items later hlater).append
        (yields_constructEntries entries first hfirst)
    | .enclosing tag =>
      unfold constructMergedItems at hresult
      split at hresult
      · exact yields_constructMergedItems items result hresult
      · cases hresult
    | .scalar _ _ | .sequence _ _ =>
      unfold constructMergedItems at hresult
      cases hresult

end

end Node

/-! ### Documents -/

/-- In the value of a document the keys of all mappings differ. -/
theorem distinct_of_parse {text : Text} {value : Value} (h : parse text = .ok value) :
    value.Distinct := by
  unfold parse at h
  split at h
  · cases h
  · split at h
    · cases h
    · cases h
      exact .scalar .null
    · rename_i node _
      have hvalue : node.construct = .ok value := mapError_eq_ok_iff.mp h
      exact Node.yields_construct node value hvalue

end Yaml

end Splice
