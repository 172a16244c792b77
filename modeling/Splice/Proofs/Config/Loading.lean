import Splice.Config.Load
import Splice.Proofs.Config.Given
import Splice.Proofs.Tree.Writing
import Splice.Proofs.Yaml.Distinct

/-!
# Loading configurations

* `Config.dest_ne_nil`, `Config.nodup_globals` — the mappings of a configuration that is loaded have
  destinations, and its global variables have different names;
* `Config.path_of_load` — the paths under which there is no configuration; and
* `Config.load_resolve` — it does not matter whether the path is resolved first.
-/

namespace Splice

namespace Config

variable {modules : List Hook.Module} {config : Config} {mapping : FileMapping}
  {tree : Tree} {path : Text}

/-! ### Values of documents -/

/-- A configuration is made of options without problems. -/
theorem exists_options_of_ofValue {value : Value} (h : ofValue modules value = .ok config) :
    ∃ entries hook, value = .map entries ∧ findingsOf (effectiveOptions entries) hook = [] ∧
      config = configOf (effectiveOptions entries) hook.value := by
  cases value with
  | map entries =>
    rw [ofValue_map] at h
    cases hhook : checkHook modules (effectiveOptions entries) with
    | error e =>
      rw [readOptions_error hhook] at h
      cases h
    | ok hook =>
      rw [readOptions_eq hhook, settled] at h
      split at h
      · rename_i hnone
        cases h
        exact ⟨entries, hook, rfl, List.isEmpty_iff.mp hnone, rfl⟩
      · cases h
  | _ => cases h

/-- A configuration that is loaded is that in a value, in which the keys of all mappings differ. -/
theorem exists_value_of_load (h : load modules tree path = .ok config) :
    ∃ value : Value, value.Distinct ∧ ofValue modules value = .ok config := by
  unfold load at h
  obtain ⟨text, -, h⟩ := bind_eq_ok_iff.mp h
  unfold ofText at h
  split at h
  · cases h
  · cases h
  · exact ⟨.map [], .map List.Pairwise.nil nofun, mapError_eq_ok_iff.mp h⟩
  · rename_i value _ hparse
    exact ⟨value, Yaml.distinct_of_parse hparse, mapError_eq_ok_iff.mp h⟩

/-! ### Destinations -/

theorem dest_ne_nil_of_checkMapping {entry : Value} (h : checkMapping entry = .ok mapping) :
    mapping.dest ≠ [] := by
  unfold checkMapping at h
  split at h
  · split at h
    · cases h
    · split at h
      · split at h
        · cases h
        · cases h
          simp
      · cases h
  · cases h

theorem dest_ne_nil_of_checkMappings {index : Nat} {entries : List Value}
    (h : mapping ∈ (checkMappings index entries).value) : mapping.dest ≠ [] := by
  induction entries generalizing index with
  | nil => cases h
  | cons entry entries ih =>
    rw [checkMappings] at h
    cases hentry : checkMapping entry with
    | error problem =>
      rw [hentry] at h
      exact ih h
    | ok first =>
      rw [hentry] at h
      rcases List.mem_cons.mp h with rfl | h
      · exact dest_ne_nil_of_checkMapping hentry
      · exact ih h

theorem dest_ne_nil_of_checkFiles {options : Bindings Value}
    (h : mapping ∈ (checkFiles options).value) : mapping.dest ≠ [] := by
  unfold checkFiles at h
  split at h
  · cases h
  · cases h
  · exact dest_ne_nil_of_checkMappings h
  · cases h

/-- Every mapping of a configuration that is loaded has a destination. -/
theorem dest_ne_nil (h : load modules tree path = .ok config) (hmem : mapping ∈ config.files) :
    mapping.dest ≠ [] := by
  obtain ⟨value, -, hvalue⟩ := exists_value_of_load h
  obtain ⟨entries, hook, -, -, rfl⟩ := exists_options_of_ofValue hvalue
  exact dest_ne_nil_of_checkFiles hmem

/-! ### Global variables -/

/-- The global variables of a configuration that is loaded have different names. -/
theorem nodup_globals (h : load modules tree path = .ok config) :
    (Bindings.names config.globals).Nodup := by
  obtain ⟨value, hdistinct, hvalue⟩ := exists_value_of_load h
  obtain ⟨entries, hook, rfl, hnone, rfl⟩ := exists_options_of_ofValue hvalue
  obtain ⟨hkeys, hvalues⟩ : Value.DistinctKeys entries ∧ ∀ entry ∈ entries, entry.2.Distinct := by
    cases hdistinct with
    | map hkeys hvalues => exact ⟨hkeys, hvalues⟩
  have hglobals : (checkGlobals (effectiveOptions entries)).findings = [] := by
    simp only [findingsOf, List.append_eq_nil_iff] at hnone
    exact hnone.1.1.1.2
  show (Bindings.names (checkGlobals (effectiveOptions entries)).value).Nodup
  rcases (checks_globals entries).optionIs hglobals with ⟨given, hgiven, hreads⟩ | ⟨-, hdefault⟩
  · rcases hreads with ⟨-, hempty⟩ | hmapping
    · rw [hempty]
      exact List.nodup_nil
    · obtain ⟨before, key, after, heq, -⟩ := hgiven
      -- The variables may be the options themselves: the keys of either are distinct.
      generalize hfields :
        List.map _ (checkGlobals (effectiveOptions entries)).value = fields at hmapping
      cases hmapping with
      | own =>
        have hown : (Value.map fields).Distinct := hvalues (key, .map fields) (by rw [heq]; simp)
        cases hown with
        | map hkeys =>
          rw [← hfields] at hkeys
          exact hkeys.nodup_names
      | outer =>
        rw [← hfields] at hkeys
        exact hkeys.nodup_names
  · rw [hdefault]
    exact List.nodup_nil

/-! ### Resolved paths -/

theorem readBytes_resolve {bytes : Bytes} (hclosed : tree.Closed)
    (h : File.readBytes tree (Path.plain path) = .ok bytes) :
    File.readBytes tree (Path.resolve tree.cwd path) = .ok bytes := by
  have hentry := (Tree.entry?_of_find?_plain hclosed (File.readBytes_eq_ok_iff.mp h)).2
  have hlocate := Tree.locate_resolve hclosed path (by rw [hentry]; rfl)
  rw [File.readBytes_eq_ok_iff, Tree.find?, hlocate]
  exact hentry

theorem exists_bytes_of_load (h : load modules tree path = .ok config) :
    ∃ bytes, File.readBytes tree path = .ok bytes := by
  obtain ⟨text, htext, -⟩ := bind_eq_ok_iff.mp h
  obtain ⟨bytes, hbytes, -⟩ := bind_eq_ok_iff.mp (mapError_eq_ok_iff.mp htext)
  exact ⟨bytes, hbytes⟩

theorem has_of_load (h : load modules tree path = .ok config) : tree.has path = true := by
  obtain ⟨bytes, hbytes⟩ := exists_bytes_of_load h
  exact File.has_of_readBytes hbytes

/-- A configuration that is found under a path is found when the path is resolved first. -/
theorem load_resolve (hclosed : tree.Closed)
    (h : load modules tree (Path.plain path) = .ok config) :
    load modules tree (Path.resolve tree.cwd path) = .ok config := by
  obtain ⟨bytes, hbytes⟩ := exists_bytes_of_load h
  rw [load, File.readLines, hbytes] at h
  rw [load, File.readLines, readBytes_resolve hclosed hbytes]
  exact h

/-- The path of a configuration that is found is not empty and has no null characters. -/
theorem path_of_load (hclosed : tree.Closed)
    (h : load modules tree (Path.plain path) = .ok config) :
    path ≠ [] ∧ '\x00' ∉ path := by
  obtain ⟨bytes, hbytes⟩ := exists_bytes_of_load h
  obtain ⟨hnull, hentry⟩ :=
    Tree.entry?_of_find?_plain hclosed (File.readBytes_eq_ok_iff.mp hbytes)
  refine ⟨?_, Tree.null_not_mem_of_plain hnull⟩
  intro hempty
  subst hempty
  -- The empty path stands for the working directory, which is no file.
  have hhere : tree.entry? (tree.placeOf []) = some .directory := hclosed.here
  cases hhere.symm.trans hentry

end Config

end Splice
