import Splice.Glob.Basic
import Splice.Proofs.Path.Joining
import Splice.Proofs.Tree.Paths

/-!
# Patterns without wildcards

A pattern without wildcards finds what stands at the path that it spells.

* `Glob.find_of_isFile`, `Glob.expandFiles_of_isFile` — the path of a file, as a pattern, finds this
  file only.
-/

namespace Splice.Glob

variable {tree : Tree} {path : Text}

theorem within_nil (path : Text) : within [] path = path := rfl

theorem within_nil_right (base : Text) : within base [] = base := by
  by_cases hbase : base = [] <;> simp [within, hbase]

theorem find_of_isFile (hpattern : Wildcard.isPattern path = false)
    (hfile : tree.isFile path = true) : find tree [] path = [path] := by
  have hleaf := Tree.leaf_ne_nil_of_isFile hfile
  have hhas : tree.has path = true := by
    obtain ⟨place, bytes, hlocate, hentry⟩ := Tree.isFile_iff.mp hfile
    simp [Tree.has, Tree.find?, hlocate, hentry]
  have hsearch : search tree [] (path.length + 1) false path = [path] := by
    simp [search, hpattern, hleaf, within_nil, hhas]
  have hpath : path ≠ [] := by
    rintro rfl
    exact hleaf rfl
  unfold find
  rw [hsearch]
  simp only
  split
  · rename_i heq
    exact absurd (List.cons.inj heq).1 hpath
  · rfl

/-- The path of a file, without wildcards, finds this file only. -/
theorem expandFiles_of_isFile (hpattern : Wildcard.isPattern path = false)
    (hfile : tree.isFile path = true) : expandFiles tree none path = [path] := by
  simp [expandFiles, find_of_isFile hpattern hfile, Path.join_nil, hfile, Text.sort]

end Splice.Glob
