import Splice.Proofs.Expansion.Asking
import Splice.Proofs.Glob.Listing

/-!
# Expansions when directories are listed in another order

What an expansion asks of a tree does not depend on the order in which directories are listed, and
so neither does its outcome.

* `Expansion.sameAnswer_relists` — the answers to single requests; and
* `Expansion.expandIncludes_relists` — patterns, lists of patterns, and the expansion of a document.
-/

namespace Splice.Expansion

section

variable [Codecs]
variable {config : Config} {tree other : Tree}

/-- Trees that differ in the orders of their directories give the same answers. -/
theorem sameAnswer_relists (h : tree.Relists other) (request : Request) :
    SameAnswer config tree other request := by
  cases request with
  | files pattern => exact ⟨Glob.expandFiles_relists h none pattern, fun file _ => h.read_eq file _⟩
  | template key => exact h.loadEmbedded_eq key

/-- The order in which directories list their names cannot be seen: not in what a pattern finds, be
it all paths or the files only, nor in what a list of patterns finds, nor in the text, the warnings
or the failure of an expansion. -/
theorem expandIncludes_relists (h : tree.Relists other) :
    (∀ cwd pattern, Glob.expand other cwd pattern = Glob.expand tree cwd pattern) ∧
      (∀ cwd pattern, Glob.expandFiles other cwd pattern = Glob.expandFiles tree cwd pattern) ∧
      (∀ cwd patterns, Glob.expandAll other cwd patterns = Glob.expandAll tree cwd patterns) ∧
      ∀ config fuel directory depth document,
        expandIncludes config other fuel directory depth document =
          expandIncludes config tree fuel directory depth document := by
  refine ⟨Glob.expand_relists h, Glob.expandFiles_relists h, Glob.expandAll_relists h, ?_⟩
  intro config fuel directory depth document
  let scan : Scan := ⟨directory, depth, document⟩
  have hscan : scan.expand config other fuel = scan.expand config tree fuel :=
    Scan.expand_congr h.cwd fun target path locals _ _ =>
      ⟨sameAnswer_relists h _, fun _ _ _ _ _ => sameAnswer_relists h _⟩
  exact hscan

end

/-- A site with two files that are given from the first to the last. -/
def listedUp : Tree where
  cwd := "/"
  entries := [(["x"], .file (Encoding.encodeUtf8 "1")), (["y"], .file (Encoding.encodeUtf8 "2"))]

/-- The same site, from the last to the first. -/
def listedDown : Tree := { listedUp with entries := listedUp.entries.reverse }

/-- A pattern comes to the two files in opposite orders, but the expansion is the same. -/
theorem expandIncludes_listedDown :
    listedUp.Relists listedDown ∧
      Glob.find listedUp [] "/?" = (["/x", "/y"] : List Text) ∧
      Glob.find listedDown [] "/?" = (["/y", "/x"] : List Text) ∧
      expandIncludes {} listedUp 2 "/" 0 "@@include(\"/?\")" = .done "1\n2" ∧
      expandIncludes {} listedDown 2 "/" 0 "@@include(\"/?\")" = .done "1\n2" := by
  have h : listedUp.Relists listedDown :=
    Tree.relists_of_perm (by decide) rfl (List.reverse_perm _)
  have hup : expandIncludes {} listedUp 2 "/" 0 "@@include(\"/?\")" = .done "1\n2" := by cbv
  obtain ⟨-, -, -, hsame⟩ := expandIncludes_relists h
  exact ⟨h, by decide, by decide, hup, (hsame {} 2 "/" 0 _).trans hup⟩

end Splice.Expansion
