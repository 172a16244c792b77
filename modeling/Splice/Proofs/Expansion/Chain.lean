import Mathlib.Data.ENat.Basic
import Splice.Proofs.Expansion.Entry

/-!
# Chains of includes

Documents each of which is one directive for the next form a chain, which may end or go on for ever.
The bound on nesting is the number of links that are followed.

* `Expansion.Chain` — documents each of which is one directive for the file with the next;
* `Expansion.Lone.expanded_within` — one link within the bound; and
* `Expansion.expanded_chain` — a whole chain is expanded to its last text if it has no more links
  than the bound allows, and is stopped at the first link beyond otherwise.
-/

namespace Splice.Expansion

section

variable [Codecs]
variable {config : Config} {tree : Tree}

/-! ### One link -/

section

variable {directory document file text : Text} {warnings : List Warning} {depth : Nat}

/-- Within the bound the document is expanded to what the text of the file is expanded to, if its
placeholders leave that text as it is. -/
theorem Lone.expanded_within (lone : Lone config tree directory document warnings file text)
    (hhook : config.hook = none) (hdepth : (depth + 1 : Nat) ≤ config.maxDepth)
    (hplain : Settles (fun fuel => substitute config tree fuel lone.locals text) ([], .ok text))
    {more : List Warning} {result : Except Failure Text}
    (h : Expanded config tree (Path.parent file) (depth + 1) text more result) :
    Expanded config tree directory depth document (warnings ++ more) result := by
  obtain ⟨fuel, hfuel⟩ := Expand.settles_ok
    (f := fun fuel => expandIncludes config tree fuel (Path.parent file) (depth + 1))
    (stable_substitute config tree lone.locals text)
    (stable_expandIncludes config tree _ _ _) hplain h
  refine ⟨fuel + 1, ?_⟩
  simp only [lone.expandIncludes_within hhook hdepth, lone.resolved]
  exact Expand.andThen_ok hfuel

theorem Lone.expanded_beyond (lone : Lone config tree directory document warnings file text)
    (hdepth : config.maxDepth < (depth + 1 : Nat)) :
    Expanded config tree directory depth document warnings
      (.error (.tooDeep file config.maxDepth)) :=
  ⟨1, lone.expandIncludes_beyond hdepth 0⟩

end

/-! ### Whole chains -/

/-- The directories of the documents of a chain: that of the first, and those of the files. -/
def standsIn (directory : Text) (files : ℕ → Text) : ℕ → Text
  | 0 => directory
  | i + 1 => Path.parent (files i)

/-- Documents each of which is one directive for the file with the next. If there is a last one, it
has no directive. -/
structure Chain (config : Config) (tree : Tree) where
  /-- The number of directives. -/
  count : ℕ∞
  /-- The directory of the first document. -/
  directory : Text
  /-- The documents. -/
  texts : ℕ → Text
  /-- The files for the directives: with each document, that with the next. -/
  files : ℕ → Text
  /-- The warnings of the directives. -/
  warnings : ℕ → List Warning
  /-- The directives. -/
  link (i : ℕ) : i < count →
    Lone config tree (standsIn directory files i) (texts i) (warnings i) (files i) (texts (i + 1))
  /-- Replacing placeholders leaves the texts of the files as they are. -/
  plain (i : ℕ) (h : i < count) :
    Settles (fun fuel => substitute config tree fuel (link i h).locals (texts (i + 1)))
      ([], .ok (texts (i + 1)))
  /-- A chain ends with a text without directives. -/
  last (i : ℕ) : count = i → Directive.find? config.delimiters (texts i) = none

namespace Chain

variable (chain : Chain config tree)

/-- The outcome of a document of the chain with as many includes around it as there are documents
before it. -/
def ExpandedAt (i : ℕ) (warnings : List Warning) (result : Except Failure Text) : Prop :=
  Expanded config tree (standsIn chain.directory chain.files i) i (chain.texts i) warnings result

/-- The warnings of the first directives. -/
def warningsUpTo (i : ℕ) : List Warning := (List.range i).flatMap chain.warnings

theorem warningsUpTo_succ (i : ℕ) :
    chain.warningsUpTo (i + 1) = chain.warningsUpTo i ++ chain.warnings i := by
  simp [warningsUpTo, List.range_succ]

variable {chain} {bound : ℕ}

/-- As long as the bound is kept, a document has the outcome of the next. -/
theorem ExpandedAt.step (hhook : config.hook = none) (hbound : config.maxDepth = bound) {i : ℕ}
    (hi : i < bound) (hcount : i < chain.count) {warnings : List Warning}
    {result : Except Failure Text} (h : chain.ExpandedAt (i + 1) warnings result) :
    chain.ExpandedAt i (chain.warnings i ++ warnings) result :=
  (chain.link i hcount).expanded_within hhook (by omega) (chain.plain i hcount) h

/-- The first document has the outcome of any that is reached within the bound. -/
theorem ExpandedAt.first (hhook : config.hook = none) (hbound : config.maxDepth = bound) {i : ℕ}
    (hi : i ≤ bound) (hcount : i ≤ chain.count) {warnings : List Warning}
    {result : Except Failure Text} (h : chain.ExpandedAt i warnings result) :
    chain.ExpandedAt 0 (chain.warningsUpTo i ++ warnings) result := by
  induction i generalizing warnings with
  | zero => exact h
  | succ i ih =>
    have hlt : i < chain.count := (ENat.add_one_le_iff (ENat.natCast_ne_top i)).mp hcount
    rw [warningsUpTo_succ, List.append_assoc]
    exact ih (Nat.le_of_succ_le hi) hlt.le (h.step hhook hbound hi hlt)

theorem expandedAt_last {i : ℕ} (h : chain.count = i) :
    chain.ExpandedAt i [] (.ok (chain.texts i)) :=
  expanded_done (chain.last i h)

theorem expandedAt_bound (hbound : config.maxDepth = bound) (h : bound < chain.count) :
    chain.ExpandedAt bound (chain.warnings bound)
      (.error (.tooDeep (chain.files bound) bound)) := by
  have hbeyond : config.maxDepth < (bound + 1 : Nat) := by omega
  have hstopped := (chain.link bound h).expanded_beyond hbeyond
  rwa [hbound] at hstopped

end Chain

/-- Without a hook, a chain is expanded to its last text if it has no more links than the bound
allows. Otherwise, also if it goes on for ever, it is stopped at the first link beyond the bound,
and the failure has the path of the file for that one. The warnings are those of the links that are
met. -/
theorem expanded_chain (hhook : config.hook = none) {bound : ℕ} (hbound : config.maxDepth = bound)
    (chain : Chain config tree) :
    (∀ n : ℕ, chain.count = n → n ≤ bound →
      Expanded config tree chain.directory 0 (chain.texts 0) (chain.warningsUpTo n)
        (.ok (chain.texts n))) ∧
      (bound < chain.count →
        Expanded config tree chain.directory 0 (chain.texts 0) (chain.warningsUpTo (bound + 1))
          (.error (.tooDeep (chain.files bound) bound))) := by
  constructor
  · intro n hn hle
    have h := (Chain.expandedAt_last hn).first hhook hbound hle hn.ge
    rwa [List.append_nil] at h
  · intro hlt
    have h := (Chain.expandedAt_bound hbound hlt).first hhook hbound le_rfl hlt.le
    rwa [← Chain.warningsUpTo_succ] at h

end

/-! ### A chain that ends, and one that does not -/

/-- A site with two files that include each other, and one that includes nothing. -/
def ringSite : Tree where
  cwd := "/"
  entries := [(["a"], .file (Encoding.encodeUtf8 (Directive.bare {} "/b"))),
    (["b"], .file (Encoding.encodeUtf8 (Directive.bare {} "/a"))),
    (["c"], .file (Encoding.encodeUtf8 "end"))]

/-- The two files in turn. -/
def ringFile (i : ℕ) : Text := if i % 2 = 0 then "/a" else "/b"

theorem ringFile_elim {P : Text → Text → Prop} (hab : P "/a" "/b") (hba : P "/b" "/a") (i : ℕ) :
    P (ringFile i) (ringFile (i + 1)) := by
  unfold ringFile
  rcases Nat.mod_two_eq_zero_or_one i with h | h
  · rwa [if_pos h, if_neg (by omega)]
  · rwa [if_neg (by omega), if_pos (by omega)]

/-- The two files include each other. -/
def endless : Chain (({} : Config).withBound 1) ringSite where
  count := ⊤
  directory := "/"
  texts i := Directive.bare {} (ringFile i)
  files := ringFile
  warnings _ := []
  link i _ := Lone.bare
    (ringFile_elim (P := fun file _ => Path.isAbsolute file = true) rfl rfl i)
    (ringFile_elim (P := fun file _ => Path.normalize file = file) (by decide) (by decide) i)
    (ringFile_elim (P := fun file _ => ∀ c ∈ file, Directive.isQuote c = false ∧ c ≠ '\n')
      (by simp [Directive.isQuote]) (by simp [Directive.isQuote]) i)
    (ringFile_elim (P := fun file _ => Wildcard.isPattern file = false) (by decide) (by decide) i)
    (ringFile_elim (P := fun file next => File.read ringSite file "utf-8" =
      .ok (Directive.bare {} next)) (by cbv) (by cbv) i) _
  plain i _ := ringFile_elim (P := fun file next =>
    Settles (fun fuel => substitute (({} : Config).withBound 1) ringSite fuel
      [(docrootName, docrootOf ({} : Config) ringSite file)] (Directive.bare {} next))
      ([], .ok (Directive.bare {} next))) ⟨1, by cbv⟩ ⟨1, by cbv⟩ i
  last i h := absurd h (ENat.top_ne_natCast i)

/-- The third file is the last of its chain. -/
def ending : Chain (({} : Config).withBound 1) ringSite where
  count := 1
  directory := "/"
  texts
    | 0 => Directive.bare {} "/c"
    | _ + 1 => "end"
  files _ := "/c"
  warnings _ := []
  link
    | 0, _ => Lone.bare rfl (by decide) (by simp [Directive.isQuote]) (by decide) (by cbv) _
    | i + 1, h => absurd h (by simp)
  plain
    | 0, _ => ⟨1, by cbv⟩
    | i + 1, h => absurd h (by simp)
  last i h := by
    obtain rfl : i = 1 := by exact_mod_cast h.symm
    decide

theorem expanded_chain_ringSite :
    (({} : Config).withBound 1).hook = none ∧ (({} : Config).withBound 1).maxDepth = (1 : ℕ) ∧
      ending.count = (1 : ℕ) ∧ (1 : ℕ) < endless.count ∧
      Expanded (({} : Config).withBound 1) ringSite "/" 0 (Directive.bare {} "/c") [] (.ok "end") ∧
      Expanded (({} : Config).withBound 1) ringSite "/" 0 (Directive.bare {} "/a") []
        (.error (.tooDeep "/b" 1)) :=
  ⟨rfl, rfl, rfl, ENat.natCast_lt_top 1, (expanded_chain rfl rfl ending).1 1 rfl le_rfl,
    (expanded_chain rfl rfl endless).2 (ENat.natCast_lt_top 1)⟩

end Splice.Expansion
