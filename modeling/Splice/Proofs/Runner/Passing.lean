import Splice.Proofs.Directive.Division
import Splice.Proofs.Encoding.Utf8
import Splice.Proofs.Expansion.Inert
import Splice.Proofs.Tree.Writing
import Splice.Runner

/-!
# Files that pass through

A file in UTF-8 in which neither a placeholder nor a tag can begin is written as it is, byte for
byte.

* `Expansion.expandDocument_inert` — such a document is expanded to itself; and
* `Runner.processFile_inert` — and it is written with the bytes with which it was read.
-/

namespace Splice

section

variable [Codecs]

namespace Expansion

variable {config : Config} {tree : Tree} {text file : Text}

/-- A document without tags and without the opener of placeholders is expanded to itself. -/
theorem expandDocument_inert (hopener : ¬ config.delimiters.opener <:+: text)
    (htag : ¬ Mustache.standardDelimiters.opener <:+: text) (fuel : Nat) :
    expandDocument config tree (fuel + 1) text file = some ([], .ok text) := by
  have hparts : expandDocument config tree (fuel + 1) text file =
      (substitute config tree (fuel + 1) [(docrootName, docrootOf config tree file)] text).andThen
        (expandIncludes config tree (fuel + 1) (Path.parent file) 0) := rfl
  rw [hparts, substitute_quiet ⟨hopener, htag⟩, Expand.done_andThen,
    expandIncludes_done config tree (Directive.find?_eq_none hopener)]
  rfl

end Expansion

namespace Runner

/-- A file in UTF-8 without the opener of placeholders and without tags is written as it is: its
destination then has just its bytes, and nothing is reported but progress. -/
theorem processFile_inert (config : Config) (runner : Runner) (source dest text : Text)
    (bytes : Bytes) (hencoding : Encoding.ofName? config.encoding = some .utf8)
    (hclosed : runner.tree.Closed) (hbytes : File.readBytes runner.tree source = .ok bytes)
    (hdecode : Encoding.decodeUtf8 bytes = .ok text)
    (hopener : ¬ config.delimiters.opener <:+: text)
    (htag : ¬ Mustache.standardDelimiters.opener <:+: text)
    (hwritable : ∃ other left, File.write runner.tree dest other config.encoding = (left, .ok ()))
    (fuel : Nat) :
    ∃ left, processFile config (fuel + 1) runner source dest = some (left, .ok text) ∧
      File.readBytes left.tree (Path.plain dest) = .ok bytes ∧
      left.record.warnings = runner.record.warnings ∧
      left.includeWarnings = runner.includeWarnings ∧
      left.log = runner.log ++
        [⟨.info, "Processing " ++ source⟩, ⟨.info, "Processed " ++ source⟩] := by
  have hnamed : File.encodingNamed config.encoding = .ok (.known .utf8) := by
    rw [File.encodingNamed, Encoding.codecOf, hencoding]
    rfl
  have hencode : File.encode config.encoding text = .ok bytes := by
    rw [File.encode, hnamed, ← Encoding.encodeUtf8_of_decodeUtf8 hdecode]
    rfl
  -- Where some text can be written, this one can be written too.
  obtain ⟨other, left, hother⟩ := hwritable
  have hname := File.checkName_of_write hother
  have hread : File.read runner.tree source config.encoding = .ok text :=
    File.read_eq_ok_iff.mpr ⟨hname, bytes, _, hbytes, hnamed, hdecode⟩
  obtain ⟨_, _, hwrote⟩ := File.wrote_of_write hclosed hother
  obtain ⟨tree, hwrite⟩ := File.exists_write hclosed hwrote.writable hname hencode
  obtain ⟨bytes', hencode', hwrote⟩ := File.wrote_of_write hclosed hwrite
  cases hencode.symm.trans hencode'
  have hexpand : Expansion.expandDocument config runner.tree (fuel + 1) text source =
      some ([], .ok text) := Expansion.expandDocument_inert hopener htag fuel
  let noted := (runner.report .info ("Processing " ++ source)).noteIncludes []
  let processed := noted.record.processed ++ [(source, dest)]
  refine ⟨{ noted with tree, record := { noted.record with processed } }.report .info
    ("Processed " ++ source), ?_, hwrote.readBytes, rfl, ?_, ?_⟩
  · have hwrite' : File.write noted.tree dest text config.encoding = (tree, .ok ()) := hwrite
    simp only [processFile, report, hread, hexpand, writeOutput]
    simp only [noteIncludes, hwrite]
    rfl
  · simp [noted, noteIncludes, report]
  · simp [noted, noteIncludes, report]

end Runner

end

namespace Runner

/-- The bytes of a page: a byte order mark, and a line with both line ends and an accent. -/
def markedPage : Bytes := [0xef, 0xbb, 0xbf, 0x61, 0xc3, 0xa9, 0x0d, 0x0a, 0x7b, 0x40, 0x0a]

/-- A site with that page. -/
def markedSite : Runner where
  tree :=
    { cwd := "/site"
      entries := [(["site"], .directory), (["site", "a"], .file markedPage)] }

/-- The page is written to a new directory as it is, although there is a variable. -/
theorem processFile_markedPage :
    ∃ left text,
      processFile { globals := ([("a", .scalar (.text "b"))] : List (Text × Value)) } 1 markedSite
          "a" "out/b" = some (left, .ok text) ∧
        File.readBytes left.tree "out/b" = .ok markedPage ∧ left.record.warnings = [] := by
  have hwrite : (File.write markedSite.tree "out/b" [] "utf-8").2 = .ok () := by decide
  obtain ⟨left, hprocess, hbytes, hwarnings, -, -⟩ := processFile_inert
    { globals := ([("a", .scalar (.text "b"))] : List (Text × Value)) } markedSite "a" "out/b"
    ['\ufeff', 'a', 'é', '\r', '\n', '{', '@', '\n'] markedPage (by decide)
    (by decide) (by decide) (by decide) (by decide)
    (by decide) ⟨[], (File.write markedSite.tree "out/b" [] "utf-8").1,
      Prod.ext rfl hwrite⟩ 0
  exact ⟨left, _, hprocess, hbytes, hwarnings⟩

end Runner

end Splice
