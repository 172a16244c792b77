import Splice.Proofs.Runner.Frame

/-!
# The order of mappings

If no document of a run depends on what the run writes, then each destination finally holds what its
source was expanded to on the first tree, and the mappings can be processed in any order.

* `Runner.writesOf` — what a run writes, as it is expanded on the first tree;
* `Runner.Delivers.after_writesOf` — this is what documents leave that are delivered;
* `Runner.exists_delivers` — they can be delivered in another order; and
* `Runner.run_any_order` — another order of mappings leaves the same.
-/

namespace Splice.Runner

section

variable [Codecs]

open Splice.Path (Straight)

variable {config : Config} {fuel : Nat} {tree next after left : Tree} {source dest : Text}
  {pairs processed done rest : List (Text × Text)} {mappings : List FileMapping} {bytes : Bytes}

/-! ### Mappings in a row -/

theorem delivers_append_iff :
    Delivers config fuel tree (done ++ rest) left ↔
      ∃ next, Delivers config fuel tree done next ∧ Delivers config fuel next rest left := by
  induction done generalizing tree with
  | nil =>
    rw [List.nil_append]
    constructor
    · exact fun h => ⟨tree, .nil, h⟩
    · intro ⟨next, hnil, h⟩
      rw [delivers_nil_iff.mp hnil] at h
      exact h
  | cons pair done ih =>
    obtain ⟨source, dest⟩ := pair
    rw [List.cons_append, delivers_cons_iff]
    constructor
    · intro ⟨next, hfirst, h⟩
      obtain ⟨after, hdone, hrest⟩ := ih.mp h
      exact ⟨after, .cons hfirst hdone, hrest⟩
    · intro ⟨after, hdone, hrest⟩
      obtain ⟨next, hfirst, hdone⟩ := delivers_cons_iff.mp hdone
      exact ⟨next, hfirst, ih.mpr ⟨after, hdone, hrest⟩⟩

theorem DeliversAll.delivers (h : DeliversAll config fuel tree mappings pairs left) :
    Delivers config fuel tree pairs left := by
  induction h with
  | nil => exact .nil
  | cons _ hfirst _ ih => exact delivers_append_iff.mpr ⟨_, hfirst, ih⟩

theorem DeliversAll.not_refused (h : DeliversAll config fuel tree mappings pairs left)
    {mapping : FileMapping} (hmapping : mapping ∈ mappings) :
    Glob.refusesAny mapping.cwd mapping.sources = false := by
  induction h with
  | nil => cases hmapping
  | cons hrefused _ _ ih =>
    rcases List.mem_cons.mp hmapping with rfl | hmapping
    · exact hrefused
    · exact ih hmapping

/-! ### Independent documents -/

section

variable (hclosed : tree.Closed) (hdelivers : Delivers config fuel tree processed left)
  (hind : Independent config fuel tree left processed)
include hclosed hdelivers hind

/-- What is processed is what the mappings find in the end. -/
theorem DeliversAll.pairs_eq (hnext : Between tree left processed next)
    (h : DeliversAll config fuel next mappings pairs left) (hmappings : mappings ⊆ config.files)
    (hpairs : pairs ⊆ processed) : pairs = mappings.flatMap (pairsIn left) := by
  induction mappings generalizing next pairs with
  | nil => exact (deliversAll_nil_iff.mp h).1
  | cons mapping mappings ih =>
    obtain ⟨-, after, rest, hfirst, hrest, heq⟩ := deliversAll_cons_iff.mp h
    subst heq
    have hbelow : after.Grows left := (hrest.delivers.grows (hfirst.grows hnext.closed).2).1
    have hafter := hnext.delivers hfirst hbelow fun pair hpair =>
        hpairs (List.mem_append_left _ hpair)
    rw [List.flatMap_cons,
      ih hafter hrest (fun other hother => hmappings (List.mem_cons_of_mem _ hother))
        fun pair hpair => hpairs (List.mem_append_right _ hpair),
      hnext.pairsIn_eq hclosed hdelivers hind (hmappings List.mem_cons_self)]

/-- A source that is processed is a file that is not changed. -/
theorem source_of_mem (hall : processed = config.files.flatMap (pairsIn left)) {pair : Text × Text}
    (hmem : pair ∈ processed) :
    Straight pair.1 ∧ ¬ Touched tree left processed (left.placeOf pair.1) ∧
      left.isFile pair.1 = true := by
  rw [hall] at hmem
  obtain ⟨mapping, hmapping, hpair⟩ := List.mem_flatMap.mp hmem
  obtain ⟨source, hsource, heq⟩ := List.mem_map.mp hpair
  obtain ⟨hfound, hfile⟩ := List.mem_filter.mp hsource
  obtain ⟨hstraight, hplace⟩ := hind.of_mem_expandAll (hdelivers.grows hclosed).2 hmapping hfound
  rw [← heq]
  exact ⟨hstraight, hplace, hfile⟩

/-- Each document is expanded to the same bytes all the time. -/
theorem exists_bytesOf? (hall : processed = config.files.flatMap (pairsIn left))
    {pair : Text × Text} (hmem : pair ∈ processed) :
    ∃ bytes, ∀ other, Between tree left processed other →
      bytesOf? config fuel other pair.1 = some bytes := by
  obtain ⟨source, dest⟩ := pair
  obtain ⟨hstraight, hplace, hfile⟩ := source_of_mem hclosed hdelivers hind hall hmem
  obtain ⟨before, rest, hprocessed⟩ := List.append_of_mem hmem
  have hsplit := hdelivers
  rw [hprocessed] at hsplit
  obtain ⟨next, hbefore, hrest⟩ := delivers_append_iff.mp hsplit
  obtain ⟨after, hfirst, -⟩ := delivers_cons_iff.mp hrest
  have hnextClosed := (hbefore.grows hclosed).2
  have hnext : Between tree left processed next := by
    refine (Between.first hclosed (hdelivers.grows hclosed).1).delivers hbefore
      (hrest.grows hnextClosed).1 fun pair hpair => ?_
    rw [hprocessed]
    exact List.mem_append_left _ hpair
  obtain ⟨bytes, hbytes, -⟩ := hfirst.exists_bytes hnextClosed
  refine ⟨bytes, fun other hother => ?_⟩
  rw [hnext.bytesOf?_eq hclosed hdelivers hind hprocessed hbefore hstraight hplace hfile hother,
    hbytes]

end

/-! ### What documents leave -/

/-- What documents write, as they are expanded on a tree. -/
def writesOf (config : Config) (fuel : Nat) (tree : Tree) (pairs : List (Text × Text)) :
    List (Text × Bytes) :=
  pairs.map fun pair => (pair.2, (bytesOf? config fuel tree pair.1).getD [])

theorem writesOf_subset (h : pairs ⊆ processed) :
    writesOf config fuel tree pairs ⊆ writesOf config fuel tree processed :=
  List.map_subset _ h

/-- One more document has been written. -/
theorem after_concat (hdone : tree.After (writesOf config fuel tree done) next)
    (hbytes : bytesOf? config fuel tree source = some bytes) (hwrote : next.Wrote dest bytes after)
    (hdifferent : ((done ++ [(source, dest)]).map fun pair => tree.placeOf pair.2).Nodup) :
    tree.After (writesOf config fuel tree (done ++ [(source, dest)])) after := by
  have hne : ∀ item ∈ writesOf config fuel tree done, tree.placeOf item.1 ≠ tree.placeOf dest := by
    intro item hitem heq
    obtain ⟨pair, hpair, rfl⟩ := List.mem_map.mp hitem
    rw [List.map_append, List.nodup_append] at hdifferent
    exact hdifferent.2.2 _ (List.mem_map_of_mem hpair) _ (by simp) heq
  have hlast : writesOf config fuel tree (done ++ [(source, dest)]) =
      writesOf config fuel tree done ++ [(dest, bytes)] := by
    simp [writesOf, hbytes]
  rw [hlast]
  refine (hdone.cons hwrote hne).of_subset ?_ ?_
  · intro item hitem
    simpa [or_comm] using hitem
  · intro item hitem
    simpa [or_comm] using hitem

section

variable (hsame : ∀ pair ∈ processed, ∃ bytes, ∀ other, Between tree left processed other →
  bytesOf? config fuel other pair.1 = some bytes)
include hsame

/-- What documents leave that are delivered: each what it is expanded to on the first tree. -/
theorem Delivers.after_writesOf (h : Delivers config fuel next rest after)
    (hfirst : Between tree left processed tree) (hnext : Between tree left processed next)
    (hbelow : after.Grows left) (hdone : tree.After (writesOf config fuel tree done) next)
    (hpairs : rest ⊆ processed)
    (hdifferent : ((done ++ rest).map fun pair => tree.placeOf pair.2).Nodup) :
    tree.After (writesOf config fuel tree (done ++ rest)) after := by
  induction h generalizing done with
  | nil => rwa [List.append_nil]
  | @cons next' next'' left' source dest pairs hdelivered hrest ih =>
    obtain ⟨bytes, hbytes, hwrote⟩ := hdelivered.exists_bytes hnext.closed
    have hmem := hpairs List.mem_cons_self
    obtain ⟨bytes', hbytes'⟩ := hsame _ hmem
    obtain rfl : bytes = bytes' := Option.some.inj (hbytes.symm.trans (hbytes' _ hnext))
    have hafter := (hrest.grows hwrote.closed).1.trans hbelow
    rw [List.append_cons] at hdifferent ⊢
    refine ih (hnext.wrote hwrote hafter ⟨_, hmem, rfl⟩) hbelow ?_
      (fun pair hpair => hpairs (List.mem_cons_of_mem _ hpair)) hdifferent
    refine after_concat hdone (hbytes' tree hfirst) hwrote ?_
    rw [List.map_append] at hdifferent
    exact (List.nodup_append.mp hdifferent).1

/-- Documents of a run can be delivered in another order. -/
theorem exists_delivers (hfirst : Between tree left processed tree)
    (hleft : tree.After (writesOf config fuel tree processed) left)
    (hnext : Between tree left processed next)
    (hdone : tree.After (writesOf config fuel tree done) next) (hpairs : done ++ rest ⊆ processed)
    (hdifferent : ((done ++ rest).map fun pair => tree.placeOf pair.2).Nodup) :
    ∃ after, Delivers config fuel next rest after ∧ Between tree left processed after ∧
      tree.After (writesOf config fuel tree (done ++ rest)) after := by
  induction rest generalizing next done with
  | nil => exact ⟨next, .nil, hnext, by rwa [List.append_nil]⟩
  | cons pair rest ih =>
    obtain ⟨source, dest⟩ := pair
    have hmem : (source, dest) ∈ processed := hpairs (by simp)
    obtain ⟨bytes, hbytes⟩ := hsame _ hmem
    have hwritten : (dest, bytes) ∈ writesOf config fuel tree processed := by
      refine List.mem_map.mpr ⟨_, hmem, ?_⟩
      simp [hbytes tree hfirst]
    obtain ⟨after, hdelivered, hwrote⟩ :=
      exists_delivered hnext.closed (hleft.writable hwritten hnext.below) (hbytes next hnext)
    rw [List.append_cons] at hpairs hdifferent ⊢
    have hafter : tree.After (writesOf config fuel tree (done ++ [(source, dest)])) after := by
      refine after_concat hdone (hbytes tree hfirst) hwrote ?_
      rw [List.map_append] at hdifferent
      exact (List.nodup_append.mp hdifferent).1
    -- All that is written up to here is written in the other order as well.
    have hbelow : after.Grows left :=
      hafter.grows hleft
        (writesOf_subset fun pair hpair => hpairs (List.mem_append_left _ hpair)) hfirst.below
    obtain ⟨last, hrest, hlast⟩ :=
      ih (hnext.wrote hwrote hbelow ⟨_, hmem, rfl⟩) hafter hpairs hdifferent
    exact ⟨last, .cons hdelivered hrest, hlast⟩

end

/-! ### Mappings in another order -/

section

variable (hclosed : tree.Closed) (hdelivers : Delivers config fuel tree processed left)
  (hind : Independent config fuel tree left processed)
  (hall : processed = config.files.flatMap (pairsIn left))
include hclosed hdelivers hind hall

theorem after_processed : tree.After (writesOf config fuel tree processed) left := by
  have hfirst : Between tree left processed tree := .first hclosed (hdelivers.grows hclosed).1
  have hnone : tree.After (writesOf config fuel tree []) tree := .nil tree
  exact hdelivers.after_writesOf
    (fun pair hpair => exists_bytesOf? hclosed hdelivers hind hall hpair) hfirst hfirst (.refl left)
    hnone (List.Subset.refl _) hind.different

/-- Mappings of a run can be processed in another order. -/
theorem exists_deliversAll (hnext : Between tree left processed next)
    (hdone : tree.After (writesOf config fuel tree done) next) (hmappings : mappings ⊆ config.files)
    (hrefused : ∀ mapping ∈ mappings, Glob.refusesAny mapping.cwd mapping.sources = false)
    (hpairs : done ++ mappings.flatMap (pairsIn left) ⊆ processed)
    (hdifferent : ((done ++ mappings.flatMap (pairsIn left)).map
      fun pair => tree.placeOf pair.2).Nodup) :
    ∃ after, DeliversAll config fuel next mappings (mappings.flatMap (pairsIn left)) after ∧
      tree.After (writesOf config fuel tree (done ++ mappings.flatMap (pairsIn left))) after := by
  induction mappings generalizing next done with
  | nil => exact ⟨next, .nil, by rwa [List.flatMap_nil, List.append_nil]⟩
  | cons mapping mappings ih =>
    rw [List.flatMap_cons, ← List.append_assoc] at hpairs hdifferent
    have hfirst : Between tree left processed tree := .first hclosed (hdelivers.grows hclosed).1
    have hpairsFirst : done ++ pairsIn left mapping ⊆ processed :=
      fun pair hpair => hpairs (List.mem_append_left _ hpair)
    have hdifferentFirst :
        ((done ++ pairsIn left mapping).map fun pair => tree.placeOf pair.2).Nodup := by
      rw [List.map_append] at hdifferent
      exact (List.nodup_append.mp hdifferent).1
    obtain ⟨after, hmapping, hbetween, hafter⟩ := exists_delivers
      (fun pair hpair => exists_bytesOf? hclosed hdelivers hind hall hpair) hfirst
      (after_processed hclosed hdelivers hind hall) hnext hdone hpairsFirst hdifferentFirst
    obtain ⟨last, hrest, hlast⟩ := ih hbetween hafter
      (fun other hother => hmappings (List.mem_cons_of_mem _ hother))
      (fun other hother => hrefused other (List.mem_cons_of_mem _ hother)) hpairs hdifferent
    -- Between the writes, the mapping finds the pairs that it finds in the end.
    rw [← hnext.pairsIn_eq hclosed hdelivers hind (hmappings List.mem_cons_self)] at hmapping
    refine ⟨last, ?_, ?_⟩
    · rw [List.flatMap_cons, ← hnext.pairsIn_eq hclosed hdelivers hind
        (hmappings List.mem_cons_self)]
      exact .cons (hrefused mapping List.mem_cons_self) hmapping hrest
    · rwa [List.flatMap_cons, ← List.append_assoc]

end

theorem delivered_withFiles_iff {mappings : List FileMapping} :
    Delivered (config.withFiles mappings) fuel tree source dest left ↔
      Delivered config fuel tree source dest left := by
  unfold Delivered
  simp only [Expansion.expandDocument_withFiles]
  rfl

theorem DeliversAll.withFiles {listed : List FileMapping}
    (h : DeliversAll config fuel tree mappings pairs left) :
    DeliversAll (config.withFiles listed) fuel tree mappings pairs left := by
  have hdelivers {tree left : Tree} {pairs : List (Text × Text)}
    (h : Delivers config fuel tree pairs left) :
      Delivers (config.withFiles listed) fuel tree pairs left := by
    induction h with
    | nil => exact .nil
    | cons hfirst _ ih => exact .cons (delivered_withFiles_iff.mpr hfirst) ih
  induction h with
  | nil => exact .nil
  | cons hrefused hfirst _ ih => exact .cons hrefused (hdelivers hfirst) ih

/-! ### Runs -/

theorem record_of_run {runner done : Runner} {record : Record}
    (h : run config fuel runner = some (done, .ok record)) : record = done.record := by
  unfold run at h
  split at h
  · cases h
  split at h
  · cases h
  · cases h
  · cases h
    rfl

/-- If no document of a run depends on what the run writes, then every destination finally holds
what its source is expanded to on the tree before the run. Another order of the mappings leaves the
same tree and processes the same files. -/
theorem run_any_order {runner done : Runner} {record : Record} (hclosed : runner.tree.Closed)
    (hrun : run config fuel runner = some (done, .ok record))
    (hind : Independent config fuel runner.tree done.tree record.processed) :
    (∀ pair ∈ record.processed, ∃ document warnings text bytes,
      File.read runner.tree pair.1 config.encoding = .ok document ∧
      Expansion.expandDocument config runner.tree fuel document pair.1 = some (warnings, .ok text) ∧
      File.encode config.encoding text = .ok bytes ∧
      File.readBytes done.tree (Path.plain pair.2) = .ok bytes) ∧
    ∀ mappings : List FileMapping, mappings.Perm config.files →
      ∃ done' record', run (config.withFiles mappings) fuel runner = some (done', .ok record') ∧
        done'.tree.cwd = done.tree.cwd ∧
        (∀ place, done'.tree.entry? place = done.tree.entry? place) ∧
        record'.processed.Perm record.processed := by
  obtain ⟨hshowable, hdeliversAll⟩ : config.isShowable = true ∧
      DeliversAll config fuel runner.tree config.files record.processed done.tree :=
    (leaves_run_iff hclosed).mp ⟨done, record, hrun, rfl, by rw [record_of_run hrun]⟩
  have hdelivers := hdeliversAll.delivers
  have hfirst : Between runner.tree done.tree record.processed runner.tree :=
    .first hclosed (hdelivers.grows hclosed).1
  have hall : record.processed = config.files.flatMap (pairsIn done.tree) :=
    hdeliversAll.pairs_eq hclosed hdelivers hind hfirst (List.Subset.refl _) (List.Subset.refl _)
  have hafter := after_processed hclosed hdelivers hind hall
  refine ⟨fun pair hpair => ?_, fun mappings hperm => ?_⟩
  · obtain ⟨bytes, hbytes⟩ := exists_bytesOf? hclosed hdelivers hind hall hpair
    obtain ⟨document, warnings, text, hread, hexpand, hencode⟩ :=
      bytesOf?_eq_some_iff.mp (hbytes _ hfirst)
    refine ⟨document, warnings, text, bytes, hread, hexpand, hencode, ?_⟩
    -- The destination was found when it had been written, and it is the same file in the end.
    obtain ⟨next, after, _, hcwd, hwrote, hgrows⟩ := hdelivers.exists_wrote hclosed hpair
    have hfile : done.tree.entry? (runner.tree.placeOf pair.2) = some (.file bytes) := by
      have hwritten := hafter.file _ (List.mem_map_of_mem hpair)
      rwa [hbytes _ hfirst] at hwritten
    rw [File.readBytes_eq_ok_iff, Tree.find?, hgrows.locate hwrote.locate_plain,
      Tree.placeOf_of_cwd hcwd]
    exact hfile
  · have hpairs : (mappings.flatMap (pairsIn done.tree)).Perm record.processed := by
      rw [hall]
      exact hperm.flatMap_right _
    have hdifferent :
        ((mappings.flatMap (pairsIn done.tree)).map fun pair => runner.tree.placeOf pair.2).Nodup :=
      (hpairs.map _).nodup_iff.mpr hind.different
    have hnone : runner.tree.After (writesOf config fuel runner.tree []) runner.tree := .nil _
    obtain ⟨left, hleft, hafter'⟩ := exists_deliversAll hclosed hdelivers hind hall hfirst hnone
      hperm.subset (fun mapping hmapping => hdeliversAll.not_refused (hperm.subset hmapping))
      hpairs.subset hdifferent
    have hleaves : Leaves (run (config.withFiles mappings) fuel runner) left
        (mappings.flatMap (pairsIn done.tree)) :=
          (leaves_run_iff hclosed).mpr ⟨hshowable, hleft.withFiles⟩
    obtain ⟨done', record', hrun', htree, hprocessed⟩ := hleaves
    have hsame : runner.tree.After (writesOf config fuel runner.tree record.processed) left :=
      hafter'.of_subset (List.map_subset _ hpairs.symm.subset) (List.map_subset _ hpairs.subset)
    refine ⟨done', record', hrun', ?_, ?_, ?_⟩
    · rw [htree, hsame.cwd, hafter.cwd]
    · intro place
      rw [htree]
      exact hafter.entry?_eq hsame place
    · rw [record_of_run hrun', hprocessed]
      exact hpairs

end

/-! ### A site with a template -/

/-- A site with two pages and a template. -/
def embedding (page : Text) : Tree where
  cwd := "/srv/website"
  entries := [(["srv"], .directory), (["srv", "website"], .directory),
    (["srv", "website", "a"], .file (Encoding.encodeUtf8 "x")),
    (["srv", "website", "b"], .file (Encoding.encodeUtf8 page)),
    (["srv", "website", "p.mustache"], .file (Encoding.encodeUtf8 "P"))]

/-- The site when the first page has been written into a new directory. -/
def embeddingNext (page : Text) : Tree where
  cwd := "/srv/website"
  entries := (embedding page).entries ++ ([(["srv", "website", "new"], .directory),
    (["srv", "website", "new", "out"], .file (Encoding.encodeUtf8 "x"))] : List (Place × Entry))

/-- The site when both pages have been written. -/
def embeddingLast (page : Text) : Tree where
  cwd := "/srv/website"
  entries := (embeddingNext page).entries ++
    ([(["srv", "website", "b.out"], .file (Encoding.encodeUtf8 "P"))] : List (Place × Entry))

/-- The first page is written into a new directory, and the second beside it. -/
def twoMappings : Config where
  files := [{ sources := ["a"], dest := "new/out" }, { sources := ["b"], dest := "b.out" }]

/-- What is processed. -/
def twoPairs : List (Text × Text) := [("a", "new/out"), ("b", "b.out")]

/-- A page that embeds the template. -/
def directPage : Text := "\x7b\x7b> p\x7d\x7d"

/-- A page that embeds the template by way of the new directory. -/
def roundaboutPage : Text := "\x7b\x7b> new/../p\x7d\x7d"

variable {page : Text}

theorem exists_run_embedding (hpage : page = directPage ∨ page = roundaboutPage) :
    ∃ done record, run twoMappings 5 { tree := embedding page } = some (done, .ok record) ∧
      done.tree = embeddingLast page ∧ record.processed = twoPairs := by
  have houtcome : (run twoMappings 5 { tree := embedding page }).map
        (fun outcome => (outcome.1.tree.cwd, outcome.1.tree.entries, outcome.2.toOption)) =
      some ((embeddingLast page).cwd, (embeddingLast page).entries,
        some { processed := twoPairs }) := by
    rcases hpage with rfl | rfl <;> decide +kernel
  obtain ⟨⟨done, result⟩, hrun, heq⟩ := Option.map_eq_some_iff.mp houtcome
  simp only [Prod.mk.injEq] at heq
  obtain ⟨hcwd, hentries, hresult⟩ := heq
  cases result with
  | error failure => cases hresult
  | ok record =>
    cases hresult
    refine ⟨done, _, hrun, ?_, rfl⟩
    cases hdone : done.tree
    rw [hdone] at hcwd hentries
    simp only at hcwd hentries
    subst hcwd hentries
    rfl

/-- The first page is delivered. -/
theorem eq_of_delivered_embedding (hpage : page = directPage ∨ page = roundaboutPage)
    (h : Delivered twoMappings 5 (embedding page) "a" "new/out" next) :
    next = embeddingNext page := by
  obtain ⟨document, warnings, text, hread, hexpand, hwrite⟩ := h
  have hread' : File.read (embedding page) "a" twoMappings.encoding = .ok ("x" : Text) := by
    rcases hpage with rfl | rfl <;> decide
  obtain rfl := Except.ok.inj (hread.symm.trans hread')
  have htext : (Expansion.expandDocument twoMappings (embedding page) 5 "x" "a").map
      (fun outcome => outcome.2.toOption) = some (some ("x" : Text)) := by
    rcases hpage with rfl | rfl <;> decide
  rw [hexpand] at htext
  cases htext
  have hwritten : ((File.write (embedding page) "new/out" "x" twoMappings.encoding).1.cwd,
      (File.write (embedding page) "new/out" "x" twoMappings.encoding).1.entries) =
      ((embeddingNext page).cwd, (embeddingNext page).entries) := by
    rcases hpage with rfl | rfl <;> decide
  rw [hwrite] at hwritten
  cases next
  simp only [Prod.mk.injEq] at hwritten
  obtain ⟨hcwd, hentries⟩ := hwritten
  subst hcwd hentries
  rfl

theorem eq_ok_of_toOption {α : Type} {x : Expand α} {warnings : List Warning} {a : α}
    (h : x.map (fun outcome => (outcome.1, outcome.2.toOption)) = some (warnings, some a)) :
    x = some (warnings, .ok a) := by
  obtain ⟨⟨warnings', result⟩, hx, heq⟩ := Option.map_eq_some_iff.mp h
  cases result with
  | error failure => cases (Prod.mk.inj heq).2
  | ok a' =>
    cases heq
    exact hx

/-- Only the second page asks for something, namely for a template. -/
theorem exists_embeds_of_asked (hpage : page = directPage ∨ page = roundaboutPage)
    {request : Expansion.Request} (h : Asked twoMappings 5 request (embedding page) twoPairs) :
    ∃ locals key, request = .template key ∧
      Expansion.Embeds twoMappings (embeddingNext page) locals page key := by
  cases h with
  | first hread hasks =>
    -- The first page is plain text and embeds nothing.
    have hread' : File.read (embedding page) "a" twoMappings.encoding = .ok ("x" : Text) := by
      rcases hpage with rfl | rfl <;> decide
    rw [Except.ok.inj (hread.symm.trans hread')] at hasks
    have hsubstituted : Expansion.substitute twoMappings (embedding page) 5
        [(Expansion.docrootName, Expansion.docrootOf twoMappings (embedding page) "a")] "x" =
          some ([], .ok "x") := by
      refine eq_ok_of_toOption ?_
      rcases hpage with rfl | rfl <;> decide
    have hnone : Directive.find? twoMappings.delimiters "x" = none :=
      Option.isNone_iff_eq_none.mp (by decide)
    obtain ⟨key, -, -, nodes, hparse, hembeds⟩ := hasks.exists_embeds ⟨5, hsubstituted⟩ hnone
    have hnodes : Mustache.parse "x" = .ok [.text "x"] := rfl
    rw [hnodes] at hparse
    cases hparse
    exact absurd hembeds Mustache.not_embeds_text
  | later hdelivered hrest =>
    rw [eq_of_delivered_embedding hpage hdelivered] at hrest
    cases hrest with
    | first hread hasks =>
      -- The second page is read when the first has been written, and asks for what it embeds.
      have hread' : File.read (embeddingNext page) "b" twoMappings.encoding = .ok page := by
        rcases hpage with rfl | rfl <;> decide
      rw [Except.ok.inj (hread.symm.trans hread')] at hasks
      have hsubstituted : Expansion.substitute twoMappings (embeddingNext page) 5
          [(Expansion.docrootName, Expansion.docrootOf twoMappings (embeddingNext page) "b")] page =
            some ([], .ok "P") := by
        refine eq_ok_of_toOption ?_
        rcases hpage with rfl | rfl <;> decide +kernel
      have hnone : Directive.find? twoMappings.delimiters "P" = none :=
        Option.isNone_iff_eq_none.mp (by decide)
      obtain ⟨key, hrequest, hembeds⟩ := hasks.exists_embeds ⟨5, hsubstituted⟩ hnone
      exact ⟨_, key, hrequest, hembeds⟩
    | later _ hnone => cases hnone

theorem separate_embedding (hpage : page = directPage ∨ page = roundaboutPage) :
    Separate twoMappings 5 (embedding page) (embeddingLast page) twoPairs where
  straight := by decide
  different := by rcases hpage with rfl | rfl <;> decide
  ending := by decide
  sources := by rcases hpage with rfl | rfl <;> decide +kernel
  includes pattern h := by
    obtain ⟨_, _, hrequest, _⟩ := exists_embeds_of_asked hpage h
    cases hrequest

/-- The second page embeds a template that is there all the time. -/
theorem independent_embedding :
    Independent twoMappings 5 (embedding directPage) (embeddingLast directPage) twoPairs := by
  refine ⟨separate_embedding (.inl rfl), fun key h => ?_⟩
  obtain ⟨locals, other, hrequest, -, nodes, hparse, hembeds⟩ := exists_embeds_of_asked (.inl rfl) h
  cases hrequest
  have hnodes : Mustache.parse directPage = .ok [.embed "p" []] := rfl
  rw [hnodes] at hparse
  cases hparse
  have hkey : key = "p" := by
    refine Mustache.eq_of_embeds_embed hembeds fun text inner hload hparse => ?_
    have hload' : (Expansion.environment twoMappings (embeddingNext directPage)).load "p" =
        .ok "P" := by decide
    cases hload.symm.trans hload'
    have hinner : Mustache.parse (Mustache.indentLines [] "P") = .ok [.text "P"] := rfl
    cases hparse.symm.trans hinner
    exact ⟨_, rfl⟩
  rw [hkey]
  decide

/-- The pages can be processed in the other order. -/
theorem run_any_order_directPage :
    ∃ done record, (embedding directPage).Closed ∧
      run twoMappings 5 { tree := embedding directPage } = some (done, .ok record) ∧
      Independent twoMappings 5 (embedding directPage) done.tree record.processed ∧
      ∃ done' record',
        run (twoMappings.withFiles twoMappings.files.reverse) 5 { tree := embedding directPage } =
            some (done', .ok record') ∧
          record'.processed.Perm record.processed := by
  obtain ⟨done, record, hrun, htree, hprocessed⟩ := exists_run_embedding (.inl rfl)
  have hclosed : (embedding directPage).Closed := by decide
  have hind : Independent twoMappings 5 (embedding directPage) done.tree record.processed := by
    rw [htree, hprocessed]
    exact independent_embedding
  obtain ⟨-, horder⟩ := run_any_order hclosed hrun hind
  obtain ⟨done', record', hrun', -, -, hperm⟩ := horder _ (List.reverse_perm _)
  exact ⟨done, record, hclosed, hrun, hind, done', record', hrun', hperm⟩

/-- A page that embeds a template by way of a directory which the run makes: it is expanded to
something on the tree that is left by the first mapping, and to nothing on the first tree. -/
theorem run_any_order_roundaboutPage :
    ∃ done record, (embedding roundaboutPage).Closed ∧
      run twoMappings 5 { tree := embedding roundaboutPage } = some (done, .ok record) ∧
      Separate twoMappings 5 (embedding roundaboutPage) done.tree record.processed ∧
      (("b", "b.out") : Text × Text) ∈ record.processed ∧
      bytesOf? twoMappings 5 (embedding roundaboutPage) "b" = some [] ∧
      File.readBytes done.tree (Path.plain "b.out") = .ok (Encoding.encodeUtf8 "P") := by
  obtain ⟨done, record, hrun, htree, hprocessed⟩ := exists_run_embedding (.inr rfl)
  have hseparate :
      Separate twoMappings 5 (embedding roundaboutPage) done.tree record.processed := by
    rw [htree, hprocessed]
    exact separate_embedding (.inr rfl)
  refine ⟨done, record, by decide, hrun, hseparate, ?_, by decide +kernel, ?_⟩
  · rw [hprocessed]
    decide
  · rw [htree]
    decide

end Splice.Runner
