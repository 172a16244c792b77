import Splice.Proofs.Expansion.Asking
import Splice.Proofs.Mustache.Calling
import Splice.Proofs.Tree.Making

/-!
# Replacing placeholders without a tree

Placeholders are replaced by values of variables, and so without any tree; but a template may call
for others, and these are files.

* `Expansion.called` — the keys of the templates that a document calls for;
* `Tree.exists_directories` — a tree with directories only, of which a path leads to one; and
* `Expansion.ignoresTrees_iff` — trees make no difference just if no path leads to what is called
  for.
-/

namespace Splice

open Mustache (embeddedPath loadEmbedded Rendered)

/-! ### Trees without files -/

namespace Tree

/-- There are directories only. -/
def Fileless (tree : Tree) : Prop := ∀ place bytes, tree.entry? place ≠ some (.file bytes)

/-- The tree in which there is nothing. -/
def bare : Tree := ⟨"/", []⟩

theorem closed_bare : bare.Closed := by decide

theorem fileless_bare : bare.Fileless := by
  intro place bytes hfile
  by_cases hplace : place = []
  · rw [hplace] at hfile
    cases hfile
  · cases mem_entries hplace hfile

/-- What is on the way that the pieces of a path lead is on the way that its names lead. -/
theorem onWay_names {start place : Place} {path : Text}
    (h : OnWay start (Text.pieces '/' path) place) :
    OnWay start (Path.names path) place := by
  obtain ⟨front, hfront, hplace⟩ := h
  exact ⟨_, hfront.filter _, by rw [walk_filter, hplace]⟩

/-- A path leads to a directory in some tree without files. -/
theorem exists_directories {path : Text} (hne : path ≠ []) (hnull : '\x00' ∉ path) :
    ∃ tree : Tree, tree.Closed ∧ tree.cwd = bare.cwd ∧ tree.Fileless ∧
      tree.find? path = some .directory := by
  have hsteps : ∀ name ∈ (Path.names path).reverse, Path.IsStep name :=
    fun name hname => Path.isStep_of_mem_names (List.mem_reverse.mp hname)
  have hnames : ∀ name ∈ (Path.names path).reverse, '\x00' ∉ name :=
    fun name hname hmem =>
      hnull (Text.mem_of_mem_pieces (List.mem_of_mem_filter (List.mem_reverse.mp hname)) hmem)
  have hfree (place : Place)
      (_ : OnWay (bare.startAt []) (Path.names path).reverse.reverse place) :=
    fileless_bare place
  -- In a tree without any file, nothing is in the way of the directories.
  obtain ⟨tree, hmake⟩ := exists_made closed_bare (.inl rfl) hsteps hnames hfree
  have hmade := made_of_makeDirectories closed_bare (.inl rfl) hsteps hnames hmake
  rw [List.reverse_reverse] at hmade
  have hstart : tree.startOf path = bare.startAt [] := by
    rw [startOf_of_cwd hmade.cwd]
    unfold startOf
    split <;> rfl
  have hlocate : tree.locate path = .ok (walk (bare.startAt []) (Text.pieces '/' path)) := by
    rw [locate, if_neg (by simp [hne, hnull]), hstart]
    exact follow_of_onWay fun place hplace => hmade.directory (onWay_names hplace)
  refine ⟨tree, hmade.closed, hmade.cwd, ?_, ?_⟩
  · intro place bytes hfile
    rw [hmade.entry?] at hfile
    split at hfile
    · cases hfile
    · exact fileless_bare place bytes hfile
  · rw [find?, hlocate]
    exact hmade.directory (onWay_names (onWay_end _ _))

end Tree

/-! ### Templates without a text -/

namespace Mustache

variable {key text : Text}

theorem null_mem_embeddedPath_iff : '\x00' ∈ embeddedPath key ↔ '\x00' ∈ key := by
  rw [embeddedPath, Path.join]
  split <;> simp

/-- No path leads to a template with a null character in its key. -/
theorem loadEmbedded_of_null (h : '\x00' ∈ key) (tree : Tree) : loadEmbedded tree key = .ok [] := by
  have hlocate : tree.locate (embeddedPath key) = .error .missing :=
    if_pos (.inr (null_mem_embeddedPath_iff.mpr h))
  simp [loadEmbedded, Tree.has, Tree.find?, hlocate]

/-- Without files, no template has a text of its own. -/
theorem eq_nil_of_loadEmbedded {tree : Tree} (hfiles : tree.Fileless)
    (h : loadEmbedded tree key = .ok text) : text = [] := by
  by_cases hthere : tree.has (embeddedPath key) = true
  · simp only [loadEmbedded, hthere, if_true] at h
    rw [← File.read_utf8] at h
    obtain ⟨place, bytes, -, hfile⟩ := Tree.isFile_iff.mp (File.isFile_of_read h)
    exact absurd hfile (hfiles place bytes)
  · simp only [loadEmbedded, hthere, Bool.false_eq_true, if_false] at h
    exact (Except.ok.inj h).symm

/-- A directory is no template. -/
theorem loadEmbedded_of_directory {tree : Tree}
    (h : tree.find? (embeddedPath key) = some .directory) :
    ∃ e, loadEmbedded tree key = .error e := by
  have hthere : tree.has (embeddedPath key) = true := by
    rw [Tree.has, h]
    rfl
  refine ⟨.tree .isDirectory (embeddedPath key), ?_⟩
  simp only [loadEmbedded, hthere, if_true]
  rw [File.readUtf8, File.readBytes_of_directory h]
  rfl

end Mustache

namespace Expansion

variable {config : Config} {tree : Tree} {locals : Bindings Json} {document key : Text} {fuel : Nat}

/-- The keys of the templates that a document calls for. -/
def called (config : Config) (locals : Bindings Json) (document : Text) : List Text :=
  if config.useMustache then
    match Mustache.parse document with
    | .ok nodes => Mustache.calledBy [.obj locals] nodes
    | .error _ => []
  else []

theorem called_eq {nodes : List Mustache.Node} (hmustache : config.useMustache = true)
    (hparse : Mustache.parse document = .ok nodes) :
    called config locals document = Mustache.calledBy [.obj locals] nodes := by
  simp [called, hmustache, hparse]

theorem exists_nodes_of_called (h : key ∈ called config locals document) :
    config.useMustache = true ∧ ∃ nodes, Mustache.parse document = .ok nodes ∧
      key ∈ Mustache.calledBy [.obj locals] nodes := by
  unfold called at h
  split at h
  · rename_i hmustache
    split at h
    · rename_i nodes hparse
      exact ⟨hmustache, nodes, hparse, h⟩
    · cases h
  · cases h

/-- The placeholders of the document are replaced in the same way with all trees. -/
def IgnoresTrees (config : Config) (locals : Bindings Json) (document : Text) : Prop :=
  ∀ tree other : Tree, tree.Closed → other.Closed → other.cwd = tree.cwd → ∀ outcome,
    Settles (fun fuel => substitute config tree fuel locals document) outcome →
      Settles (fun fuel => substitute config other fuel locals document) outcome

theorem environment_load :
    (environment config tree).load key = (loadEmbedded tree key).mapError .file :=
  rfl

theorem environment_load_ok_iff {text : Text} :
    (environment config tree).load key = .ok text ↔ loadEmbedded tree key = .ok text := by
  rw [environment_load]
  cases loadEmbedded tree key <;> simp [Except.mapError]

/-- A document has a text if its template can be rendered. -/
theorem substitute_ok_iff (hmustache : config.useMustache = true) :
    (∃ warnings text, substitute config tree fuel locals document = some (warnings, .ok text)) ↔
      (Mustache.render (environment config tree) fuel locals document).Succeeds := by
  have hparts : substitute config tree fuel locals document =
      (renderTemplate config tree fuel locals document).andThen fun document =>
        let globals := Placeholder.globalTexts config.globals
        let texts := Placeholder.localTexts config.expandValues globals locals
        .done (Placeholder.replaceAll config.delimiters globals
          (Placeholder.replaceAll config.delimiters texts document)) := rfl
  constructor
  · intro h
    obtain ⟨warnings, text, hsubstitute⟩ := h
    obtain ⟨first, rendered, -, hfirst, -, -⟩ :=
      Expand.ok_of_andThen (hparts.symm.trans hsubstitute)
    rw [renderTemplate, if_pos hmustache] at hfirst
    cases houtcome : Mustache.render (environment config tree) fuel locals document with
    | none =>
      rw [houtcome] at hfirst
      cases hfirst
    | some outcome =>
      rw [houtcome] at hfirst
      cases hfirst
      exact Rendered.succeeds_ok rendered
  · intro h
    obtain ⟨rendered, houtcome⟩ := h
    rw [hparts, renderTemplate, if_pos hmustache, houtcome]
    exact ⟨_, _, rfl⟩

/-- Without files, a template can be rendered just if those can be loaded that it calls for. -/
theorem render_succeeds_iff (hfiles : tree.Fileless) {nodes : List Mustache.Node}
    (hparse : Mustache.parse document = .ok nodes) :
    (Mustache.render (environment config tree) (fuel + 2) locals document).Succeeds ↔
      ∀ key ∈ Mustache.calledBy [.obj locals] nodes, ∃ text, loadEmbedded tree key = .ok text := by
  have hembed (scope : Mustache.Scope) (key text indent : Text)
      (hload : (environment config tree).load key = .ok text) :
      (Mustache.renderIn (environment config tree) (fuel + 1) scope
        (Mustache.indentLines indent text)).Succeeds := by
    rw [Mustache.eq_nil_of_loadEmbedded hfiles (environment_load_ok_iff.mp hload)]
    have hnil := Mustache.renderIn_nil (environment config tree) fuel scope
    exact ⟨[], hnil⟩
  rw [Mustache.render, Mustache.renderIn, hparse]
  simp only
  rw [Mustache.renderNodes_succeeds_iff hembed]
  simp only [environment_load_ok_iff]

/-- A document that ignores trees calls for no template to which a path leads. -/
theorem null_mem_of_ignoresTrees (h : IgnoresTrees config locals document)
    (hkey : key ∈ called config locals document) : '\x00' ∈ key := by
  obtain ⟨hmustache, nodes, hparse, hkey⟩ := exists_nodes_of_called hkey
  by_contra hnull
  -- Nothing can be loaded from an empty tree, and so all is rendered.
  have hbare : (Mustache.render (environment config Tree.bare) (0 + 2) locals document).Succeeds :=
    (render_succeeds_iff Tree.fileless_bare hparse).mpr fun other _ =>
      ⟨[], Mustache.loadEmbedded_eq_nil rfl other⟩
  obtain ⟨warnings, text, hsubstitute⟩ := (substitute_ok_iff hmustache).mpr hbare
  -- The path of the template leads to a directory of another tree.
  have hpath : '\x00' ∉ embeddedPath key :=
    fun hmem => hnull (Mustache.null_mem_embeddedPath_iff.mp hmem)
  have hne : embeddedPath key ≠ [] := by
    obtain ⟨lead, hlead⟩ := Mustache.exists_embeddedPath key
    rw [hlead]
    exact List.append_ne_nil_of_right_ne_nil _ (by decide)
  obtain ⟨tree, hclosed, hcwd, hfiles, hdirectory⟩ := Tree.exists_directories hne hpath
  obtain ⟨fuel, hsettles⟩ :=
    (h Tree.bare tree Tree.closed_bare hclosed hcwd _ ⟨_, hsubstitute⟩).eventually
      (stable_substitute config tree locals document)
  have hrender : (Mustache.render (environment config tree) (fuel + 2) locals document).Succeeds :=
    (substitute_ok_iff hmustache).mp ⟨_, _, hsettles (fuel + 2) (by omega)⟩
  obtain ⟨loaded, hload⟩ := (render_succeeds_iff hfiles hparse).mp hrender key hkey
  obtain ⟨e, herror⟩ := Mustache.loadEmbedded_of_directory hdirectory
  rw [hload] at herror
  cases herror

/-- Trees make no difference to a document that calls for no template to which a path leads. -/
theorem substitute_eq_of_null {other : Tree}
    (h : ∀ key ∈ called config locals document, '\x00' ∈ key) :
    substitute config other fuel locals document = substitute config tree fuel locals document := by
  refine substitute_congr fun key hkey => ?_
  obtain ⟨hmustache, nodes, hparse, hembeds⟩ := hkey
  rw [called_eq hmustache hparse] at h
  have hempty (other : Text) (hother : other ∈ Mustache.calledBy [.obj locals] nodes) :
      (environment config tree).load other = .ok [] :=
    environment_load_ok_iff.mpr (Mustache.loadEmbedded_of_null (h other hother) tree)
  have hnull := h key (Mustache.mem_calledBy_of_embeds hembeds hempty)
  rw [SameAnswer, Mustache.loadEmbedded_of_null hnull, Mustache.loadEmbedded_of_null hnull]

/-- The placeholders of a document are replaced in the same way with all trees just if it calls for
no template, unless no path leads to that: rendering comes to no tag that embeds one. -/
theorem ignoresTrees_iff (config : Config) (locals : Bindings Json) (document : Text) :
    IgnoresTrees config locals document ↔ ∀ key ∈ called config locals document, '\x00' ∈ key := by
  constructor
  · intro h key hkey
    exact null_mem_of_ignoresTrees h hkey
  · intro h tree other _ _ _ outcome hsettles
    obtain ⟨fuel, hsubstitute⟩ := hsettles
    exact ⟨fuel, (substitute_eq_of_null h).trans hsubstitute⟩

/-- A tree that holds a template. -/
def onePart : Tree := ⟨"/", [(["p.mustache"], .file [80])]⟩

/-- A document that embeds a template has another text with a tree that holds it. -/
theorem substitute_onePart :
    Tree.bare.Closed ∧ onePart.Closed ∧ onePart.cwd = Tree.bare.cwd ∧
      substitute {} Tree.bare 2 [] "\x7b\x7b> p\x7d\x7d" = .done [] ∧
      substitute {} onePart 2 [] "\x7b\x7b> p\x7d\x7d" = .done "P" := by
  refine ⟨Tree.closed_bare, by decide, rfl, ?_, ?_⟩
  · rfl
  · rfl

end Expansion

end Splice
