import Splice.Config.Basic
import Splice.Failure
import Splice.Glob.Basic
import Splice.Mustache.Load
import Splice.Placeholder

/-!
# Expanding documents

A document is expanded in two passes: its placeholders are replaced, and then its include
directives, one after the other, by the expanded contents of the files they name. After each
directive the document is searched from its beginning again, so that a directive may be completed by
what was included.

* `Expand` — computations that warn, may fail, and may run out of fuel;
* `Expansion.substitute` — the first pass;
* `Expansion.expandIncludes` — the second; and
* `Expansion.expandDocument` — both, for a document that is read from a file.

Fuel bounds the number of directives that are replaced one after the other or within each other.
-/

namespace Splice

/-! ## Computations that warn and fail -/

/-- The outcome of an expansion: none if the fuel did not suffice, otherwise the warnings in their
order and a result or a failure. -/
def Expand (α : Type) : Type := Option (List Warning × Except Failure α)

namespace Expand

variable {α β : Type}

/-- A result without warnings. -/
def done (a : α) : Expand α := some ([], .ok a)

/-- A failure. -/
def fail (failure : Failure) : Expand α := some ([], .error failure)

/-- No result, because the fuel is used up. -/
def outOfFuel : Expand α := none

/-- One warning. -/
def warn (warning : Warning) : Expand Unit := some ([warning], .ok ())

/-- Goes on with a result. The warnings of both parts are kept, also if one of them fails. -/
def andThen (x : Expand α) (f : α → Expand β) : Expand β :=
  match x with
  | none => none
  | some (warnings, .error failure) => some (warnings, .error failure)
  | some (warnings, .ok a) =>
      match f a with
      | none => none
      | some (more, result) => some (warnings ++ more, result)

instance : Monad Expand where
  pure := done
  bind := andThen

/-- A result or a failure without warnings. -/
def ofExcept (x : Except Failure α) : Expand α := some ([], x)

end Expand

namespace Expansion

/-! ## Placeholders -/

/-- Expanding takes the texts of all global variables, which have to be shown once before it
begins. -/
def prepare (config : Config) : Except Failure Unit :=
  if Placeholder.areShowable config.globals then .ok () else .error .unshowable

/-- What rendering needs: embedded templates are files of the tree. -/
def environment (config : Config) (tree : Tree) : Mustache.Environment Failure where
  escaping := !config.alwaysUnescaped
  load key := (Mustache.loadEmbedded tree key).mapError .file
  malformed := .template

/-- The document as a template for its local variables, if documents are templates (`render`). -/
def renderTemplate (config : Config) (tree : Tree) (fuel : Nat) (locals : Bindings Json)
    (document : Text) : Expand Text :=
  if config.useMustache then
    match Mustache.render (environment config tree) fuel locals document with
    | none => .outOfFuel
    | some outcome => .ofExcept outcome
  else .done document

/-- The document with its placeholders replaced (`substitute`): template tags for local variables
first, then the placeholders of local and of global variables. -/
def substitute (config : Config) (tree : Tree) (fuel : Nat) (locals : Bindings Json)
    (document : Text) : Expand Text := do
  let globals := Placeholder.globalTexts config.globals
  let texts := Placeholder.localTexts config.expandValues globals locals
  let document ← renderTemplate config tree fuel locals document
  return Placeholder.replaceAll config.delimiters globals
    (Placeholder.replaceAll config.delimiters texts document)

/-! ## Paths and variables -/

/-- The absolute path or pattern of an include (`resolve_path`). A relative one starts in the
directory for includes or, if there is none, in that of the including file. -/
def resolvePath (config : Config) (cwd path directory : Text) : Expand Text := do
  if Path.isAbsolute path then
    if !config.includesDir.isEmpty then Expand.warn (.absoluteInclude path)
    return Path.absolute cwd path
  else
    let base := if config.includesDir.isEmpty then directory else config.includesDir
    return Path.absolute cwd (Path.join base path)

/-- The name of the variable that leads to the root of the documents. -/
def docrootName : Text := "docroot"

/-- The value of that variable for a file (`compute_docroot`). -/
def docrootOf (config : Config) (tree : Tree) (file : Text) : Json :=
  .str (Path.toDocroot tree.cwd file config.docroot)

/-- The variables of an include in `expand_includes`: those of its directive, and the way to the
root of the documents unless the directive binds that name itself. -/
def localsOf (config : Config) (tree : Tree) (path : Text) (bindings : Bindings Json) :
    Bindings Json :=
  if (Bindings.get? docrootName bindings).isSome then bindings
  else Bindings.set docrootName (docrootOf config tree path) bindings

/-- The expanded text and the variables after the hook, if there is one, has seen them in
`_include_contents`. -/
def applyHook (config : Config) (text : Text) (locals : Bindings Json) (file : Text) :
    Expand (Text × Bindings Json) :=
  match config.hook with
  | none => .done (text, locals)
  | some hook => .ofExcept ((hook.apply text locals file).mapError .hook)

/-! ## Includes -/

/-- Adds the files of an include, one after the other, to a text (the loop of `_include_contents`):
a line feed follows each but the last, and with each file the whole text is expanded again. `expand`
expands the directives of a text that stands in a directory. -/
def addFiles [Codecs] (config : Config) (tree : Tree) (fuel : Nat)
    (expand : Text → Text → Expand Text) :
    (files : List Text) → Text → Bindings Json → Expand Text
  | [], text, _ => .done text
  | file :: files, text, locals => do
      let contents ← Expand.ofExcept ((File.read tree file config.encoding).mapError .file)
      let text := text ++ contents ++ (if files.isEmpty then [] else ['\n'])
      let text ← substitute config tree fuel locals text
      let text ← expand text (Path.parent file)
      let (text, locals) ← applyHook config text locals file
      addFiles config tree fuel expand files text locals

/-- The expanded contents of the files that an absolute path or pattern finds (`_include_contents`).
`depth` counts the includes around them and this one. -/
def includeContents [Codecs] (config : Config) (tree : Tree) (fuel : Nat)
    (expand : Text → Text → Expand Text) (path : Text) (locals : Bindings Json) (depth : Nat) :
    Expand Text := do
  if config.maxDepth < depth then Expand.fail (.tooDeep path config.maxDepth)
  else if Glob.refuses none path then Expand.fail (.file .nullInPath)
  else
    let files := Glob.expandFiles tree none path
    if files.isEmpty then Expand.warn (.includeNotFound path)
    addFiles config tree fuel expand files [] locals

/-- The expanded contents of the files that a directive names (a round of `expand_includes`). The
directive stands in a document of `directory` with `depth` includes around it. -/
def includeDirective [Codecs] (config : Config) (tree : Tree) (fuel : Nat)
    (expand : Text → Text → Expand Text) (directory : Text) (depth : Nat) (directive : Directive) :
    Expand Text := do
  let bindings ← Expand.ofExcept (directive.bindings.mapError .directive)
  let path ← resolvePath config tree.cwd directive.path directory
  includeContents config tree fuel expand path (localsOf config tree path bindings) (depth + 1)

/-- The document, which stands in `directory`, with its include directives replaced
(`expand_includes`). `depth` counts the includes around it. -/
def expandIncludes [Codecs] (config : Config) (tree : Tree) :
    (fuel : Nat) → (directory : Text) → (depth : Nat) → Text → Expand Text
  | 0, _, _, _ => .outOfFuel
  | fuel + 1, directory, depth, document =>
      match Directive.find? config.delimiters document with
      | none => .done document
      | some directive => do
          let expand := fun text inner => expandIncludes config tree fuel inner (depth + 1) text
          let contents ← includeDirective config tree fuel expand directory depth directive
          expandIncludes config tree fuel directory depth (directive.splice contents)

/-- The document that is read from `file`, fully expanded (`expand_document`). -/
def expandDocument [Codecs] (config : Config) (tree : Tree) (fuel : Nat) (document file : Text) :
    Expand Text := do
  let document ← substitute config tree fuel [(docrootName, docrootOf config tree file)] document
  expandIncludes config tree fuel (Path.parent file) 0 document

end Expansion

end Splice
