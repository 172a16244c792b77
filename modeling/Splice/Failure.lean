import Splice.Config.Hook
import Splice.Directive
import Splice.Mustache.Template
import Splice.Tree.File

/-!
# Failures

What ends the expansion of a document.

* `Failure` — the causes; and
* `Warning` — what is reported without ending anything.
-/

namespace Splice

/-- Why a document cannot be expanded. -/
inductive Failure where
  /-- The variables of a directive cannot be read. -/
  | directive (error : Directive.Error)
  /-- Includes nest too deep; the files of `path` are beyond the bound. -/
  | tooDeep (path : Text) (bound : Int)
  /-- A file cannot be read or written. -/
  | file (error : File.Error)
  /-- A text is no template. -/
  | template (error : Mustache.Error)
  /-- The hook failed. -/
  | hook (failure : Hook.Failure)
  /-- An integer has too many digits to be shown. -/
  | unshowable
deriving DecidableEq, Repr

/-- The wording of a failure. -/
def Failure.message : Failure → Text
  | .directive error => error.message
  | .tooDeep path bound =>
      "Include depth exceeded " ++ Text.ofInt bound ++ " while including " ++ path
        ++ " (circular include?)"
  | .file error => error.message
  | .template error => error.message
  | .hook failure => failure.message
  | .unshowable => Json.unshowableMessage

/-- What is reported without ending anything. -/
inductive Warning where
  /-- A directive names no existing file. -/
  | includeNotFound (path : Text)
  /-- The directory for includes has no effect on an absolute path. -/
  | absoluteInclude (path : Text)
  /-- A source pattern finds nothing. -/
  | sourceNotFound (pattern : Text)
  /-- A source pattern finds something that is no file. -/
  | notAFile (path : Text)
deriving DecidableEq, Repr

/-- The wording of a warning. -/
def Warning.message : Warning → Text
  | .includeNotFound path => "Include file(s) not found: " ++ path
  | .absoluteInclude path =>
      "includes_dir works only with relative paths. Could not apply includes_dir to " ++ path
  | .sourceNotFound pattern => "Source file(s) not found: " ++ pattern
  | .notAFile path => "Ignoring non file matching glob: " ++ path

end Splice
