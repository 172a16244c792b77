import Splice.Mustache.Render
import Splice.Tree.File

/-!
# Embedded templates

A template embeds another by the name of a file in the working directory, without its ending.
-/

namespace Splice.Mustache

/-- The path of an embedded template. -/
def embeddedPath (key : Text) : Text := Path.join ['.'] (key ++ ".mustache")

/-- The text of an embedded template; one that is missing is empty. -/
def loadEmbedded (tree : Tree) (key : Text) : Except File.Error Text :=
  let path := embeddedPath key
  if tree.has path then File.readUtf8 tree path else .ok []

end Splice.Mustache
