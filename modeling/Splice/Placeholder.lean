import Splice.Delimiters
import Splice.Text.Reference
import Splice.Text.Segments
import Splice.Value.Show

/-!
# Placeholders

A placeholder is the name of a variable between delimiters. Before a variable is inserted its value
becomes a text.

* `Placeholder.globalTexts` — the texts of the variables of a whole run;
* `Placeholder.localTexts` — the texts of the variables of one document, in which references to
  other variables may be expanded; and
* `Placeholder.replaceAll` — a document with the placeholders of all given variables replaced.
-/

namespace Splice.Placeholder

/-- The placeholder of a variable. -/
def token (d : Delimiters) (name : Text) : Text := d.opener ++ name ++ d.closer

/-- Can the values of variables be shown? -/
def areShowable (bindings : Bindings Value) : Bool :=
  bindings.all fun (_, value) => value.isShowable

/-- The texts of global variables (`set_globals`): a text stands for itself. All of them can be
shown. -/
def globalTexts (bindings : Bindings Value) : Bindings Text :=
  bindings.map fun (name, value) =>
    (name, match value.toText? with
      | some text => text
      | none => value.toText)

/-- The text of a local variable (`_normalize_value`): references in a text are expanded if `expand`
says so. -/
def localText (expand : Bool) (context : Bindings Text) : Json → Text
  | .str text => if expand then Text.expandReferences context text else text
  | value => value.write

/-- The texts of local variables (`normalize`). -/
def localTexts (expand : Bool) (context : Bindings Text) (bindings : Bindings Json) :
    Bindings Text :=
  bindings.map fun (name, value) => (name, localText expand context value)

/-- The document with the placeholders of the variables replaced, one variable after the other
(`replace_all`). What is inserted for one variable is searched for those that follow. -/
def replaceAll (d : Delimiters) (texts : Bindings Text) (document : Text) : Text :=
  texts.foldl (fun document (name, text) => Text.replace (token d name) text document) document

end Splice.Placeholder
