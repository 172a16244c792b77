import Splice.Encoding.Codec
import Splice.Tree.Change

/-!
# Reading and writing documents

Line ends of documents are kept as they are.

* `File.Error` — why a document cannot be read or written;
* `File.read` — the text of a file in the encoding with a name;
* `File.readUtf8` — the text of a file in UTF-8;
* `File.readLines` — the text of a file in UTF-8, with line feeds as its only line ends; and
* `File.write` — writes a text, making the directories on the way. A text that cannot be encoded
  leaves an empty file.
-/

namespace Splice

namespace File

/-- Why a document cannot be read or written. -/
inductive Error where
  /-- The path leads nowhere, or to the wrong kind of thing. -/
  | tree (fault : Tree.Fault) (path : Text)
  /-- The path holds the null character. -/
  | nullInPath
  /-- The path of a directory to be made holds the null character. -/
  | nullInDirectory
  /-- The name of an encoding holds the null character. -/
  | nullInEncoding
  /-- The text or the bytes do not fit the encoding. -/
  | encoding (error : Encoding.Error)
deriving DecidableEq, Repr

/-- The wording of a fault in a tree. -/
def faultMessage : Tree.Fault → Text
  | .missing => "[Errno 2] No such file or directory: "
  | .notDirectory => "[Errno 20] Not a directory: "
  | .isDirectory => "[Errno 21] Is a directory: "
  | .taken => "[Errno 17] File exists: "

/-- The wording of an error. -/
def Error.message : Error → Text
  | .tree fault path => faultMessage fault ++ Text.quote path
  | .nullInPath => "embedded null byte"
  | .nullInDirectory => "mkdir: embedded null character in path"
  | .nullInEncoding => "embedded null character"
  | .encoding error => error.message

/-- The bytes of the file to which a path leads. -/
def readBytes (tree : Tree) (path : Text) : Except Error Bytes :=
  if '\x00' ∈ path then .error .nullInPath
  else
    match tree.locate path with
    | .error fault => .error (.tree fault path)
    | .ok place =>
        match tree.entry? place with
        | some (.file bytes) => .ok bytes
        | some .directory => .error (.tree .isDirectory path)
        | none => .error (.tree .missing path)

/-- The name of an encoding is refused for the null character before any file is looked at. -/
def checkName (encoding : Text) : Except Error Unit :=
  if '\x00' ∈ encoding then .error .nullInEncoding else .ok ()

/-- The encoding with this name. -/
def encodingNamed [Codecs] (name : Text) : Except Error Encoding.Codec :=
  (Encoding.codecOf name).mapError .encoding

/-- The text of the file to which a path leads (`read`). -/
def read [Codecs] (tree : Tree) (path encoding : Text) : Except Error Text := do
  checkName encoding
  let bytes ← readBytes tree path
  let codec ← encodingNamed encoding
  (codec.decode bytes).mapError .encoding

/-- The text of the file to which a path leads, in UTF-8. -/
def readUtf8 (tree : Tree) (path : Text) : Except Error Text := do
  let bytes ← readBytes tree path
  (Encoding.decodeUtf8 bytes).mapError .encoding

/-- The text with a line feed in place of each carriage return, and of each pair of the two. -/
def unifyBreaks : Text → Text
  | [] => []
  | '\r' :: '\n' :: text => '\n' :: unifyBreaks text
  | c :: text => (if c = '\r' then '\n' else c) :: unifyBreaks text

/-- The text of a file in UTF-8, with line feeds as its only line ends. -/
def readLines (tree : Tree) (path : Text) : Except Error Text := do
  let bytes ← readBytes tree path
  ((Encoding.decodeUtf8 bytes).map unifyBreaks).mapError .encoding

/-- The bytes of a text in the encoding with this name. -/
def encode [Codecs] (encoding text : Text) : Except Error Bytes := do
  let codec ← encodingNamed encoding
  (codec.encode text).mapError .encoding

/-- Writes a text to the file to which a path leads (`write`). -/
def write [Codecs] (tree : Tree) (path text encoding : Text) : Tree × Except Error Unit :=
  let route := Tree.Route.ofPath path
  if '\x00' ∈ route.up.toPath then (tree, .error .nullInDirectory)
  else
    match tree.makeDirectories route.root route.up.reversed with
    | (tree, .error (fault, path)) => (tree, .error (.tree fault path))
    | (tree, .ok ()) =>
        match checkName encoding with
        | .error e => (tree, .error e)
        | .ok () =>
            if '\x00' ∈ route.toPath then (tree, .error .nullInPath)
            else
              match tree.placeForWriting route with
              | .error fault => (tree, .error (.tree fault route.toPath))
              | .ok place =>
                  -- The file is opened before the text is encoded: a failure leaves it empty.
                  match encode encoding text with
                  | .ok bytes => (tree.put place (.file bytes), .ok ())
                  | .error e => (tree.put place (.file []), .error e)

end File

end Splice
