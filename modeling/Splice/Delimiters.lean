import Splice.Text.Basic

/-!
# Delimiters

The texts that open and close a placeholder or a directive. Both may be empty.
-/

namespace Splice

/-- What stands before and behind a placeholder. -/
structure Delimiters where
  /-- The text that opens a placeholder. -/
  opener : Text := "@@"
  /-- The text that closes a placeholder. -/
  closer : Text := ""
deriving DecidableEq, Repr

end Splice
