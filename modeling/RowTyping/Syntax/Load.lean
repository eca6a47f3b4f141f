import RowTyping.Json.Reader
import RowTyping.Syntax.Decode

/-!
# Modules from text

A module is stored as JSON text that nests no deeper than `Module.maxNesting`.
-/

namespace RowTyping

/-- Read a module from its text. -/
def Module.load? (source : String) : Option Module :=
  (Json.parse? source).bind (Module.ofJson? Module.maxNesting)

end RowTyping
