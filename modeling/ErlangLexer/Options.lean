import ErlangLexer.Reserved

/-!
# Options of a scan

A scan keeps the options it was started with until its form ends.
-/

namespace ErlangLexer

structure Options where
  /-- Which unquoted atoms are reserved words. -/
  reserved : ReservedWords
  /-- Tokens carry the source text they were read from. -/
  captureText : Bool
  /-- Check comments are tokens and not comments. -/
  checkComments : Bool

instance : Inhabited Options := ⟨⟨default, false, false⟩⟩

end ErlangLexer
