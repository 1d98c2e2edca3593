import ErlangLexer.Text.Unprintable

/-!
# Quoted text

Text in double quotes on one line of printable characters: the quote, the
backslash and four controls have short escapes, every other character without a
glyph of its own is written by its code point.
-/

namespace ErlangLexer.Text

/-- A code point in lowercase hexadecimal, without leading zeros. -/
def hex (code : Nat) : String :=
  String.ofList (Nat.toDigits 16 code)

/-- One character as it stands within the quotes. -/
def quoteChar (c : Char) : String :=
  if c = '"' then "\\\""
  else if c = '\\' then "\\\\"
  else if c = '\n' then "\\n"
  else if c = '\r' then "\\r"
  else if c = '\t' then "\\t"
  else if c = '\x00' then "\\0"
  else if isPrintable c then c.toString
  else "\\u\x7b" ++ hex c.toNat ++ "\x7d"

/-- The text in double quotes. -/
def quote (text : String) : String :=
  "\"" ++ String.join (text.toList.map quoteChar) ++ "\""

end ErlangLexer.Text
