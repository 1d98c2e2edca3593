/-!
# The alphabet of source text

Letters are the ASCII letters and the Latin-1 letters; no character beyond
Latin-1 is a letter. Blanks are the control characters up to the space and the
band from U+0080 to U+00A0. Text is every character but the two noncharacters
U+FFFE and U+FFFF.
-/

namespace ErlangLexer

/-- White space, the line break included. -/
def isBlank (c : Char) : Bool :=
  c ≤ ' ' || ('\u0080' ≤ c && c ≤ '\u00a0')

/-- White space within a line. -/
def isInlineBlank (c : Char) : Bool :=
  c != '\n' && isBlank c

/-- The letters `A` to `Z` and the Latin-1 capitals; U+00D7 is the multiplication sign. -/
def isUpper (c : Char) : Bool :=
  ('A' ≤ c && c ≤ 'Z') || ('\u00c0' ≤ c && c ≤ '\u00de' && c != '\u00d7')

/-- The letters `a` to `z` and the Latin-1 small letters; U+00F7 is the division sign. -/
def isLower (c : Char) : Bool :=
  ('a' ≤ c && c ≤ 'z') || ('\u00df' ≤ c && c ≤ '\u00ff' && c != '\u00f7')

def isLetter (c : Char) : Bool :=
  isLower c || isUpper c

/-- The digits `0` to `9`. -/
def isDigit (c : Char) : Bool :=
  '0' ≤ c && c ≤ '9'

/-- The character starts a variable. -/
def startsVariable (c : Char) : Bool :=
  c == '_' || isUpper c

/-- The character continues an atom, a variable or the name of a sigil. -/
def continuesName (c : Char) : Bool :=
  isLetter c || isDigit c || c == '_' || c == '@'

/-- The number is a code point at all. -/
def isCodePoint (code : Nat) : Bool :=
  code < 0x110000

/-- The code point may stand in source text: neither a surrogate nor one of the
two noncharacters. -/
def isTextCode (code : Nat) : Bool :=
  code ≤ 0xd7ff || (0xe000 ≤ code && code ≤ 0xfffd) || (0x10000 ≤ code && code ≤ 0x10ffff)

/-- The character may stand in source text. -/
def isText (c : Char) : Bool :=
  isTextCode c.toNat

end ErlangLexer
