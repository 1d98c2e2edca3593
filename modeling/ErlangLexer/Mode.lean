import ErlangLexer.Alphabet
import ErlangLexer.LexicalError
import ErlangLexer.Token

/-!
# Modes and moves

Between two characters a scan is in a mode: between tokens, or inside a literal of
unbounded length with all that has been read of it. A move is what a scan does next
with the text in front of it. Everything short, an operator, an escape or a run of
quotes, is read by one move, so a text that breaks off within it is left alone
until more of it is there.
-/

namespace ErlangLexer

/-- A piece of source text and where it starts. -/
structure Lexeme where
  start : Location
  source : String
  deriving DecidableEq

namespace Lexeme

/-- The first `width` characters of a text that starts at a location. -/
def front (start : Location) (text : List Char) (width : Nat) : Lexeme :=
  ⟨start, String.ofList (text.take width)⟩

/-- The lexeme with the first `width` characters of the text behind it. -/
def extend (lexeme : Lexeme) (text : List Char) (width : Nat) : Lexeme :=
  { lexeme with source := (text.take width).foldl String.push lexeme.source }

end Lexeme

/-- What a run of name characters is. -/
inductive NameRole where
  | atom
  | variable
  | sigilPrefix
  /-- The name behind a sigil string. When it is empty, a string in double quotes must
  not be followed by another. -/
  | sigilSuffix (quoted : Bool)
  deriving DecidableEq

/-- A name being read. -/
structure NameDraft where
  start : Location
  role : NameRole
  name : String
  deriving DecidableEq

/-- The part of a number being read, with the value of its digits so far. A value that
has no digit yet is absent. -/
inductive NumberPart where
  /-- Decimal digits, which may yet be a base or the whole part of a float. -/
  | whole (value : Nat)
  /-- The digits behind `Base#`. -/
  | based (base : Nat) (value : Option Nat)
  /-- The digits behind the point; `places` of the digits of `mantissa` are fraction. -/
  | fraction (mantissa places : Nat)
  /-- Directly behind `e`. -/
  | sign (mantissa places : Nat)
  | exponent (mantissa places : Nat) (negative : Bool) (value : Option Nat)
  deriving DecidableEq

/-- A number being read. -/
structure NumberDraft where
  lexeme : Lexeme
  part : NumberPart
  deriving DecidableEq

/-- The tilde of a sigil, and whether backslashes in its string are plain text. -/
structure Sigil where
  start : Location
  verbatim : Bool
  deriving DecidableEq

/-- What a quoted text is the text of. -/
inductive Quotation where
  | atom
  | string
  | sigil (verbatim : Bool)
  deriving DecidableEq

/-- A text between delimiters being read. -/
structure QuotedDraft where
  lexeme : Lexeme
  quotation : Quotation
  close : Char
  value : String
  deriving DecidableEq

/-- A whole line of content with its line break, and which line of the source it is. -/
structure ContentLine where
  line : Int32
  text : String
  deriving DecidableEq

/-- The content of a triple-quoted string: whole lines, and the line being read. -/
structure TripleQuotedBody where
  lines : Array ContentLine
  /-- Which line of the source is being read. -/
  line : Int32
  current : String
  /-- The line being read is nothing but blanks so far. -/
  blank : Bool
  blank_eq : blank = current.toList.all isInlineBlank
  deriving DecidableEq

/-- A triple-quoted string being read. It has a body once its opening line has ended. -/
structure TripleQuotedDraft where
  lexeme : Lexeme
  quotes : Nat
  sigil : Option Sigil
  opening : String
  body : Option TripleQuotedBody
  deriving DecidableEq

inductive Mode where
  | between
  | comment
  | name (draft : NameDraft)
  | number (draft : NumberDraft)
  | quoted (draft : QuotedDraft)
  /-- Directly behind a string, which no other string may follow. -/
  | afterString
  /-- Behind the name of a sigil, where its opening delimiter is due. -/
  | sigil (sigil : Sigil)
  | tripleQuoted (draft : TripleQuotedDraft)
  deriving DecidableEq

namespace Mode

/-- The name of a mode for callers that show where a scan stopped. -/
def label : Mode → String
  | .between => "dispatch"
  | .comment => "comment"
  | .name _ => "name"
  | .number _ => "number"
  | .quoted _ => "quoted"
  | .afterString => "after_string"
  | .sigil _ => "sigil_delimiter"
  | .tripleQuoted _ => "triple_quoted"

/-- How many moves without a character may follow: a name is followed by a mode that may
in turn hand over to `between`, and there every move reads a character. -/
def rank : Mode → Nat
  | .between => 0
  | .name _ => 2
  | _ => 1

theorem rank_le_two (m : Mode) : m.rank ≤ 2 := by
  cases m <;> simp [rank]

end Mode

/-- What a scan does next. -/
inductive Move where
  /-- Leave the text alone until there is more of it. -/
  | wait
  /-- The text is all read and no more will come. -/
  | finish
  /-- Read some characters that end no token. -/
  | read (width : Nat) (next : Mode)
  /-- Read the last characters of a token. -/
  | emit (width : Nat) (kind : Kind) (lexeme : Lexeme) (next : Mode)
  /-- Stop with an error behind the characters that show it. -/
  | fail (width : Nat) (error : LexicalError)
  /-- Stop with an error whose text ends elsewhere than the characters read. -/
  | reject (width : Nat) (error : LexicalError) (finish : Location)
  deriving DecidableEq

namespace Move

/-- A move fits the text in front of a scan. It waits only while more may come and
finishes only at the end. Otherwise it reads no more than there is, and lowers a
measure in which characters count for more than modes. -/
def Fits (text : List Char) (ended : Bool) (mode : Mode) : Move → Prop
  | .wait => ended = false
  | .finish => text = [] ∧ ended = true
  | .read width next | .emit width _ _ next =>
    width ≤ text.length ∧ next.rank < 3 * width + mode.rank
  | .fail width _ | .reject width _ _ => width ≤ text.length ∧ 0 < 3 * width + mode.rank

end Move

end ErlangLexer
