import ErlangLexer.Lexeme.Quoted
import ErlangLexer.Lexeme.TripleQuoted

/-!
# Runs of quotes and the delimiters of sigils

One double quote opens a string, two are an empty string, and three or more open a
triple-quoted string; a run that reaches the end of the text may still grow. A sigil
string may have other delimiters, in pairs or the same on both sides.
-/

namespace ErlangLexer

/-- The closing delimiter for an opening one. U+0060 is the grave accent. -/
def closing? (c : Char) : Option Char :=
  match c with
  | '(' => some ')'
  | '[' => some ']'
  | '\x7b' => some '\x7d'
  | '<' => some '>'
  | '/' | '|' | '#' | '\x60' | '\'' | '"' => some c
  | _ => none

namespace QuoteRun

/-- The mode behind an empty string. -/
def afterEmpty (here : Location) : Option Sigil → Mode
  | some _ => .name ⟨here, .sigilSuffix true, ""⟩
  | none => .afterString

/-- What a text opened by a double quote is the text of. -/
def quotation : Option Sigil → Quotation
  | some sigil => .sigil sigil.verbatim
  | none => .string

/-- At a double quote that opens a string. -/
def move (here : Location) (sigil : Option Sigil) (text : List Char) (ended : Bool) : Move :=
  let run := runLength '"' text
  if !ended && isRun '"' text then .wait
  else if run = 1 then QuotedDraft.openMove here (quotation sigil) '"' text
  else if run = 2 then
    .emit 2 (.string "") (.front here text 2) (afterEmpty (here.walk (text.take 2)) sigil)
  else TripleQuotedDraft.openMove here sigil text run

theorem move_fits (here : Location) (sigil : Option Sigil) (text : List Char) (ended : Bool)
    (mode : Mode) :
    (move here sigil ('"' :: text) ended).Fits ('"' :: text) ended mode := by
  have positive := runLength_pos '"' text
  have short := runLength_le '"' ('"' :: text)
  simp only [move]
  repeat' split
  · simp_all [Move.Fits]
  · exact ⟨by simp, by simp only [Mode.rank]; omega⟩
  · have := (afterEmpty (here.walk (('"' :: text).take 2)) sigil).rank_le_two
    exact ⟨by omega, by omega⟩
  · exact ⟨short, by simp only [Mode.rank]; omega⟩

end QuoteRun

namespace Sigil

/-- Behind the name of a sigil. -/
def move (sigil : Sigil) (here : Location) (text : List Char) (ended : Bool) : Move :=
  match text with
  | [] => if ended then .fail 0 ⟨sigil.start, .unterminatedSigil ""⟩ else .wait
  | c :: _ =>
    if c = '"' then QuoteRun.move here (some sigil) text ended
    else
      match closing? c with
      | some close => QuotedDraft.openMove here (.sigil sigil.verbatim) close text
      | none => .fail 1 (.illegal here .string)

theorem move_fits (sigil : Sigil) (here : Location) (text : List Char) (ended : Bool) :
    (sigil.move here text ended).Fits text ended (.sigil sigil) := by
  simp only [move]
  repeat' split
  · simp [Move.Fits, Mode.rank]
  · simp_all [Move.Fits]
  · subst_vars
    exact QuoteRun.move_fits here _ _ ended _
  · simp [QuotedDraft.openMove, Move.Fits, Mode.rank]
  · simp [Move.Fits, Mode.rank]

end Sigil

end ErlangLexer
