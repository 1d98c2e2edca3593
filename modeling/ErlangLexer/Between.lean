import ErlangLexer.Lexeme.CharLiteral
import ErlangLexer.Lexeme.Comment
import ErlangLexer.Lexeme.Number
import ErlangLexer.Lexeme.Punctuation
import ErlangLexer.Lexeme.Sigil

/-!
# Between tokens

Blanks are passed over, and the first character of a lexeme decides which one it is.
Every move reads at least one character here (`Between.move_fits`), which is what
ends a scan.
-/

namespace ErlangLexer.Between

/-- Between tokens. `checking` holds within a check annotation. -/
def move (options : Options) (checking : Bool) (here : Location) (text : List Char)
    (ended : Bool) : Move :=
  match text with
  | [] => if ended then .finish else .wait
  | c :: rest =>
    if isBlank c then .read 1 .between
    else if isDigit c then .read 1 (.number (.ofDigit here c))
    else if isLower c then .read 1 (.name ⟨here, .atom, c.toString⟩)
    else if startsVariable c then .read 1 (.name ⟨here, .variable, c.toString⟩)
    else if c = '"' then QuoteRun.move here none text ended
    else if c = '\'' then QuotedDraft.openMove here .atom c text
    else if c = '$' then CharLiteral.move here rest ended
    else if c = '~' then .read 1 (.name ⟨here, .sigilPrefix, ""⟩)
    else if c = '%' then Comment.openMove options checking here text ended
    else Punctuation.move checking here c rest ended

theorem move_fits (options : Options) (checking : Bool) (here : Location)
    (text : List Char) (ended : Bool) :
    (move options checking here text ended).Fits text ended .between := by
  have first (c : Char) (rest : List Char) (mode : Mode) :
      (Move.read 1 mode).Fits (c :: rest) ended .between := by
    have := mode.rank_le_two
    exact ⟨by simp, by omega⟩
  simp only [move]
  repeat' split
  · simp_all [Move.Fits]
  · simp_all [Move.Fits]
  · exact first _ _ _
  · exact first _ _ _
  · exact first _ _ _
  · exact first _ _ _
  · subst_vars
    exact QuoteRun.move_fits here none _ ended .between
  · exact first _ _ _
  · subst_vars
    exact CharLiteral.move_fits here _ ended
  · exact first _ _ _
  · exact Comment.openMove_fits options checking here _ _ ended
  · exact Punctuation.move_fits checking here _ _ ended

end ErlangLexer.Between
