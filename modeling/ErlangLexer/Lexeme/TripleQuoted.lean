import ErlangLexer.Lexeme.Layout
import ErlangLexer.Mode

/-!
# Triple-quoted strings

Three or more double quotes open a string that ends at the first line with nothing
but blanks before exactly as many quotes. Runs of another length, and runs behind
other text on their line, are content. A run that reaches the end of the text may
still grow.
-/

namespace ErlangLexer

namespace TripleQuotedBody

/-- A body with nothing in it, at the beginning of a line. -/
def empty (line : Int32) : TripleQuotedBody := ⟨#[], line, "", true, rfl⟩

/-- The body with one more character. -/
def push (body : TripleQuotedBody) (c : Char) : TripleQuotedBody :=
  if c = '\n' then
    { empty (Location.lineBelow body.line) with
      lines := body.lines.push ⟨body.line, body.current.push c⟩ }
  else ⟨body.lines, body.line, body.current.push c, body.blank && isInlineBlank c, by
    simp [body.blank_eq]⟩

/-- The text of the body so far. -/
def content (body : TripleQuotedBody) : List Char :=
  (body.lines.toList.map (·.text.toList)).flatten ++ body.current.toList

end TripleQuotedBody

namespace TripleQuotedDraft

/-- A string whose opening run of quotes is in front. -/
def openMove (here : Location) (sigil : Option Sigil) (text : List Char) (quotes : Nat) : Move :=
  .read quotes (.tripleQuoted ⟨.front here text quotes, quotes, sigil, "", none⟩)

/-- Backslashes are plain text: always, but in the sigils that let them escape. -/
def isVerbatim (draft : TripleQuotedDraft) : Bool :=
  draft.sigil.all (·.verbatim)

/-- The literal with one more character. -/
def push (draft : TripleQuotedDraft) (c : Char) : TripleQuotedDraft :=
  let draft := { draft with lexeme := ⟨draft.lexeme.start, draft.lexeme.source.push c⟩ }
  match draft.body with
  | some body => { draft with body := some (body.push c) }
  | none =>
    if c = '\n' then
      { draft with body := some (.empty (Location.lineBelow draft.lexeme.start.line)) }
    else { draft with opening := draft.opening.push c }

/-- The literal with the first characters of a text. -/
def pushFront (draft : TripleQuotedDraft) (text : List Char) (width : Nat) : TripleQuotedDraft :=
  (text.take width).foldl push draft

/-- A run of quotes at this point may close the string. -/
def mayClose (draft : TripleQuotedDraft) : Bool :=
  draft.body.any (·.blank)

/-- The text ends within the literal. -/
def unterminated (draft : TripleQuotedDraft) : Move :=
  let head := errorHead ((draft.body.map (·.content)).getD [])
  let cause := match draft.sigil with
    | some _ => Cause.unterminatedSigil head
    | none => .unterminatedTripleQuoted head
  .fail 0 ⟨draft.lexeme.start, cause⟩

/-- The whole lines of the content. -/
def lines (draft : TripleQuotedDraft) : List ContentLine :=
  (draft.body.map (·.lines.toList)).getD []

/-- The line being read, which is the indentation if quotes close the literal. -/
def indent (draft : TripleQuotedDraft) : List Char :=
  (draft.body.map (·.current.toList)).getD []

/-- What is wrong with the layout of a literal, and how many characters it takes. -/
structure Misfit where
  error : LexicalError
  width : Nat

/-- The value of the literal, should the quotes at `here` close it, or what is wrong with
its layout. -/
def value (draft : TripleQuotedDraft) (here : Location) : Except Misfit (List Char) :=
  match draft.opening.toList.findIdx? fun c => !isInlineBlank c with
  | some index =>
    .error ⟨⟨draft.lexeme.start.shift (draft.quotes + index), .whiteSpace⟩, 1⟩
  | none =>
    let stripped := Layout.strip draft.indent draft.lines
    match stripped.bad with
    | some (line, index) => .error ⟨⟨here.onLine line (index + 1), .indentation⟩, 1⟩
    | none =>
      if draft.isVerbatim then .ok (Layout.dropLastBreak draft.lines stripped.texts.flatten)
      else
        match Layout.decode stripped.texts draft.lines with
        | .error (line, fault) =>
          let location := here.onLine line (draft.indent.length + fault.offset + 1)
          .error ⟨.illegal location .character, fault.width⟩
        | .ok content => .ok (Layout.dropLastBreak draft.lines content)

/-- At the closing quotes. A fault of the layout is reported where it is, though all of
the literal is read. -/
def complete (draft : TripleQuotedDraft) (here : Location) (text : List Char) : Move :=
  let quotes := draft.quotes
  match draft.value here with
  | .ok value =>
    let next := match draft.sigil with
      | some _ => Mode.name ⟨here.walk (text.take quotes), .sigilSuffix false, ""⟩
      | none => .between
    .emit quotes (.string (String.ofList value)) (draft.lexeme.extend text quotes) next
  | .error misfit =>
    .reject quotes misfit.error (misfit.error.location.shift misfit.width)

/-- At a run of quotes that may close the string. -/
def quoteRun (draft : TripleQuotedDraft) (here : Location) (text : List Char) (ended : Bool) :
    Move :=
  let run := runLength '"' text
  if !ended && isRun '"' text then .wait
  else if run = draft.quotes then draft.complete here text
  else .read run (.tripleQuoted (draft.pushFront text run))

/-- Within a triple-quoted string. -/
def move (draft : TripleQuotedDraft) (here : Location) (text : List Char) (ended : Bool) : Move :=
  match text with
  | [] => if ended then draft.unterminated else .wait
  | c :: _ =>
    if !isText c then .fail 1 (.illegal here .character)
    else if c == '"' && draft.mayClose then draft.quoteRun here text ended
    else .read 1 (.tripleQuoted (draft.push c))

theorem complete_fits (draft : TripleQuotedDraft) (here : Location) {text : List Char}
    (ended : Bool) (positive : 0 < draft.quotes) (short : draft.quotes ≤ text.length) :
    (draft.complete here text).Fits text ended (.tripleQuoted draft) := by
  simp only [complete]
  repeat' split
  all_goals exact ⟨short, by simp only [Mode.rank]; omega⟩

theorem quoteRun_fits (draft : TripleQuotedDraft) (here : Location) (text : List Char)
    (ended : Bool) :
    (draft.quoteRun here ('"' :: text) ended).Fits ('"' :: text) ended (.tripleQuoted draft) := by
  have positive := runLength_pos '"' text
  have short := runLength_le '"' ('"' :: text)
  simp only [quoteRun]
  repeat' split
  · simp_all [Move.Fits]
  · exact draft.complete_fits here ended (by omega) (by omega)
  · exact ⟨short, by simp only [Mode.rank]; omega⟩

theorem move_fits (draft : TripleQuotedDraft) (here : Location) (text : List Char)
    (ended : Bool) : (draft.move here text ended).Fits text ended (.tripleQuoted draft) := by
  simp only [move]
  repeat' split
  · simp [unterminated, Move.Fits, Mode.rank]
  · simp_all [Move.Fits]
  · simp [Move.Fits, Mode.rank]
  · rename_i quote
    obtain ⟨rfl, _⟩ : _ = '"' ∧ draft.mayClose = true := by
      simpa only [Bool.and_eq_true, beq_iff_eq] using quote
    exact draft.quoteRun_fits here _ ended
  · simp [Move.Fits, Mode.rank]

end TripleQuotedDraft

end ErlangLexer
