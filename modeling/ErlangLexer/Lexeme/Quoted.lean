import ErlangLexer.Escape
import ErlangLexer.Lexeme.Name

/-!
# Quoted atoms, strings and sigil strings

A text between delimiters may span lines. Backslashes escape in it, except in the
string of a verbatim sigil. Directly behind a string in double quotes no other may
start, and behind a sigil string stands the name that ends the sigil.
-/

namespace ErlangLexer

/-- Backslashes are plain text. -/
def Quotation.isVerbatim : Quotation → Bool
  | .sigil verbatim => verbatim
  | _ => false

namespace QuotedDraft

/-- A text whose opening delimiter is in front. -/
def openMove (here : Location) (quotation : Quotation) (close : Char) (text : List Char) : Move :=
  .read 1 (.quoted ⟨.front here text 1, quotation, close, ""⟩)

/-- Read some characters that stand for `value`. -/
def readValue (draft : QuotedDraft) (text : List Char) (width : Nat) (value : Char) : Move :=
  .read width (.quoted { draft with
    lexeme := draft.lexeme.extend text width
    value := draft.value.push value })

/-- The text ends within the literal. -/
def unterminated (draft : QuotedDraft) (width : Nat) : Move :=
  let head := errorHead draft.value.toList
  let cause := match draft.quotation with
    | .atom => Cause.unterminatedAtom head
    | .string => .unterminatedString head
    | .sigil _ => .unterminatedSigil head
  .fail width ⟨draft.lexeme.start, cause⟩

/-- At the closing delimiter. -/
def complete (draft : QuotedDraft) (here : Location) (text : List Char) : Move :=
  let lexeme := draft.lexeme.extend text 1
  match draft.quotation with
  | .atom =>
    if maxNameLength < draft.value.length then .fail 1 (.illegal lexeme.start .atom)
    else .emit 1 (.atom draft.value) lexeme .between
  | .string => .emit 1 (.string draft.value) lexeme .afterString
  | .sigil _ =>
    .emit 1 (.string draft.value) lexeme
      (.name ⟨here.next draft.close, .sigilSuffix (draft.close == '"'), ""⟩)

/-- At a backslash that escapes; `rest` is the text behind it. -/
def escape (draft : QuotedDraft) (here : Location) (text rest : List Char) (ended : Bool) : Move :=
  match Escape.read rest ended with
  | .char value width => draft.readValue text (1 + width) value
  | .lineBreak => draft.readValue text 2 '\n'
  | .incomplete => if ended then draft.unterminated text.length else .wait
  | .malformed width => .fail (1 + width) (.illegal here .character)

/-- Within a quoted text. -/
def move (draft : QuotedDraft) (here : Location) (text : List Char) (ended : Bool) : Move :=
  match text with
  | [] => if ended then draft.unterminated 0 else .wait
  | c :: rest =>
    if c = draft.close then draft.complete here text
    else if c = '\\' && !draft.quotation.isVerbatim then draft.escape here text rest ended
    else if isText c then draft.readValue text 1 c
    else .fail 1 (.illegal here .character)

theorem readValue_fits (draft : QuotedDraft) {text : List Char} {width : Nat} (value : Char)
    (ended : Bool) (positive : 0 < width) (short : width ≤ text.length) :
    (draft.readValue text width value).Fits text ended (.quoted draft) :=
  ⟨short, by simp only [Mode.rank]; omega⟩

theorem fail_fits (draft : QuotedDraft) {text : List Char} (ended : Bool) {width : Nat}
    (error : LexicalError) (short : width ≤ text.length) :
    (Move.fail width error).Fits text ended (.quoted draft) :=
  ⟨short, by simp only [Mode.rank]; omega⟩

theorem complete_fits (draft : QuotedDraft) (here : Location) (c : Char) (rest : List Char)
    (ended : Bool) :
    (draft.complete here (c :: rest)).Fits (c :: rest) ended (.quoted draft) := by
  simp only [complete]
  repeat' split
  all_goals simp [Move.Fits, Mode.rank]

theorem escape_fits (draft : QuotedDraft) (here : Location) (c : Char) (rest : List Char)
    (ended : Bool) :
    (draft.escape here (c :: rest) rest ended).Fits (c :: rest) ended (.quoted draft) := by
  have within := Escape.read_within rest ended
  simp only [escape]
  split <;> rename_i read <;> rw [read] at within
  · have := within.2
    exact draft.readValue_fits _ _ (by omega) (by simp only [List.length_cons]; omega)
  · have := List.length_pos_iff.mpr within
    exact draft.readValue_fits _ _ (by omega) (by simp only [List.length_cons]; omega)
  · split
    · exact draft.fail_fits _ _ (Nat.le_refl _)
    · simp_all [Move.Fits]
  · have := within.2
    exact draft.fail_fits _ _ (by simp only [List.length_cons]; omega)

theorem move_fits (draft : QuotedDraft) (here : Location) (text : List Char) (ended : Bool) :
    (draft.move here text ended).Fits text ended (.quoted draft) := by
  simp only [move]
  repeat' split
  · exact draft.fail_fits _ _ (Nat.zero_le _)
  · simp_all [Move.Fits]
  · exact draft.complete_fits here _ _ ended
  · exact draft.escape_fits here _ _ ended
  · exact draft.readValue_fits _ _ (by decide) (by simp)
  · exact draft.fail_fits _ _ (by simp)

end QuotedDraft

namespace AfterString

/-- Directly behind a string in double quotes. -/
def move (here : Location) (text : List Char) (ended : Bool) : Move :=
  match text with
  | [] => if ended then .read 0 .between else .wait
  | c :: _ => if c = '"' then .fail 1 ⟨here, .adjacentStrings⟩ else .read 0 .between

theorem move_fits (here : Location) (text : List Char) (ended : Bool) :
    (move here text ended).Fits text ended .afterString := by
  simp only [move]
  repeat' split
  all_goals simp_all [Move.Fits, Mode.rank]

end AfterString

end ErlangLexer
