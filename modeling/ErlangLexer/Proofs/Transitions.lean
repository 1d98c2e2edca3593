import ErlangLexer.Scan

/-!
# What a mode goes on to

The moves that end no token, and those at which a scan fails, as tables:

* `Proceeds`: what a mode may read, and the mode behind it;
* `Fails`: what a mode may find wrong, and how many characters show it;
* `State.proceeds_of_read`, `State.fails_of_fail`: no move does anything else.

Whatever such a move preserves is shown by one case for each row.
-/

namespace ErlangLexer

/-- The error of a quoted text that is not closed. -/
def Quotation.unclosed (head : String) : Quotation → Cause
  | .atom => .unterminatedAtom head
  | .string => .unterminatedString head
  | .sigil _ => .unterminatedSigil head

/-- The error of a triple-quoted string that is not closed. -/
def Sigil.unclosed (head : String) : Option Sigil → Cause
  | some _ => .unterminatedSigil head
  | none => .unterminatedTripleQuoted head

/-- The text of a triple-quoted string behind its opening line. -/
def TripleQuotedDraft.content (draft : TripleQuotedDraft) : List Char :=
  (draft.body.map (·.content)).getD []

/-- What a mode may read of a text without ending a token, and the mode behind it. -/
inductive Proceeds (ended : Bool) (here : Location) : Mode → List Char → Nat → Mode → Prop where
  | blank {c : Char} {rest : List Char} (blank : isBlank c = true) :
      Proceeds ended here .between (c :: rest) 1 .between
  /-- The marker of a check annotation, within one. -/
  | marker (text : List Char) : Proceeds ended here .between text 5 .between
  | percent (rest : List Char) : Proceeds ended here .between ('%' :: rest) 1 .comment
  | digit {c : Char} {rest : List Char} (digit : isDigit c = true) :
      Proceeds ended here .between (c :: rest) 1 (.number (.ofDigit here c))
  | smallName {c : Char} {rest : List Char} (lower : isLower c = true) :
      Proceeds ended here .between (c :: rest) 1 (.name ⟨here, .atom, c.toString⟩)
  | variableName {c : Char} {rest : List Char} (starts : startsVariable c = true) :
      Proceeds ended here .between (c :: rest) 1 (.name ⟨here, .variable, c.toString⟩)
  | tilde (rest : List Char) :
      Proceeds ended here .between ('~' :: rest) 1 (.name ⟨here, .sigilPrefix, ""⟩)
  | quotedAtom (rest : List Char) :
      Proceeds ended here .between ('\'' :: rest) 1
        (.quoted ⟨.front here ('\'' :: rest) 1, .atom, '\'', ""⟩)
  | string (rest : List Char) :
      Proceeds ended here .between ('"' :: rest) 1
        (.quoted ⟨.front here ('"' :: rest) 1, .string, '"', ""⟩)
  | tripleQuoted {text : List Char} (quotes : 3 ≤ runLength '"' text) :
      Proceeds ended here .between text (runLength '"' text)
        (.tripleQuoted ⟨.front here text (runLength '"' text), runLength '"' text, none, "", none⟩)
  | comment {c : Char} {rest : List Char} (skipped : Comment.skips c = true) :
      Proceeds ended here .comment (c :: rest) 1 .comment
  | line (text : List Char) : Proceeds ended here .comment text 0 .between
  | name {draft : NameDraft} {c : Char} {rest : List Char} (continues : continuesName c = true) :
      Proceeds ended here (.name draft) (c :: rest) 1
        (.name { draft with name := draft.name.push c })
  | number (draft : NumberDraft) (text : List Char) (part : NumberPart) {width : Nat}
      (positive : 0 < width) :
      Proceeds ended here (.number draft) text width
        (.number ⟨draft.lexeme.extend text width, part⟩)
  | plain {draft : QuotedDraft} {c : Char} {rest : List Char} (inside : c ≠ draft.close)
      (plain : c = '\\' → draft.quotation.isVerbatim = true) (known : isText c = true) :
      Proceeds ended here (.quoted draft) (c :: rest) 1
        (.quoted ⟨draft.lexeme.extend (c :: rest) 1, draft.quotation, draft.close,
          draft.value.push c⟩)
  | escape {draft : QuotedDraft} {rest : List Char} {value : Char} {width : Nat}
      (inside : draft.close ≠ '\\') (escapes : draft.quotation.isVerbatim = false)
      (read : Escape.read rest ended = .char value width) :
      Proceeds ended here (.quoted draft) ('\\' :: rest) (1 + width)
        (.quoted ⟨draft.lexeme.extend ('\\' :: rest) (1 + width), draft.quotation, draft.close,
          draft.value.push value⟩)
  | lineBreak {draft : QuotedDraft} {rest : List Char} (inside : draft.close ≠ '\\')
      (escapes : draft.quotation.isVerbatim = false) (read : Escape.read rest ended = .lineBreak) :
      Proceeds ended here (.quoted draft) ('\\' :: rest) 2
        (.quoted ⟨draft.lexeme.extend ('\\' :: rest) 2, draft.quotation, draft.close,
          draft.value.push '\n'⟩)
  | behindString (text : List Char) : Proceeds ended here .afterString text 0 .between
  | sigilString {sigil : Sigil} {c close : Char} {rest : List Char}
      (closes : closing? c = some close) :
      Proceeds ended here (.sigil sigil) (c :: rest) 1
        (.quoted ⟨.front here (c :: rest) 1, .sigil sigil.verbatim, close, ""⟩)
  | sigilTripleQuoted {sigil : Sigil} {text : List Char} (quotes : 3 ≤ runLength '"' text) :
      Proceeds ended here (.sigil sigil) text (runLength '"' text)
        (.tripleQuoted
          ⟨.front here text (runLength '"' text), runLength '"' text, some sigil, "", none⟩)
  | content (draft : TripleQuotedDraft) (c : Char) (rest : List Char) :
      Proceeds ended here (.tripleQuoted draft) (c :: rest) 1 (.tripleQuoted (draft.push c))
  | quotes (draft : TripleQuotedDraft) (text : List Char) :
      Proceeds ended here (.tripleQuoted draft) text (runLength '"' text)
        (.tripleQuoted (draft.pushFront text (runLength '"' text)))

/-- What a mode may find wrong in front of a text, and how many characters are read to show
it. -/
inductive Fails (ended : Bool) (here : Location) :
    Mode → List Char → Nat → LexicalError → Prop where
  | openChar (last : ended = true) :
      Fails ended here .between ['$'] 1 ⟨here, .unterminatedChar⟩
  | cutChar {rest : List Char} (last : ended = true)
      (cut : Escape.read rest ended = .incomplete) :
      Fails ended here .between ('$' :: '\\' :: rest) (rest.length + 2) ⟨here, .unterminatedChar⟩
  | charEscape {rest : List Char} {width : Nat}
      (wrong : Escape.read rest ended = .malformed width) :
      Fails ended here .between ('$' :: '\\' :: rest) (2 + width) (.illegal here .character)
  | charForeign {c : Char} {rest : List Char} (foreign : isText c = false) :
      Fails ended here .between ('$' :: c :: rest) 2 (.illegal (here.next '$') .character)
  | foreign {c : Char} {rest : List Char} (foreign : isText c = false) :
      Fails ended here .between (c :: rest) 1 (.illegal here .character)
  | longName {draft : NameDraft} (text : List Char) (long : maxNameLength < draft.name.length) :
      Fails ended here (.name draft) text 0 (.illegal draft.start draft.role.illegal)
  | number (draft : NumberDraft) (text : List Char) (width : Nat) :
      Fails ended here (.number draft) text width
        (.illegal draft.lexeme.start draft.part.illegal)
  | base (draft : NumberDraft) (text : List Char) (value : Nat) :
      Fails ended here (.number draft) text 0
        ⟨draft.lexeme.start, .illegalBase (toString value)⟩
  | openQuoted {draft : QuotedDraft} (last : ended = true) :
      Fails ended here (.quoted draft) [] 0
        ⟨draft.lexeme.start, draft.quotation.unclosed (errorHead draft.value.toList)⟩
  | cutQuoted {draft : QuotedDraft} {rest : List Char} (last : ended = true)
      (inside : draft.close ≠ '\\') (escapes : draft.quotation.isVerbatim = false)
      (cut : Escape.read rest ended = .incomplete) :
      Fails ended here (.quoted draft) ('\\' :: rest) (rest.length + 1)
        ⟨draft.lexeme.start, draft.quotation.unclosed (errorHead draft.value.toList)⟩
  | quotedEscape {draft : QuotedDraft} {rest : List Char} {width : Nat}
      (wrong : Escape.read rest ended = .malformed width) :
      Fails ended here (.quoted draft) ('\\' :: rest) (1 + width) (.illegal here .character)
  | quotedForeign {draft : QuotedDraft} {c : Char} {rest : List Char}
      (foreign : isText c = false) :
      Fails ended here (.quoted draft) (c :: rest) 1 (.illegal here .character)
  | longAtom {draft : QuotedDraft} {rest : List Char} (atom : draft.quotation = .atom)
      (long : maxNameLength < draft.value.length) :
      Fails ended here (.quoted draft) (draft.close :: rest) 1
        (.illegal draft.lexeme.start .atom)
  | adjacent (rest : List Char) :
      Fails ended here .afterString ('"' :: rest) 1 ⟨here, .adjacentStrings⟩
  | openSigil {sigil : Sigil} (last : ended = true) :
      Fails ended here (.sigil sigil) [] 0 ⟨sigil.start, .unterminatedSigil ""⟩
  | delimiter {sigil : Sigil} {c : Char} {rest : List Char} (none : closing? c = none) :
      Fails ended here (.sigil sigil) (c :: rest) 1 (.illegal here .string)
  | openTripleQuoted {draft : TripleQuotedDraft} (last : ended = true) :
      Fails ended here (.tripleQuoted draft) [] 0
        ⟨draft.lexeme.start, Sigil.unclosed (errorHead draft.content) draft.sigil⟩
  | tripleQuotedForeign {draft : TripleQuotedDraft} {c : Char} {rest : List Char}
      (foreign : isText c = false) :
      Fails ended here (.tripleQuoted draft) (c :: rest) 1 (.illegal here .character)

/-- A move that reads on or fails is in the tables. -/
def Move.Accounted (ended : Bool) (here : Location) (mode : Mode) (text : List Char) : Move → Prop
  | .read width next => Proceeds ended here mode text width next
  | .fail width error => Fails ended here mode text width error
  | _ => True

/-! ## The moves of each mode -/

theorem Comment.openMove_accounted (options : Options) (checking : Bool) (here : Location)
    (rest : List Char) (ended : Bool) :
    (openMove options checking here ('%' :: rest) ended).Accounted ended here .between
      ('%' :: rest) := by
  simp only [openMove]
  split
  · split
    · exact .marker _
    · trivial
  · split
    · trivial
    · exact .percent rest

theorem Comment.move_accounted (here : Location) (text : List Char) (ended : Bool) :
    (move text ended).Accounted ended here .comment text := by
  cases text with
  | nil => cases ended with
    | true => exact .line []
    | false => trivial
  | cons c rest =>
    by_cases skipped : skips c = true
    · simp only [move, skipped, ↓reduceIte]
      exact .comment skipped
    · simp only [move, skipped, Bool.false_eq_true, ↓reduceIte]
      exact .line _

theorem AfterString.move_accounted (here : Location) (text : List Char) (ended : Bool) :
    (move here text ended).Accounted ended here .afterString text := by
  cases text with
  | nil => cases ended with
    | true => exact .behindString []
    | false => trivial
  | cons c rest =>
    by_cases quote : c = '"'
    · subst quote
      exact .adjacent rest
    · simp only [move, quote, ↓reduceIte]
      exact .behindString _

theorem NameDraft.complete_accounted (options : Options) (draft : NameDraft) (here : Location)
    (text : List Char) (ended : Bool) :
    (draft.complete options).Accounted ended here (.name draft) text := by
  simp only [complete]
  split
  · exact .longName text ‹_›
  · trivial

theorem NameDraft.move_accounted (options : Options) (draft : NameDraft) (here : Location)
    (text : List Char) (ended : Bool) :
    (draft.move options text ended).Accounted ended here (.name draft) text := by
  cases text with
  | nil => cases ended with
    | true => exact draft.complete_accounted options here [] true
    | false => trivial
  | cons c rest =>
    by_cases continues : continuesName c = true
    · simp only [move, continues, ↓reduceIte]
      exact .name continues
    · simp only [move, continues, Bool.false_eq_true, ↓reduceIte]
      exact draft.complete_accounted options here _ ended

namespace NumberDraft

variable (draft : NumberDraft) (here : Location)

theorem readTo_accounted (text : List Char) (part : NumberPart) (ended : Bool) {width : Nat}
    (positive : 0 < width) :
    (draft.readTo text width part).Accounted ended here (.number draft) text :=
  .number draft text part positive

theorem fault_accounted (text : List Char) (width : Nat) (ended : Bool) :
    (draft.fault width).Accounted ended here (.number draft) text :=
  .number draft text width

theorem complete_accounted (text : List Char) (ended : Bool) :
    draft.complete.Accounted ended here (.number draft) text := by
  simp only [complete]
  split
  · trivial
  · exact draft.fault_accounted here text 0 ended

theorem underscores_accounted (text : List Char) (ended : Bool) :
    (draft.underscores text ended).Accounted ended here (.number draft) text := by
  simp only [underscores]
  split
  · split
    · exact draft.fault_accounted here _ 1 ended
    · trivial
  · split
    · exact draft.readTo_accounted here _ _ ended (by decide)
    · split
      · trivial
      · exact draft.fault_accounted here _ _ ended
  · exact draft.complete_accounted here _ ended

theorem point_accounted (value : Nat) (text : List Char) (ended : Bool) :
    (draft.point value text ended).Accounted ended here (.number draft) text := by
  simp only [point]
  split
  · split
    · exact draft.complete_accounted here text ended
    · trivial
  · split
    · exact draft.readTo_accounted here text _ ended (by decide)
    · exact draft.complete_accounted here text ended

theorem mark_accounted (c : Char) (text : List Char) (ended : Bool) :
    (draft.mark c text ended).Accounted ended here (.number draft) text := by
  have reads (part : NumberPart) :
      (draft.readTo text 1 part).Accounted ended here (.number draft) text :=
    draft.readTo_accounted here text part ended (by decide)
  have completes := draft.complete_accounted here text ended
  simp only [mark, base]
  repeat' split
  · exact draft.point_accounted here _ text ended
  · exact reads _
  · exact .base draft text _
  · exact completes
  · exact reads _
  · exact completes
  · exact reads _
  · exact reads _
  · exact reads _
  · exact completes
  · exact completes
  · exact completes

theorem move_accounted (text : List Char) (ended : Bool) :
    (draft.move text ended).Accounted ended here (.number draft) text := by
  simp only [move]
  split
  · split
    · exact draft.complete_accounted here [] ended
    · trivial
  · split
    · exact draft.readTo_accounted here _ _ ended (by decide)
    · split
      · exact draft.underscores_accounted here _ ended
      · exact draft.mark_accounted here _ _ ended

end NumberDraft

namespace QuotedDraft

theorem unterminated_eq (draft : QuotedDraft) (width : Nat) :
    draft.unterminated width =
      .fail width ⟨draft.lexeme.start,
        draft.quotation.unclosed (errorHead draft.value.toList)⟩ := by
  unfold unterminated Quotation.unclosed
  cases draft.quotation <;> rfl

theorem complete_accounted (draft : QuotedDraft) (here : Location) (rest : List Char)
    (ended : Bool) :
    (draft.complete here (draft.close :: rest)).Accounted ended here (.quoted draft)
      (draft.close :: rest) := by
  simp only [complete]
  split
  · split
    · exact .longAtom ‹_› ‹_›
    · trivial
  · trivial
  · trivial

theorem escape_accounted (draft : QuotedDraft) (here : Location) (rest : List Char) (ended : Bool)
    (inside : draft.close ≠ '\\') (escapes : draft.quotation.isVerbatim = false) :
    (draft.escape here ('\\' :: rest) rest ended).Accounted ended here (.quoted draft)
      ('\\' :: rest) := by
  simp only [escape]
  split
  · exact .escape inside escapes ‹_›
  · exact .lineBreak inside escapes ‹_›
  · split
    · rw [unterminated_eq]
      exact .cutQuoted ‹_› inside escapes ‹_›
    · trivial
  · exact .quotedEscape ‹_›

theorem move_accounted (draft : QuotedDraft) (here : Location) (text : List Char) (ended : Bool) :
    (draft.move here text ended).Accounted ended here (.quoted draft) text := by
  cases text with
  | nil => cases ended with
    | true =>
      simp only [move, ↓reduceIte, unterminated_eq]
      exact .openQuoted rfl
    | false => trivial
  | cons c rest =>
    simp only [move]
    split
    · subst_vars
      exact draft.complete_accounted here rest ended
    · rename_i inside
      split
      · rename_i escapes
        simp only [Bool.and_eq_true, decide_eq_true_eq, Bool.not_eq_true'] at escapes
        obtain ⟨rfl, escapes⟩ := escapes
        exact draft.escape_accounted here rest ended (Ne.symm inside) escapes
      · rename_i plain
        split
        · refine .plain inside ?_ ‹_›
          intro backslash
          simpa [backslash] using plain
        · exact .quotedForeign (Bool.eq_false_iff.mpr ‹_›)

end QuotedDraft

namespace TripleQuotedDraft

theorem unterminated_eq (draft : TripleQuotedDraft) :
    draft.unterminated =
      .fail 0 ⟨draft.lexeme.start, Sigil.unclosed (errorHead draft.content) draft.sigil⟩ := by
  simp only [unterminated, Sigil.unclosed]
  cases draft.sigil <;> rfl

theorem quoteRun_accounted (draft : TripleQuotedDraft) (here : Location) (text : List Char)
    (ended : Bool) :
    (draft.quoteRun here text ended).Accounted ended here (.tripleQuoted draft) text := by
  simp only [quoteRun]
  split
  · trivial
  · split
    · simp only [complete]
      split <;> trivial
    · exact .quotes draft text

theorem move_accounted (draft : TripleQuotedDraft) (here : Location) (text : List Char)
    (ended : Bool) :
    (draft.move here text ended).Accounted ended here (.tripleQuoted draft) text := by
  cases text with
  | nil => cases ended with
    | true =>
      simp only [move, ↓reduceIte, unterminated_eq]
      exact .openTripleQuoted rfl
    | false => trivial
  | cons c rest =>
    simp only [move]
    split
    · rename_i foreign
      exact .tripleQuotedForeign (by simpa using foreign)
    · split
      · exact draft.quoteRun_accounted here _ ended
      · exact .content draft c rest

end TripleQuotedDraft

/-- What a run of quotes opens is in the table if the strings of one quote and of three are. -/
theorem QuoteRun.move_accounted (here : Location) (sigil : Option Sigil) (rest : List Char)
    (ended : Bool) {mode : Mode}
    (one : Proceeds ended here mode ('"' :: rest) 1
      (.quoted ⟨.front here ('"' :: rest) 1, quotation sigil, '"', ""⟩))
    (three : 3 ≤ runLength '"' ('"' :: rest) →
      Proceeds ended here mode ('"' :: rest) (runLength '"' ('"' :: rest))
        (.tripleQuoted ⟨.front here ('"' :: rest) (runLength '"' ('"' :: rest)),
          runLength '"' ('"' :: rest), sigil, "", none⟩)) :
    (move here sigil ('"' :: rest) ended).Accounted ended here mode ('"' :: rest) := by
  have positive := runLength_pos '"' rest
  simp only [move]
  split
  · trivial
  · split
    · exact one
    · split
      · trivial
      · exact three (by omega)

theorem Sigil.move_accounted (sigil : Sigil) (here : Location) (text : List Char) (ended : Bool) :
    (sigil.move here text ended).Accounted ended here (.sigil sigil) text := by
  cases text with
  | nil => cases ended with
    | true => exact .openSigil rfl
    | false => trivial
  | cons c rest =>
    simp only [move]
    split
    · subst_vars
      exact QuoteRun.move_accounted here (some sigil) rest ended (.sigilString rfl)
        .sigilTripleQuoted
    · split
      · exact .sigilString ‹_›
      · exact .delimiter ‹_›

theorem CharLiteral.move_accounted (here : Location) (rest : List Char) (ended : Bool) :
    (move here rest ended).Accounted ended here .between ('$' :: rest) := by
  cases rest with
  | nil => cases ended with
    | true => exact .openChar rfl
    | false => trivial
  | cons c behind =>
    simp only [move]
    split
    · subst_vars
      split
      · trivial
      · trivial
      · split
        · exact .cutChar ‹_› ‹_›
        · trivial
      · exact .charEscape ‹_›
    · split
      · trivial
      · exact .charForeign (Bool.eq_false_iff.mpr ‹_›)

theorem Punctuation.move_accounted (checking : Bool) (here : Location) (c : Char)
    (rest : List Char) (ended : Bool) :
    (move checking here c rest ended).Accounted ended here .between (c :: rest) := by
  simp only [move]
  split
  · trivial
  · split
    · split <;> trivial
    · split
      · trivial
      · exact .foreign (Bool.eq_false_iff.mpr ‹_›)

theorem Between.move_accounted (options : Options) (checking : Bool) (here : Location)
    (text : List Char) (ended : Bool) :
    (move options checking here text ended).Accounted ended here .between text := by
  simp only [move]
  split
  · split <;> trivial
  repeat' split
  · exact .blank ‹_›
  · exact .digit ‹_›
  · exact .smallName ‹_›
  · exact .variableName ‹_›
  · subst_vars
    exact QuoteRun.move_accounted here none _ ended (.string _) .tripleQuoted
  · subst_vars
    exact .quotedAtom _
  · subst_vars
    exact CharLiteral.move_accounted here _ ended
  · subst_vars
    exact .tilde _
  · subst_vars
    exact Comment.openMove_accounted options checking here _ ended
  · exact Punctuation.move_accounted checking here _ _ ended

theorem State.move_accounted (options : Options) (ended : Bool) (state : State)
    (text : List Char) :
    (state.move options ended text).Accounted ended state.location state.mode text := by
  obtain ⟨location, tokens, checking, mode⟩ := state
  cases mode with
  | between => exact Between.move_accounted options checking location text ended
  | comment => exact Comment.move_accounted location text ended
  | name draft => exact draft.move_accounted options location text ended
  | number draft => exact draft.move_accounted location text ended
  | quoted draft => exact draft.move_accounted location text ended
  | afterString => exact AfterString.move_accounted location text ended
  | sigil sigil => exact sigil.move_accounted location text ended
  | tripleQuoted draft => exact draft.move_accounted location text ended

namespace State

variable {options : Options} {ended : Bool} {state : State} {text : List Char} {width : Nat}

theorem proceeds_of_read {next : Mode} (step : state.move options ended text = .read width next) :
    Proceeds ended state.location state.mode text width next := by
  have accounted := state.move_accounted options ended text
  rw [step] at accounted
  exact accounted

theorem fails_of_fail {error : LexicalError}
    (step : state.move options ended text = .fail width error) :
    Fails ended state.location state.mode text width error := by
  have accounted := state.move_accounted options ended text
  rw [step] at accounted
  exact accounted

end State

end ErlangLexer
