import ErlangLexer.Proofs.AllText

/-!
# What a mode emits

The moves that end a token, as a table beside those of `Transitions`:

* `StandsAlone`: the characters that are tokens of their own and start nothing else;
* `Emits`: the tokens that a mode may end with in front of a text, how many characters end them,
  and the mode behind them;
* `State.emits_of_emit`: no move emits anything else.
-/

namespace ErlangLexer

/-- The character starts nothing but a symbol. -/
structure StandsAlone (c : Char) : Prop where
  known : isText c = true
  not_blank : isBlank c = false
  not_digit : isDigit c = false
  not_letter : isLetter c = false
  not_underscore : c ≠ '_'
  no_operator : ∀ op : Operator, op.spelling.head? ≠ some c

/-- What a mode may emit in front of a text with some of its characters, and the mode behind it. -/
inductive Emits (options : Options) (checking : Bool) :
    Mode → List Char → Nat → Kind → Mode → Prop where
  | char {rest : List Char} {value : Char} (width : Nat) (known : isText value = true) :
      Emits options checking .between ('$' :: rest) width (.char value) .between
  | emptyString {text : List Char} (two : runLength '"' text = 2) :
      Emits options checking .between text 2 (.string "") .afterString
  | checkOpen (text : List Char) : Emits options checking .between text 5 .checkOpen .between
  | checkClose (rest : List Char) (within : checking = true) :
      Emits options checking .between ('.' :: rest) (Punctuation.terminatorWidth rest) .checkClose
        .between
  | dot (rest : List Char) (outside : checking = false) :
      Emits options checking .between ('.' :: rest) (Punctuation.terminatorWidth rest) .dot .between
  | operator {op : Operator} {text : List Char} (found : Operator.longest? text = some op) :
      Emits options checking .between text op.spelling.length (.operator op) .between
  | symbol {c : Char} (alone : StandsAlone c) (rest : List Char) :
      Emits options checking .between (c :: rest) 1 (.symbol c) .between
  | name {draft : NameDraft} (text : List Char) (short : draft.name.length ≤ maxNameLength) :
      Emits options checking (.name draft) text 0 (draft.kind options) draft.next
  | number {draft : NumberDraft} {kind : Kind} (text : List Char)
      (value : draft.part.kind? = some kind) :
      Emits options checking (.number draft) text 0 kind .between
  | quotedAtom {draft : QuotedDraft} (rest : List Char) (atom : draft.quotation = .atom)
      (short : draft.value.length ≤ maxNameLength) :
      Emits options checking (.quoted draft) (draft.close :: rest) 1 (.atom draft.value) .between
  | string {draft : QuotedDraft} (rest : List Char) (string : draft.quotation = .string) :
      Emits options checking (.quoted draft) (draft.close :: rest) 1 (.string draft.value)
        .afterString
  | sigilString {draft : QuotedDraft} {verbatim : Bool} (rest : List Char)
      (sigil : draft.quotation = .sigil verbatim) (start : Location) :
      Emits options checking (.quoted draft) (draft.close :: rest) 1 (.string draft.value)
        (.name ⟨start, .sigilSuffix (draft.close == '"'), ""⟩)
  | emptySigil {sigil : Sigil} {text : List Char} (two : runLength '"' text = 2)
      (start : Location) :
      Emits options checking (.sigil sigil) text 2 (.string "")
        (.name ⟨start, .sigilSuffix true, ""⟩)
  | tripleQuoted {draft : TripleQuotedDraft} (text : List Char) (plain : draft.sigil = none)
      (value : String) :
      Emits options checking (.tripleQuoted draft) text draft.quotes (.string value) .between
  | tripleQuotedSigil {draft : TripleQuotedDraft} {sigil : Sigil} (text : List Char)
      (sigils : draft.sigil = some sigil) (value : String) (start : Location) :
      Emits options checking (.tripleQuoted draft) text draft.quotes (.string value)
        (.name ⟨start, .sigilSuffix false, ""⟩)

/-- A move that emits a token is in the table. -/
def Move.Listed (options : Options) (checking : Bool) (mode : Mode) (text : List Char) :
    Move → Prop
  | .emit width kind _ next => Emits options checking mode text width kind next
  | _ => True

/-! ## The moves of each mode -/

variable (options : Options) (checking : Bool)

theorem Comment.openMove_listed (here : Location) (text : List Char) (ended : Bool) :
    (openMove options checking here text ended).Listed options checking .between text := by
  simp only [openMove]
  split
  · split
    · trivial
    · exact .checkOpen text
  · split <;> trivial

theorem Comment.move_listed (text : List Char) (ended : Bool) :
    (move text ended).Listed options checking .comment text := by
  simp only [move]
  repeat' split
  all_goals trivial

theorem AfterString.move_listed (here : Location) (text : List Char) (ended : Bool) :
    (move here text ended).Listed options checking .afterString text := by
  simp only [move]
  repeat' split
  all_goals trivial

theorem CharLiteral.move_listed (here : Location) (rest : List Char) (ended : Bool) :
    (move here rest ended).Listed options checking .between ('$' :: rest) := by
  simp only [move]
  split
  · split <;> trivial
  · rename_i c behind
    split
    · split
      · exact .char _ (Escape.isText_of_char ‹_›).1
      · exact .char 3 (by decide)
      · split <;> trivial
      · trivial
    · split
      · exact .char 2 ‹_›
      · trivial

theorem Operator.head?_ne_of_longest? {c : Char} {rest : List Char}
    (none : longest? (c :: rest) = none) (op : Operator) : op.spelling.head? ≠ some c := by
  intro starts
  have shortened : ∀ op ∈ table, ∃ short ∈ table, short.spelling = op.spelling.take 1 := by decide
  obtain ⟨short, listed, spelling⟩ := shortened op op.mem_table
  obtain ⟨more, same⟩ := List.head?_eq_some_iff.mp starts
  rw [same, List.take_succ_cons, List.take_zero] at spelling
  refine List.find?_eq_none.mp none short listed ?_
  rw [spelling]
  simp

/-- A character that is no symbol by itself has been looked at before. -/
theorem Punctuation.move_listed (here : Location) {c : Char} (rest : List Char) (ended : Bool)
    (not_blank : isBlank c = false) (not_digit : isDigit c = false) (not_small : isLower c = false)
    (not_variable : startsVariable c = false) :
    (move checking here c rest ended).Listed options checking .between (c :: rest) := by
  simp only [move]
  split
  · trivial
  · split
    · rename_i op found
      split
      · rename_i ends
        obtain ⟨rfl, -⟩ := ends
        have front := List.find?_some found
        obtain rfl : '.' = c := by simpa [Operator.spelling] using front
        cases checking with
        | false => exact .dot rest rfl
        | true => exact .checkClose rest rfl
      · exact .operator found
    · rename_i none
      split
      · rename_i known
        simp only [startsVariable, Bool.or_eq_false_iff, beq_eq_false_iff_ne] at not_variable
        refine .symbol ⟨known, not_blank, not_digit, ?_, not_variable.1,
          Operator.head?_ne_of_longest? none⟩ rest
        simp only [isLetter, not_small, not_variable.2, Bool.or_self]
      · trivial

namespace NameDraft

variable (draft : NameDraft)

theorem complete_listed (text : List Char) :
    (draft.complete options).Listed options checking (.name draft) text := by
  simp only [complete]
  split
  · trivial
  · exact .name text (Nat.le_of_not_lt ‹_›)

theorem move_listed (text : List Char) (ended : Bool) :
    (draft.move options text ended).Listed options checking (.name draft) text := by
  simp only [move]
  split <;> split
  · exact draft.complete_listed options checking []
  · trivial
  · trivial
  · exact draft.complete_listed options checking _

end NameDraft

namespace NumberDraft

variable (draft : NumberDraft)

theorem complete_listed (text : List Char) :
    draft.complete.Listed options checking (.number draft) text := by
  simp only [complete]
  split
  · exact .number text ‹_›
  · trivial

theorem underscores_listed (text : List Char) (ended : Bool) :
    (draft.underscores text ended).Listed options checking (.number draft) text := by
  simp only [underscores]
  repeat' split
  all_goals first
    | trivial
    | exact draft.complete_listed options checking _

theorem point_listed (value : Nat) (text : List Char) (ended : Bool) :
    (draft.point value text ended).Listed options checking (.number draft) text := by
  simp only [point]
  repeat' split
  all_goals first
    | trivial
    | exact draft.complete_listed options checking _

theorem mark_listed (c : Char) (text : List Char) (ended : Bool) :
    (draft.mark c text ended).Listed options checking (.number draft) text := by
  simp only [mark, base]
  repeat' split
  all_goals first
    | trivial
    | exact draft.complete_listed options checking _
    | exact draft.point_listed options checking _ text ended

theorem move_listed (text : List Char) (ended : Bool) :
    (draft.move text ended).Listed options checking (.number draft) text := by
  simp only [move]
  repeat' split
  · exact draft.complete_listed options checking []
  · trivial
  · trivial
  · exact draft.underscores_listed options checking _ ended
  · exact draft.mark_listed options checking _ _ ended

end NumberDraft

theorem QuotedDraft.complete_listed (draft : QuotedDraft) (here : Location) (rest : List Char) :
    (draft.complete here (draft.close :: rest)).Listed options checking (.quoted draft)
      (draft.close :: rest) := by
  simp only [complete]
  split
  · split
    · trivial
    · exact .quotedAtom rest ‹_› (Nat.le_of_not_lt ‹_›)
  · exact .string rest ‹_›
  · exact .sigilString rest ‹_› _

theorem QuotedDraft.move_listed (draft : QuotedDraft) (here : Location) (text : List Char)
    (ended : Bool) :
    (draft.move here text ended).Listed options checking (.quoted draft) text := by
  simp only [move, escape]
  split
  · split <;> trivial
  · rename_i c rest
    split
    · rename_i closes
      subst closes
      exact draft.complete_listed options checking here rest
    · repeat' split
      all_goals trivial

namespace TripleQuotedDraft

variable (draft : TripleQuotedDraft)

theorem complete_listed (here : Location) (text : List Char) :
    (draft.complete here text).Listed options checking (.tripleQuoted draft) text := by
  simp only [complete]
  split
  · split
    · exact .tripleQuotedSigil text ‹_› _ _
    · exact .tripleQuoted text ‹_› _
  · trivial

theorem move_listed (here : Location) (text : List Char) (ended : Bool) :
    (draft.move here text ended).Listed options checking (.tripleQuoted draft) text := by
  simp only [move, quoteRun]
  repeat' split
  all_goals first
    | trivial
    | exact draft.complete_listed options checking here _

end TripleQuotedDraft

theorem QuoteRun.move_listed (here : Location) (sigil : Option Sigil) (text : List Char)
    (ended : Bool) {mode : Mode}
    (empty : runLength '"' text = 2 → Emits options checking mode text 2 (.string "")
      (afterEmpty (here.walk (text.take 2)) sigil)) :
    (move here sigil text ended).Listed options checking mode text := by
  simp only [move]
  repeat' split
  · trivial
  · trivial
  · exact empty ‹_›
  · trivial

theorem Sigil.move_listed (sigil : Sigil) (here : Location) (text : List Char) (ended : Bool) :
    (sigil.move here text ended).Listed options checking (.sigil sigil) text := by
  simp only [move]
  repeat' split
  · trivial
  · trivial
  · exact QuoteRun.move_listed options checking here _ _ ended fun two => .emptySigil two _
  · trivial
  · trivial

theorem Between.move_listed (here : Location) (text : List Char) (ended : Bool) :
    (move options checking here text ended).Listed options checking .between text := by
  simp only [move]
  split
  · split <;> trivial
  repeat' split
  · trivial
  · trivial
  · trivial
  · trivial
  · exact QuoteRun.move_listed options checking here none _ ended fun two => .emptyString two
  · trivial
  · subst_vars
    exact CharLiteral.move_listed options checking here _ ended
  · trivial
  · exact Comment.openMove_listed options checking here _ ended
  · exact Punctuation.move_listed options checking here _ ended (Bool.eq_false_iff.mpr ‹_›)
      (Bool.eq_false_iff.mpr ‹_›) (Bool.eq_false_iff.mpr ‹_›) (Bool.eq_false_iff.mpr ‹_›)

/-- Every token that a move emits is in the table. -/
theorem State.emits_of_emit {options : Options} {ended : Bool} {state : State} {text : List Char}
    {width : Nat} {kind : Kind} {lexeme : Lexeme} {next : Mode}
    (step : state.move options ended text = .emit width kind lexeme next) :
    Emits options state.checking state.mode text width kind next := by
  obtain ⟨location, tokens, checking, mode⟩ := state
  have listed : (State.move options ended ⟨location, tokens, checking, mode⟩ text).Listed options
      checking mode text := by
    cases mode with
    | between => exact Between.move_listed options checking location text ended
    | comment => exact Comment.move_listed options checking text ended
    | name draft => exact draft.move_listed options checking text ended
    | number draft => exact draft.move_listed options checking text ended
    | quoted draft => exact draft.move_listed options checking location text ended
    | afterString => exact AfterString.move_listed options checking location text ended
    | sigil sigil => exact sigil.move_listed options checking location text ended
    | tripleQuoted draft => exact draft.move_listed options checking location text ended
  rw [step] at listed
  exact listed

end ErlangLexer
