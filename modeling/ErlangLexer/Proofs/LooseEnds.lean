import ErlangLexer.Proofs.Resumption
import Mathlib.Data.List.Infix
import Mathlib.Data.List.TakeWhile

/-!
# Loose ends

A suspended scan has some text in front of it that it could not decide about. Should the
source end there, it can:

* `LooseEnd`: what may be in front of a scan that waits, mode by mode;
* `State.looseEnd_of_wait`: a scan waits in front of nothing else;
* `LooseEnd.drains`: at the end of the source all of a loose end is read;
* `Suspension.ended_leaves_nothing`: so a suspended scan that is told of the end finishes,
  and leaves no text.
-/

namespace ErlangLexer

/-- A character behind a dollar sign, or an escape, that breaks off. -/
def CharLiteral.BreaksOff (rest : List Char) : Prop :=
  rest = [] ∨ ∃ behind, rest = '\\' :: behind ∧ Escape.read behind false = .incomplete

/-- The text that a scan may have in front of it in a mode when it waits for more. -/
inductive LooseEnd (options : Options) : Mode → List Char → Prop where
  | nothing (mode : Mode) : LooseEnd options mode []
  /-- A run of quotes that may open a string. -/
  | opening {text : List Char} (run : isRun '"' text = true) : LooseEnd options .between text
  /-- The same behind the name of a sigil. -/
  | delimiter (sigil : Sigil) {text : List Char} (run : isRun '"' text = true) :
      LooseEnd options (.sigil sigil) text
  /-- A run of quotes that may close a triple-quoted string. -/
  | closing {draft : TripleQuotedDraft} {text : List Char} (blank : draft.mayClose = true)
      (run : isRun '"' text = true) : LooseEnd options (.tripleQuoted draft) text
  | operator {text : List Char} (grows : Operator.mayGrow text = true) :
      LooseEnd options .between text
  | char {rest : List Char} (cut : CharLiteral.BreaksOff rest) :
      LooseEnd options .between ('$' :: rest)
  | marker {text : List Char} (checks : options.checkComments = true)
      (cut : breaksOffWithin text Comment.marker = true) : LooseEnd options .between text
  /-- Underscores between the digits of a number. -/
  | separators {draft : NumberDraft} {text : List Char} (digits : draft.part.hasDigit = true)
      (run : isRun '_' text = true) : LooseEnd options (.number draft) text
  /-- The point of a float, or the dot behind an integer. -/
  | point {draft : NumberDraft} {value : Nat} (part : draft.part = .whole value) :
      LooseEnd options (.number draft) ['.']
  | escape {draft : QuotedDraft} {rest : List Char} (inside : draft.close ≠ '\\')
      (escapes : draft.quotation.isVerbatim = false)
      (cut : Escape.read rest false = .incomplete) :
      LooseEnd options (.quoted draft) ('\\' :: rest)

/-! ## Waiting -/

theorem Comment.eq_nil_of_wait {text : List Char} (waits : move text false = .wait) :
    text = [] := by
  cases text with
  | nil => rfl
  | cons c text =>
    simp only [move] at waits
    split at waits <;> cases waits

theorem AfterString.eq_nil_of_wait {here : Location} {text : List Char}
    (waits : move here text false = .wait) : text = [] := by
  cases text with
  | nil => rfl
  | cons c text =>
    simp only [move] at waits
    split at waits <;> cases waits

theorem NameDraft.eq_nil_of_wait {options : Options} {draft : NameDraft} {text : List Char}
    (waits : draft.move options text false = .wait) : text = [] := by
  cases text with
  | nil => rfl
  | cons c text =>
    simp only [move, complete] at waits
    repeat' split at waits
    all_goals cases waits

theorem Comment.breaksOff_of_wait {options : Options} {checking : Bool} {here : Location}
    {text : List Char} (waits : openMove options checking here text false = .wait) :
    options.checkComments = true ∧ breaksOffWithin text marker = true := by
  simp only [openMove] at waits
  split at waits
  · split at waits <;> cases waits
  · split at waits
    · rename_i cut
      simpa using cut
    · cases waits

theorem CharLiteral.breaksOff_of_wait {here : Location} {rest : List Char}
    (waits : move here rest false = .wait) : BreaksOff rest := by
  cases rest with
  | nil => exact .inl rfl
  | cons c behind =>
    simp only [move] at waits
    split at waits
    · subst_vars
      split at waits
      · cases waits
      · cases waits
      · exact .inr ⟨behind, rfl, ‹_›⟩
      · cases waits
    · split at waits <;> cases waits

theorem Punctuation.mayGrow_of_wait {checking : Bool} {here : Location} {c : Char}
    {rest : List Char} (waits : move checking here c rest false = .wait) :
    Operator.mayGrow (c :: rest) = true := by
  simp only [move, Bool.not_false, Bool.true_and] at waits
  split at waits
  · assumption
  · repeat' split at waits
    all_goals cases waits

theorem QuoteRun.isRun_of_wait {here : Location} {sigil : Option Sigil} {text : List Char}
    (waits : move here sigil text false = .wait) : isRun '"' text = true := by
  simp only [move, Bool.not_false, Bool.true_and] at waits
  split at waits
  · assumption
  · simp only [QuotedDraft.openMove, TripleQuotedDraft.openMove] at waits
    repeat' split at waits
    all_goals cases waits

theorem Sigil.isRun_of_wait {sigil : Sigil} {here : Location} {text : List Char}
    (waits : sigil.move here text false = .wait) : isRun '"' text = true := by
  cases text with
  | nil => rfl
  | cons c rest =>
    simp only [move] at waits
    split at waits
    · exact QuoteRun.isRun_of_wait waits
    · simp only [QuotedDraft.openMove] at waits
      split at waits <;> cases waits

namespace NumberDraft

theorem complete_ne_wait (draft : NumberDraft) : draft.complete ≠ .wait := by
  unfold complete fault
  split <;> simp

theorem separators_of_wait {options : Options} {draft : NumberDraft} {text : List Char}
    (front : text.head? = some '_') (digits : draft.part.hasDigit = true)
    (waits : draft.underscores text false = .wait) : LooseEnd options (.number draft) text := by
  refine .separators digits ?_
  unfold underscores at waits
  split at waits
  · simp_all [isRun]
  · simp only [Bool.not_false, Bool.true_and, readTo, fault] at waits
    repeat' split at waits
    · cases waits
    · assumption
    · cases waits
  · cases front

theorem point_of_wait {options : Options} {draft : NumberDraft} {value : Nat} {rest : List Char}
    (part : draft.part = .whole value) (waits : draft.point value ('.' :: rest) false = .wait) :
    LooseEnd options (.number draft) ('.' :: rest) := by
  cases rest with
  | nil => exact .point part
  | cons d rest =>
    simp only [point, List.drop_succ_cons, List.drop_zero, readTo] at waits
    split at waits
    · cases waits
    · exact absurd waits draft.complete_ne_wait

theorem mark_of_wait {options : Options} {draft : NumberDraft} {c : Char} {rest : List Char}
    (waits : draft.mark c (c :: rest) false = .wait) :
    LooseEnd options (.number draft) (c :: rest) := by
  have incomplete := draft.complete_ne_wait
  simp only [mark, base, readTo] at waits
  split at waits
  · rename_i value part
    split at waits
    · subst_vars
      exact point_of_wait part waits
    · repeat' split at waits
      · cases waits
      · cases waits
      · exact absurd waits incomplete
  · split at waits
    · cases waits
    · exact absurd waits incomplete
  · repeat' split at waits
    · cases waits
    · cases waits
    · cases waits
    · exact absurd waits incomplete
  · exact absurd waits incomplete
  · exact absurd waits incomplete

theorem looseEnd_of_wait (options : Options) {draft : NumberDraft} {text : List Char}
    (waits : draft.move text false = .wait) : LooseEnd options (.number draft) text := by
  cases text with
  | nil => exact .nothing _
  | cons c rest =>
    simp only [move, readTo] at waits
    split at waits
    · cases waits
    · split at waits
      · rename_i separator
        simp only [Bool.and_eq_true, decide_eq_true_eq] at separator
        obtain ⟨rfl, digits⟩ := separator
        exact separators_of_wait rfl digits waits
      · exact mark_of_wait waits

end NumberDraft

theorem QuotedDraft.looseEnd_of_wait (options : Options) {draft : QuotedDraft} {here : Location}
    {text : List Char} (waits : draft.move here text false = .wait) :
    LooseEnd options (.quoted draft) text := by
  cases text with
  | nil => exact .nothing _
  | cons c rest =>
    simp only [move, complete, readValue] at waits
    split at waits
    · repeat' split at waits
      all_goals cases waits
    · rename_i inside
      split at waits
      · rename_i escapes
        simp only [Bool.and_eq_true, decide_eq_true_eq, Bool.not_eq_true'] at escapes
        obtain ⟨rfl, escapes⟩ := escapes
        simp only [escape, readValue] at waits
        split at waits
        · cases waits
        · cases waits
        · exact .escape (Ne.symm inside) escapes ‹_›
        · cases waits
      · split at waits <;> cases waits

theorem TripleQuotedDraft.looseEnd_of_wait (options : Options) {draft : TripleQuotedDraft}
    {here : Location} {text : List Char} (waits : draft.move here text false = .wait) :
    LooseEnd options (.tripleQuoted draft) text := by
  cases text with
  | nil => exact .nothing _
  | cons c rest =>
    simp only [move] at waits
    split at waits
    · cases waits
    · split at waits
      · rename_i quote
        simp only [Bool.and_eq_true, beq_iff_eq] at quote
        obtain ⟨rfl, blank⟩ := quote
        simp only [quoteRun, complete, Bool.not_false, Bool.true_and] at waits
        split at waits
        · exact .closing blank ‹_›
        · repeat' split at waits
          all_goals cases waits
      · cases waits

theorem Between.looseEnd_of_wait {options : Options} {checking : Bool} {here : Location}
    {text : List Char} (waits : move options checking here text false = .wait) :
    LooseEnd options .between text := by
  cases text with
  | nil => exact .nothing _
  | cons c rest =>
    simp only [move, QuotedDraft.openMove] at waits
    repeat' split at waits
    · cases waits
    · cases waits
    · cases waits
    · cases waits
    · exact .opening (QuoteRun.isRun_of_wait waits)
    · cases waits
    · subst_vars
      exact .char (CharLiteral.breaksOff_of_wait waits)
    · cases waits
    · obtain ⟨checks, cut⟩ := Comment.breaksOff_of_wait waits
      exact .marker checks cut
    · exact .operator (Punctuation.mayGrow_of_wait waits)

/-- A scan waits only in front of a loose end. -/
theorem State.looseEnd_of_wait {options : Options} {state : State} {text : List Char}
    (waits : state.move options false text = .wait) : LooseEnd options state.mode text := by
  obtain ⟨location, tokens, checking, mode⟩ := state
  cases mode with
  | between => exact Between.looseEnd_of_wait waits
  | comment => exact Comment.eq_nil_of_wait waits ▸ .nothing _
  | name draft => exact NameDraft.eq_nil_of_wait waits ▸ .nothing _
  | number draft => exact draft.looseEnd_of_wait options waits
  | quoted draft => exact draft.looseEnd_of_wait options waits
  | afterString => exact AfterString.eq_nil_of_wait waits ▸ .nothing _
  | sigil sigil => exact .delimiter sigil (Sigil.isRun_of_wait waits)
  | tripleQuoted draft => exact draft.looseEnd_of_wait options waits

/-! ## The end of the source -/

/-- The scan has stopped and leaves no text. -/
def Halt.Drained : Halt → Prop
  | .suspended _ _ => False
  | .stopped _ rest => rest = []

/-- The move reads all of the text. -/
def Move.ReadsAll (text : List Char) : Move → Prop
  | .wait => False
  | .finish => text = []
  | .read width _ | .emit width _ _ _ | .fail width _ | .reject width _ _ => width = text.length

namespace State

theorem run_suffix {options : Options} {extent : Extent} {ended : Bool} {state : State}
    {text : List Char} {outcome : Outcome} {rest : List Char}
    (stops : state.run options extent ended text = .stopped outcome rest) : rest <:+ text := by
  fun_induction State.run options extent ended state text with
  | case1 state text step => cases stops
  | case2 state text step =>
    obtain ⟨rfl, rfl⟩ := Halt.stopped.inj stops
    exact List.suffix_refl _
  | case3 state text width next step ih => exact (ih stops).trans (List.drop_suffix width text)
  | case4 state text width kind lexeme next step state' stops_here =>
    obtain ⟨rfl, rfl⟩ := Halt.stopped.inj stops
    exact List.drop_suffix width text
  | case5 state text width kind lexeme next step state' goes_on ih =>
    exact (ih stops).trans (List.drop_suffix width text)
  | case6 state text width error step =>
    obtain ⟨rfl, rfl⟩ := Halt.stopped.inj stops
    exact List.drop_suffix width text
  | case7 state text width error finish step =>
    obtain ⟨rfl, rfl⟩ := Halt.stopped.inj stops
    exact List.drop_suffix width text

variable (options : Options) (extent : Extent)

theorem drained_nil (state : State) : (state.run options extent true []).Drained := by
  obtain ⟨outcome, rest, stops⟩ := state.run_ended options extent []
  rw [stops]
  exact List.suffix_nil.mp (run_suffix stops)

theorem drained_of_readsAll {state : State} {text : List Char}
    (all : (state.move options true text).ReadsAll text) :
    (state.run options extent true text).Drained := by
  rw [run_eq]
  cases step : state.move options true text with
  | wait =>
    rw [step] at all
    exact all.elim
  | finish =>
    rw [step] at all
    exact all
  | read width next =>
    rw [step] at all
    have none : text.drop width = [] := List.drop_eq_nil_of_le (Nat.le_of_eq all.symm)
    simp only [none]
    exact drained_nil options extent _
  | emit width kind lexeme next =>
    rw [step] at all
    have none : text.drop width = [] := List.drop_eq_nil_of_le (Nat.le_of_eq all.symm)
    simp only [none]
    split
    · rfl
    · exact drained_nil options extent _
  | fail width error =>
    rw [step] at all
    exact List.drop_eq_nil_of_le (Nat.le_of_eq all.symm)
  | reject width error finish =>
    rw [step] at all
    exact List.drop_eq_nil_of_le (Nat.le_of_eq all.symm)

theorem drained_of_emit {state : State} {text : List Char} {width : Nat} {kind : Kind}
    {lexeme : Lexeme} {next : Mode}
    (step : state.move options true text = .emit width kind lexeme next)
    (inner : kind ≠ .dot)
    (later : ∀ state : State, state.mode = next →
      (state.run options extent true (text.drop width)).Drained) :
    (state.run options extent true text).Drained := by
  rw [run_eq, step]
  simp only [inner, false_and, ↓reduceIte]
  exact later _ rfl

end State

/-! ### Runs of quotes and underscores -/

theorem runLength_of_isRun {c : Char} {text : List Char} (run : isRun c text = true) :
    runLength c text = text.length := by
  rw [isRun, List.all_eq_true] at run
  rw [runLength, List.takeWhile_eq_self_iff.mpr run]

theorem head_of_isRun {c d : Char} {text : List Char} (run : isRun c (d :: text) = true) :
    d = c := by
  simp only [isRun, List.all_cons, Bool.and_eq_true, beq_iff_eq] at run
  exact run.1

theorem QuoteRun.readsAll (here : Location) (sigil : Option Sigil) {text : List Char}
    (run : isRun '"' text = true) : (move here sigil text true).ReadsAll text := by
  have length := runLength_of_isRun run
  simp only [move, length, Bool.not_true, Bool.false_and, Bool.false_eq_true, ↓reduceIte]
  split
  · rename_i one
    exact one.symm
  · split
    · rename_i two
      exact two.symm
    · rfl

theorem Sigil.readsAll (sigil : Sigil) (here : Location) {text : List Char}
    (run : isRun '"' text = true) : (sigil.move here text true).ReadsAll text := by
  cases text with
  | nil => rfl
  | cons c rest =>
    obtain rfl := head_of_isRun run
    exact QuoteRun.readsAll here (some sigil) run

theorem TripleQuotedDraft.readsAll {draft : TripleQuotedDraft} (here : Location)
    {text : List Char} (blank : draft.mayClose = true) (run : isRun '"' text = true) :
    (draft.move here text true).ReadsAll text := by
  cases text with
  | nil => rfl
  | cons c rest =>
    obtain rfl := head_of_isRun run
    have known : isText '"' = true := by decide
    have length := runLength_of_isRun run
    simp only [move, known, blank, quoteRun, complete, length, Bool.not_true, Bool.false_eq_true,
      Bool.false_and, ↓reduceIte, beq_self_eq_true, Bool.and_self]
    split
    · rename_i closes
      split
      · exact closes.symm
      · exact closes.symm
    · rfl

theorem NumberPart.digit?_underscore (part : NumberPart) : part.digit? '_' = none := by
  have none (base : Nat) : digitValue? base '_' = none := by simp [digitValue?, isDigit]
  cases part <;> simp [digit?, none]

/-- Underscores with no digit behind them are an error that takes all of them. -/
theorem NumberDraft.move_of_separators {draft : NumberDraft} {text : List Char}
    (digits : draft.part.hasDigit = true) (run : isRun '_' text = true) (some_text : text ≠ []) :
    draft.move text true = draft.fault text.length := by
  have length := runLength_of_isRun run
  cases text with
  | nil => exact absurd rfl some_text
  | cons c rest =>
    obtain rfl := head_of_isRun run
    simp only [move, draft.part.digit?_underscore, digits, underscores, decide_true,
      Bool.and_self, ↓reduceIte]
    cases rest with
    | nil => rfl
    | cons d rest =>
      have again : d = '_' := by
        have all := List.all_eq_true.mp run
        simpa using all d (by simp)
      subst again
      simp only [draft.part.digit?_underscore, Bool.not_true, Bool.false_and, Bool.false_eq_true,
        ↓reduceIte, length]

theorem NumberDraft.readsAll {draft : NumberDraft} {text : List Char}
    (digits : draft.part.hasDigit = true) (run : isRun '_' text = true) (some_text : text ≠ []) :
    (draft.move text true).ReadsAll text := by
  rw [move_of_separators digits run some_text]
  rfl

theorem NumberDraft.move_of_point (draft : NumberDraft) {value : Nat}
    (part : draft.part = .whole value) :
    draft.move ['.'] true = .emit 0 (.integer value) draft.lexeme .between := by
  simp [move, NumberPart.digit?, digitValue?, isDigit, mark, point, complete, NumberPart.kind?,
    part]

/-! ### Escapes -/

/-- Octal digits that may go on are all of the text, and at most two. -/
theorem Escape.octal_of_incomplete {text : List Char} (cut : readOctal text false = .incomplete) :
    (text.take 3).takeWhile isOctal = text ∧ text.length < 3 := by
  unfold readOctal at cut
  dsimp only at cut
  split at cut
  · rename_i open_end
    simp only [Bool.and_eq_true, decide_eq_true_eq, List.isEmpty_iff, List.drop_eq_nil_iff]
      at open_end
    have front := (List.takeWhile_prefix (l := text.take 3) isOctal).trans (List.take_prefix 3 text)
    have all := front.eq_of_length_le open_end.1.2
    refine ⟨all, ?_⟩
    rw [all] at open_end
    exact open_end.1.1
  · unfold ofCode at cut
    split at cut <;> cases cut

/-- An escape that breaks off does so for good, or it is all of its octal digits. -/
theorem Escape.read_ended_of_incomplete {text : List Char}
    (cut : read text false = .incomplete) :
    read text true = .incomplete ∨
      read text true = ofCode (digitsValue 8 text) text.length := by
  cases text with
  | nil => exact .inl rfl
  | cons c rest =>
    by_cases octal : isOctal c = true
    · refine .inr ?_
      simp only [read, octal, ↓reduceIte] at cut ⊢
      unfold readOctal
      dsimp only
      rw [(octal_of_incomplete cut).1]
      simp
    · refine .inl ?_
      simp only [read, octal, Bool.false_eq_true, ↓reduceIte] at cut ⊢
      exact cut

theorem Escape.ofCode_cases (code width : Nat) :
    ofCode code width = .char (Char.ofNat code) width ∨ ofCode code width = .malformed width := by
  unfold ofCode
  split
  · exact .inl rfl
  · exact .inr rfl

theorem CharLiteral.readsAll (here : Location) {rest : List Char} (cut : BreaksOff rest) :
    (move here rest true).ReadsAll ('$' :: rest) := by
  rcases cut with rfl | ⟨behind, rfl, cut⟩
  · rfl
  · simp only [move, ↓reduceIte]
    rcases Escape.read_ended_of_incomplete cut with read | read
    · rw [read]
      rfl
    · have width : 2 + behind.length = ('$' :: '\\' :: behind).length := by
        simp only [List.length_cons]
        omega
      rcases Escape.ofCode_cases (digitsValue 8 behind) behind.length with code | code
      · rw [read, code]
        exact width
      · rw [read, code]
        exact width

theorem QuotedDraft.readsAll {draft : QuotedDraft} (here : Location) {rest : List Char}
    (inside : draft.close ≠ '\\') (escapes : draft.quotation.isVerbatim = false)
    (cut : Escape.read rest false = .incomplete) :
    (draft.move here ('\\' :: rest) true).ReadsAll ('\\' :: rest) := by
  simp only [move, inside.symm, escapes, escape, ↓reduceIte, Bool.not_false, decide_true,
    Bool.and_self]
  rcases Escape.read_ended_of_incomplete cut with read | read
  · rw [read]
    rfl
  · have width : 1 + rest.length = ('\\' :: rest).length := by
      simp only [List.length_cons]
      omega
    rcases Escape.ofCode_cases (digitsValue 8 rest) rest.length with code | code
    · rw [read, code]
      exact width
    · rw [read, code]
      exact width

/-! ### Operators and check markers -/

theorem prefix_of_breaksOff {text word : List Char} (cut : breaksOffWithin text word = true) :
    text <+: word ∧ text ≠ word := by
  simpa [breaksOffWithin] using cut

namespace Comment

theorem unmarked_of_breaksOff {text : List Char} (cut : breaksOffWithin text marker = true) :
    marker.isPrefixOf text = false := by
  obtain ⟨front, short⟩ := prefix_of_breaksOff cut
  rw [Bool.eq_false_iff, ne_eq, List.isPrefixOf_iff_prefix]
  intro whole
  exact short (front.eq_of_length_le whole.length_le)

theorem openMove_of_unmarked (options : Options) (checking : Bool) (here : Location)
    {rest : List Char} (unmarked : marker.isPrefixOf ('%' :: rest) = false) :
    openMove options checking here ('%' :: rest) true = .read 1 .comment := by
  simp [openMove, unmarked]

theorem skips_of_mem_marker {c : Char} (listed : c ∈ marker) : skips c = true := by
  have all : marker.all skips = true := by decide
  exact List.all_eq_true.mp all c listed

end Comment

namespace Operator

/-- The texts that break off within an operator. -/
def beginnings : List (List Char) :=
  [[], ['.'], ['.', '.'], ['='], ['=', ':'], ['=', '/'], ['-'], ['+'], ['/'], ['>'], ['<'], [':'],
   ['|'], ['?']]

theorem mem_beginnings {text : List Char} (grows : mayGrow text = true) : text ∈ beginnings := by
  have all : ∀ op ∈ table, ∀ front ∈ op.spelling.inits, front ≠ op.spelling →
      front ∈ beginnings := by decide
  obtain ⟨op, listed, cut⟩ := List.any_eq_true.mp grows
  obtain ⟨front, short⟩ := prefix_of_breaksOff cut
  exact all op listed text ((List.mem_inits _ _).mpr front) short

end Operator

/-- At the end of the source the beginning of an operator is an operator itself, or it is
one and the beginning of another. -/
theorem Between.move_of_beginning (options : Options) (checking : Bool) (here : Location)
    {c : Char} {rest : List Char} (grows : Operator.mayGrow (c :: rest) = true) :
    (move options checking here (c :: rest) true).ReadsAll (c :: rest) ∨
      ∃ op lexeme, move options checking here (c :: rest) true =
          .emit 1 (.operator op) lexeme .between ∧
        rest.length = 1 ∧ Operator.mayGrow rest = true := by
  have listed := Operator.mem_beginnings grows
  simp only [Operator.beginnings, List.mem_cons, List.not_mem_nil, or_false, List.cons.injEq,
    reduceCtorEq, false_or] at listed
  rcases listed with ⟨rfl, rfl⟩ | ⟨rfl, rfl⟩ | ⟨rfl, rfl⟩ | ⟨rfl, rfl⟩ | ⟨rfl, rfl⟩ | ⟨rfl, rfl⟩ |
    ⟨rfl, rfl⟩ | ⟨rfl, rfl⟩ | ⟨rfl, rfl⟩ | ⟨rfl, rfl⟩ | ⟨rfl, rfl⟩ | ⟨rfl, rfl⟩ | ⟨rfl, rfl⟩
  case inr.inr.inr.inl => exact .inr ⟨_, _, rfl, rfl, by decide⟩
  case inr.inr.inr.inr.inl => exact .inr ⟨_, _, rfl, rfl, by decide⟩
  all_goals exact .inl rfl

namespace State

variable (options : Options) (extent : Extent)

theorem operator_drained {state : State} {text : List Char} (mode : state.mode = .between)
    (grows : Operator.mayGrow text = true) :
    (state.run options extent true text).Drained := by
  obtain ⟨location, tokens, checking, mode⟩ := state
  subst mode
  cases text with
  | nil => exact drained_nil options extent _
  | cons c rest =>
    rcases Between.move_of_beginning options checking location grows with all | twice
    · exact drained_of_readsAll options extent all
    · obtain ⟨op, lexeme, step, single, again⟩ := twice
      refine drained_of_emit options extent step (by simp) ?_
      rintro ⟨location, tokens, checking, mode⟩ rfl
      obtain ⟨d, rfl⟩ := List.length_eq_one_iff.mp single
      rcases Between.move_of_beginning options checking location again with all | twice
      · exact drained_of_readsAll options extent all
      · obtain ⟨_, _, _, impossible, _⟩ := twice
        cases impossible

theorem comment_drained {state : State} {text : List Char} (mode : state.mode = .comment)
    (skipped : text.all Comment.skips = true) :
    (state.run options extent true text).Drained := by
  induction text generalizing state with
  | nil => exact drained_nil options extent _
  | cons c text ih =>
    obtain ⟨location, tokens, checking, mode⟩ := state
    subst mode
    rw [List.all_cons, Bool.and_eq_true] at skipped
    have step : State.move options true ⟨location, tokens, checking, .comment⟩ (c :: text) =
        .read 1 .comment := if_pos skipped.1
    rw [run_eq, step]
    exact ih rfl skipped.2

theorem marker_drained {state : State} {text : List Char} (mode : state.mode = .between)
    (cut : breaksOffWithin text Comment.marker = true) :
    (state.run options extent true text).Drained := by
  obtain ⟨location, tokens, checking, mode⟩ := state
  subst mode
  obtain ⟨front, -⟩ := prefix_of_breaksOff cut
  cases text with
  | nil => exact drained_nil options extent _
  | cons c rest =>
    obtain rfl : c = '%' := (List.cons_prefix_cons.mp front).1
    have step : State.move options true ⟨location, tokens, checking, .between⟩ ('%' :: rest) =
        .read 1 .comment :=
      Comment.openMove_of_unmarked options checking location (Comment.unmarked_of_breaksOff cut)
    rw [run_eq, step]
    refine comment_drained options extent rfl ?_
    rw [List.all_eq_true]
    intro d listed
    exact Comment.skips_of_mem_marker (front.subset (List.mem_cons_of_mem _ listed))

end State

/-- At the end of the source all of a loose end is read. -/
theorem LooseEnd.drains {options : Options} (extent : Extent) {state : State} {text : List Char}
    (loose : LooseEnd options state.mode text) :
    (state.run options extent true text).Drained := by
  obtain ⟨location, tokens, checking, mode⟩ := state
  cases loose with
  | nothing => exact State.drained_nil options extent _
  | opening run =>
    cases text with
    | nil => exact State.drained_nil options extent _
    | cons c rest =>
      obtain rfl := head_of_isRun run
      exact State.drained_of_readsAll options extent (QuoteRun.readsAll location none run)
  | delimiter sigil run =>
    exact State.drained_of_readsAll options extent (sigil.readsAll location run)
  | closing blank run =>
    exact State.drained_of_readsAll options extent
      (TripleQuotedDraft.readsAll location blank run)
  | operator grows => exact State.operator_drained options extent rfl grows
  | char cut => exact State.drained_of_readsAll options extent (CharLiteral.readsAll location cut)
  | marker checks cut => exact State.marker_drained options extent rfl cut
  | separators digits run =>
    by_cases none : text = []
    · subst none
      exact State.drained_nil options extent _
    · exact State.drained_of_readsAll options extent (NumberDraft.readsAll digits run none)
  | @point draft value part =>
    have step : State.move options true ⟨location, tokens, checking, .number draft⟩ ['.'] =
        .emit 0 (.integer value) draft.lexeme .between := draft.move_of_point part
    refine State.drained_of_emit options extent step (by simp) ?_
    intro later mode
    exact later.operator_drained options extent mode (by decide)
  | escape inside escapes cut =>
    exact State.drained_of_readsAll options extent
      (QuotedDraft.readsAll location inside escapes cut)

/-! ## Suspended scans -/

namespace Suspension

/-- The suspended scans that chunks of text lead to, and those that have been given none. -/
inductive Reached : Suspension → Prop where
  | start (options : Options) (location : Location) : Reached (start options location)
  | next {scan later : Suspension} {text : List Char} (earlier : Reached scan)
      (resumed : scan.resume (.chunk text) = .suspended later) : Reached later

theorem wait_of_suspended {options : Options} {extent : Extent} {ended : Bool}
    {state later : State} {text rest : List Char}
    (suspends : state.run options extent ended text = .suspended later rest) :
    later.move options ended rest = .wait := by
  fun_induction State.run options extent ended state text with
  | case1 state text step =>
    obtain ⟨rfl, rfl⟩ := Halt.suspended.inj suspends
    exact step
  | case2 state text step => cases suspends
  | case3 state text width next step ih => exact ih suspends
  | case4 state text width kind lexeme next step state' stops_here => cases suspends
  | case5 state text width kind lexeme next step state' goes_on ih => exact ih suspends
  | case6 state text width error step => cases suspends
  | case7 state text width error finish step => cases suspends

theorem Reached.looseEnd {scan : Suspension} (reached : scan.Reached) :
    LooseEnd scan.options scan.state.mode scan.pending := by
  cases reached with
  | start options location => exact .nothing _
  | @next earlier _ text _ resumed =>
    unfold resume at resumed
    split at resumed
    · rename_i state rest suspends
      obtain rfl := Step.suspended.inj resumed
      exact State.looseEnd_of_wait (wait_of_suspended suspends)
    · cases resumed

/-- **The end of the source resolves everything.** A scan that chunks of text have left
suspended finishes when it is told that no more will come, and no text is left of what was
pending. No scan at all is left suspended by a text that is known to be the last. -/
theorem ended_leaves_nothing {scan : Suspension} (reached : scan.Reached) :
    (∃ outcome, scan.resume .ended = .finished outcome none) ∧
      ∀ extent text, ∃ outcome rest,
        scan.state.run scan.options extent true text = .stopped outcome rest := by
  refine ⟨?_, fun extent text => scan.state.run_ended scan.options extent text⟩
  obtain ⟨outcome, rest, stops⟩ := scan.state.run_ended scan.options .form scan.pending
  have drained := reached.looseEnd.drains .form
  rw [stops] at drained
  obtain rfl : rest = [] := drained
  refine ⟨outcome, ?_⟩
  simp only [resume, Input.text, Input.isEnd, List.append_nil, stops]
  rfl

/-- A chunk that breaks off within the braces of an escape. -/
theorem ended_leaves_nothing_of_escape :
    ∃ scan, (start default ⟨1, some 1⟩).resume (.chunk "a=$\\x\x7b4".toList) = .suspended scan ∧
      scan.pending = "$\\x\x7b4".toList ∧
      ∃ outcome, scan.resume .ended = .finished outcome none := by
  have run : (State.fresh ⟨1, some 1⟩).run default .form false "a=$\\x\x7b4".toList =
      .suspended ⟨⟨1, some 3⟩, #[⟨.atom "a", ⟨1, some 1⟩, none⟩,
        ⟨.operator .matches, ⟨1, some 2⟩, none⟩], false, .between⟩ "$\\x\x7b4".toList := by
    decide +kernel
  have resumed : (start default ⟨1, some 1⟩).resume (.chunk "a=$\\x\x7b4".toList) =
      .suspended ⟨default, ⟨⟨1, some 3⟩, #[⟨.atom "a", ⟨1, some 1⟩, none⟩,
        ⟨.operator .matches, ⟨1, some 2⟩, none⟩], false, .between⟩, "$\\x\x7b4".toList⟩ := by
    simp only [resume, start, Input.isEnd, Input.text, List.nil_append, run]
  exact ⟨_, resumed, rfl, (ended_leaves_nothing (.next (.start _ _) resumed)).1⟩

end Suspension

end ErlangLexer
