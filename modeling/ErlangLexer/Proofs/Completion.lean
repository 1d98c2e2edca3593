import ErlangLexer.Scan

/-!
# What a mode comes to

Each mode ends with tokens of its own kinds, and hands over to a mode of its own:

* `Completes`: the kinds of tokens a mode may end with, and the mode behind each of them;
* `Stage`: how much of a sigil has become tokens, which only a token changes;
* `State.move_follows`: every move in every mode follows these rules.
-/

namespace ErlangLexer

/-- The tokens that a mode may end with, and the mode behind each of them. -/
inductive Completes (options : Options) (checking : Bool) : Mode → Kind → Mode → Prop where
  | char (value : Char) : Completes options checking .between (.char value) .between
  | emptyString : Completes options checking .between (.string "") .afterString
  | checkOpen (outside : checking = false) : Completes options checking .between .checkOpen .between
  | checkClose (within : checking = true) : Completes options checking .between .checkClose .between
  /-- A form does not end within a check annotation. -/
  | dot (outside : checking = false) : Completes options checking .between .dot .between
  | operator (op : Operator) : Completes options checking .between (.operator op) .between
  | symbol (c : Char) : Completes options checking .between (.symbol c) .between
  | name (draft : NameDraft) :
      Completes options checking (.name draft) (draft.kind options) draft.next
  | number {draft : NumberDraft} {kind : Kind} (value : draft.part.kind? = some kind) :
      Completes options checking (.number draft) kind .between
  | quotedAtom {draft : QuotedDraft} (atom : draft.quotation = .atom) :
      Completes options checking (.quoted draft) (.atom draft.value) .between
  | string {draft : QuotedDraft} (string : draft.quotation = .string) :
      Completes options checking (.quoted draft) (.string draft.value) .afterString
  | sigilString {draft : QuotedDraft} {verbatim : Bool} (sigil : draft.quotation = .sigil verbatim)
      (start : Location) (quoted : Bool) :
      Completes options checking (.quoted draft) (.string draft.value)
        (.name ⟨start, .sigilSuffix quoted, ""⟩)
  | emptySigil (sigil : Sigil) (start : Location) :
      Completes options checking (.sigil sigil) (.string "") (.name ⟨start, .sigilSuffix true, ""⟩)
  | tripleQuoted {draft : TripleQuotedDraft} (plain : draft.sigil = none) (value : String) :
      Completes options checking (.tripleQuoted draft) (.string value) .between
  | tripleQuotedSigil {draft : TripleQuotedDraft} {sigil : Sigil}
      (sigils : draft.sigil = some sigil)
      (value : String) (start : Location) :
      Completes options checking (.tripleQuoted draft) (.string value)
        (.name ⟨start, .sigilSuffix false, ""⟩)

/-- How much of a sigil has become tokens. -/
inductive Stage where
  | outside
  | behindPrefix
  | behindString
  deriving DecidableEq

/-- Whether the name of a sigil is to come behind a name. -/
def NameRole.stage : NameRole → Stage
  | .sigilSuffix _ => .behindString
  | _ => .outside

def Quotation.stage : Quotation → Stage
  | .sigil _ => .behindPrefix
  | _ => .outside

/-- The stage of a string in quotes, which may be that of a sigil. -/
def Sigil.stage : Option Sigil → Stage
  | some _ => .behindPrefix
  | none => .outside

namespace Mode

def stage : Mode → Stage
  | .name draft => draft.role.stage
  | .quoted draft => draft.quotation.stage
  | .sigil _ => .behindPrefix
  | .tripleQuoted draft => Sigil.stage draft.sigil
  | _ => .outside

end Mode

/-- Directly behind a token that belongs to no sigil, or is the last one of a sigil. -/
def Mode.Rests (mode : Mode) : Prop :=
  mode = .between ∨ mode = .afterString

/-- What a token does to the stage. -/
inductive Stage.Advances : Stage → Kind → Mode → Prop where
  | lone {kind : Kind} {next : Mode} (opens : ∀ name, kind ≠ .sigilPrefix name)
      (closes : ∀ name, kind ≠ .sigilSuffix name) (rests : next.Rests) :
      Advances .outside kind next
  | opens (name : String) {next : Mode} (stage : next.stage = .behindPrefix) :
      Advances .outside (.sigilPrefix name) next
  | holds (value : String) {next : Mode} (stage : next.stage = .behindString) :
      Advances .behindPrefix (.string value) next
  | closes (name : String) {next : Mode} (rests : next.Rests) :
      Advances .behindString (.sigilSuffix name) next

/-- A move from a mode ends it with a token of its own, or stays in its stage. The text is at
its end only between tokens. -/
def Move.Follows (options : Options) (checking : Bool) (mode : Mode) : Move → Prop
  | .finish => mode = .between
  | .read _ next => next.stage = mode.stage
  | .emit _ kind _ next => Completes options checking mode kind next
  | _ => True

theorem Comment.openMove_follows (options : Options) (checking : Bool) (here : Location)
    (text : List Char) (ended : Bool) :
    (openMove options checking here text ended).Follows options checking .between := by
  simp only [openMove]
  split
  · split
    · exact rfl
    · rename_i outside
      exact .checkOpen (Bool.eq_false_iff.mpr outside)
  · split
    · trivial
    · exact rfl

theorem Comment.move_follows (options : Options) (checking : Bool) (text : List Char)
    (ended : Bool) : (move text ended).Follows options checking .comment := by
  simp only [move]
  split <;> split
  · exact rfl
  · trivial
  · exact rfl
  · exact rfl

theorem AfterString.move_follows (options : Options) (checking : Bool) (here : Location)
    (text : List Char) (ended : Bool) :
    (move here text ended).Follows options checking .afterString := by
  simp only [move]
  split <;> split
  · exact rfl
  · trivial
  · trivial
  · exact rfl

theorem NameDraft.move_follows (draft : NameDraft) (options : Options) (checking : Bool)
    (text : List Char) (ended : Bool) :
    (draft.move options text ended).Follows options checking (.name draft) := by
  have completes : (draft.complete options).Follows options checking (.name draft) := by
    simp only [complete]
    split
    · trivial
    · exact .name draft
  simp only [move]
  split <;> split
  · exact completes
  · trivial
  · exact rfl
  · exact completes

namespace NumberDraft

variable (draft : NumberDraft) (options : Options) (checking : Bool)

theorem complete_follows : draft.complete.Follows options checking (.number draft) := by
  simp only [complete]
  split
  · exact .number ‹_›
  · trivial

theorem underscores_follows (text : List Char) (ended : Bool) :
    (draft.underscores text ended).Follows options checking (.number draft) := by
  simp only [underscores]
  repeat' split
  · trivial
  · trivial
  · exact rfl
  · trivial
  · trivial
  · exact draft.complete_follows options checking

theorem point_follows (value : Nat) (text : List Char) (ended : Bool) :
    (draft.point value text ended).Follows options checking (.number draft) := by
  simp only [point]
  repeat' split
  · exact draft.complete_follows options checking
  · trivial
  · exact rfl
  · exact draft.complete_follows options checking

theorem mark_follows (c : Char) (text : List Char) (ended : Bool) :
    (draft.mark c text ended).Follows options checking (.number draft) := by
  have completes := draft.complete_follows options checking
  simp only [mark, base]
  repeat' split
  · exact draft.point_follows options checking _ text ended
  · exact rfl
  · trivial
  · exact completes
  · exact rfl
  · exact completes
  · exact rfl
  · exact rfl
  · exact rfl
  · exact completes
  · exact completes
  · exact completes

theorem move_follows (text : List Char) (ended : Bool) :
    (draft.move text ended).Follows options checking (.number draft) := by
  simp only [move]
  repeat' split
  · exact draft.complete_follows options checking
  · trivial
  · exact rfl
  · exact draft.underscores_follows options checking _ ended
  · exact draft.mark_follows options checking _ _ ended

end NumberDraft

theorem QuotedDraft.complete_follows (draft : QuotedDraft) (options : Options) (checking : Bool)
    (here : Location) (text : List Char) :
    (draft.complete here text).Follows options checking (.quoted draft) := by
  simp only [complete]
  split
  · split
    · trivial
    · exact .quotedAtom ‹_›
  · exact .string ‹_›
  · exact .sigilString ‹_› _ _

theorem QuotedDraft.move_follows (draft : QuotedDraft) (options : Options) (checking : Bool)
    (here : Location) (text : List Char) (ended : Bool) :
    (draft.move here text ended).Follows options checking (.quoted draft) := by
  simp only [move, escape]
  repeat' split
  · trivial
  · trivial
  · exact draft.complete_follows options checking here _
  · exact rfl
  · exact rfl
  · trivial
  · trivial
  · trivial
  · exact rfl
  · trivial

namespace TripleQuotedDraft

theorem sigil_push (draft : TripleQuotedDraft) (c : Char) :
    (draft.push c).sigil = draft.sigil := by
  simp only [push]
  split
  · rfl
  · split <;> rfl

theorem sigil_pushFront (draft : TripleQuotedDraft) (text : List Char) (width : Nat) :
    (draft.pushFront text width).sigil = draft.sigil := by
  have pushed (front : List Char) (draft : TripleQuotedDraft) :
      (front.foldl push draft).sigil = draft.sigil := by
    induction front generalizing draft with
    | nil => rfl
    | cons c front ih => rw [List.foldl_cons, ih, sigil_push]
  exact pushed (text.take width) draft

variable (draft : TripleQuotedDraft) (options : Options) (checking : Bool) (here : Location)

theorem complete_follows (text : List Char) :
    (draft.complete here text).Follows options checking (.tripleQuoted draft) := by
  simp only [complete]
  split
  · split
    · exact .tripleQuotedSigil ‹_› _ _
    · exact .tripleQuoted ‹_› _
  · trivial

theorem move_follows (text : List Char) (ended : Bool) :
    (draft.move here text ended).Follows options checking (.tripleQuoted draft) := by
  simp only [move, quoteRun]
  repeat' split
  · trivial
  · trivial
  · trivial
  · trivial
  · exact draft.complete_follows options checking here _
  · exact congrArg Sigil.stage (draft.sigil_pushFront _ _)
  · exact congrArg Sigil.stage (draft.sigil_push _)

end TripleQuotedDraft

/-- What a run of quotes opens is in the stage of the sigil it belongs to, if any. -/
theorem QuoteRun.move_follows (options : Options) (checking : Bool) (here : Location)
    (sigil : Option Sigil) (text : List Char) (ended : Bool) {mode : Mode}
    (stage : mode.stage = Sigil.stage sigil)
    (empty : Completes options checking mode (.string "")
      (afterEmpty (here.walk (text.take 2)) sigil)) :
    (move here sigil text ended).Follows options checking mode := by
  simp only [move]
  repeat' split
  · trivial
  · refine Eq.trans ?_ stage.symm
    cases sigil <;> rfl
  · exact empty
  · exact stage.symm

theorem Sigil.move_follows (sigil : Sigil) (options : Options) (checking : Bool) (here : Location)
    (text : List Char) (ended : Bool) :
    (sigil.move here text ended).Follows options checking (.sigil sigil) := by
  simp only [move]
  repeat' split
  · trivial
  · trivial
  · exact QuoteRun.move_follows options checking here _ _ ended rfl (.emptySigil sigil _)
  · exact rfl
  · trivial

theorem CharLiteral.move_follows (options : Options) (checking : Bool) (here : Location)
    (rest : List Char) (ended : Bool) :
    (move here rest ended).Follows options checking .between := by
  simp only [move]
  repeat' split
  · trivial
  · trivial
  · exact .char _
  · exact .char _
  · trivial
  · trivial
  · trivial
  · exact .char _
  · trivial

theorem Punctuation.move_follows (options : Options) (checking : Bool) (here : Location) (c : Char)
    (rest : List Char) (ended : Bool) :
    (move checking here c rest ended).Follows options checking .between := by
  simp only [move]
  split
  · trivial
  · split
    · split
      · cases checking with
        | false => exact .dot rfl
        | true => exact .checkClose rfl
      · exact .operator _
    · split
      · exact .symbol _
      · trivial

theorem Between.move_follows (options : Options) (checking : Bool) (here : Location)
    (text : List Char) (ended : Bool) :
    (move options checking here text ended).Follows options checking .between := by
  simp only [move]
  split
  · split
    · exact rfl
    · trivial
  repeat' split
  · exact rfl
  · exact rfl
  · exact rfl
  · exact rfl
  · exact QuoteRun.move_follows options checking here none _ ended rfl .emptyString
  · exact rfl
  · exact CharLiteral.move_follows options checking here _ ended
  · exact rfl
  · exact Comment.openMove_follows options checking here _ ended
  · exact Punctuation.move_follows options checking here _ _ ended

/-! ## Stages -/

theorem NameDraft.advances (options : Options) (draft : NameDraft) :
    draft.role.stage.Advances (draft.kind options) draft.next := by
  obtain ⟨start, role, name⟩ := draft
  rcases role with _ | _ | _ | quoted
  · refine .lone ?_ ?_ (.inl rfl)
    all_goals
      intro word
      simp only [kind]
      split <;> simp
  · exact .lone (by simp [kind]) (by simp [kind]) (.inl rfl)
  · exact .opens name rfl
  · refine .closes name ?_
    cases quoted with
    | false => exact .inl rfl
    | true =>
      by_cases none : name = ""
      · exact .inr (if_pos none)
      · exact .inl (if_neg none)

theorem NumberPart.kind_of_value {part : NumberPart} {kind : Kind}
    (value : part.kind? = some kind) : (∃ n, kind = .integer n) ∨ ∃ x, kind = .float x := by
  cases part with
  | whole n => exact .inl ⟨n, (Option.some.inj value).symm⟩
  | based base digits =>
    obtain ⟨n, -, rfl⟩ := Option.map_eq_some_iff.mp value
    exact .inl ⟨n, rfl⟩
  | fraction mantissa places =>
    obtain ⟨x, -, rfl⟩ := Option.map_eq_some_iff.mp value
    exact .inr ⟨x, rfl⟩
  | sign mantissa places => cases value
  | exponent mantissa places negative digits =>
    obtain ⟨e, -, float⟩ := Option.bind_eq_some_iff.mp value
    obtain ⟨x, -, rfl⟩ := Option.map_eq_some_iff.mp float
    exact .inr ⟨x, rfl⟩

theorem NumberPart.isLone {part : NumberPart} {kind : Kind} (value : part.kind? = some kind) :
    (∀ name, kind ≠ .sigilPrefix name) ∧ ∀ name, kind ≠ .sigilSuffix name := by
  rcases kind_of_value value with ⟨n, rfl⟩ | ⟨x, rfl⟩
  · simp
  · simp

theorem Completes.advances {options : Options} {checking : Bool} {mode next : Mode} {kind : Kind}
    (completes : Completes options checking mode kind next) : mode.stage.Advances kind next := by
  cases completes with
  | char value => exact .lone (by simp) (by simp) (.inl rfl)
  | emptyString => exact .lone (by simp) (by simp) (.inr rfl)
  | checkOpen outside => exact .lone (by simp) (by simp) (.inl rfl)
  | checkClose within => exact .lone (by simp) (by simp) (.inl rfl)
  | dot outside => exact .lone (by simp) (by simp) (.inl rfl)
  | operator op => exact .lone (by simp) (by simp) (.inl rfl)
  | symbol c => exact .lone (by simp) (by simp) (.inl rfl)
  | name draft => exact draft.advances options
  | number value =>
    obtain ⟨opens, closes⟩ := NumberPart.isLone value
    exact .lone opens closes (.inl rfl)
  | quotedAtom atom =>
    simp only [Mode.stage, atom]
    exact .lone (by simp) (by simp) (.inl rfl)
  | string string =>
    simp only [Mode.stage, string]
    exact .lone (by simp) (by simp) (.inr rfl)
  | sigilString sigil start quoted =>
    simp only [Mode.stage, sigil]
    exact .holds _ rfl
  | emptySigil sigil start => exact .holds _ rfl
  | tripleQuoted plain value =>
    simp only [Mode.stage, plain]
    exact .lone (by simp) (by simp) (.inl rfl)
  | tripleQuotedSigil sigils value start =>
    simp only [Mode.stage, sigils]
    exact .holds _ rfl

/-- Every move ends its mode with a token of its own, or stays in the stage. -/
theorem State.move_follows (options : Options) (ended : Bool) (state : State) (text : List Char) :
    (state.move options ended text).Follows options state.checking state.mode := by
  obtain ⟨location, tokens, checking, mode⟩ := state
  cases mode with
  | between => exact Between.move_follows options checking location text ended
  | comment => exact Comment.move_follows options checking text ended
  | name draft => exact draft.move_follows options checking text ended
  | number draft => exact draft.move_follows options checking text ended
  | quoted draft => exact draft.move_follows options checking location text ended
  | afterString => exact AfterString.move_follows options checking location text ended
  | sigil sigil => exact sigil.move_follows options checking location text ended
  | tripleQuoted draft => exact draft.move_follows options checking location text ended

namespace State

variable {options : Options} {ended : Bool} {state : State} {text : List Char}

theorem mode_of_finish (moved : state.move options ended text = .finish) :
    state.mode = .between := by
  have follows := state.move_follows options ended text
  rw [moved] at follows
  exact follows

theorem stage_of_read {width : Nat} {next : Mode}
    (moved : state.move options ended text = .read width next) :
    next.stage = state.mode.stage := by
  have follows := state.move_follows options ended text
  rw [moved] at follows
  exact follows

theorem completes_of_emit {width : Nat} {kind : Kind} {lexeme : Lexeme} {next : Mode}
    (moved : state.move options ended text = .emit width kind lexeme next) :
    Completes options state.checking state.mode kind next := by
  have follows := state.move_follows options ended text
  rw [moved] at follows
  exact follows

end State

end ErlangLexer
