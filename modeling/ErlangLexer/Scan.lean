import ErlangLexer.Between

/-!
# Scans

A scan repeats moves until one of them ends it. The location is walked over exactly
the characters that are read, so a token is where its first character is.

* `State.move_fits`: every move lowers three times the characters left plus the
  rank of the mode, so the moves of `State.run` come to an end;
* `Halt.Within`: a scan that stops has read a character or left a mode, and one that
  is suspended has not gone back;
* `State.run_ended`: a scan of the last text there is stops.
-/

namespace ErlangLexer

/-- What a finished scan found. -/
inductive Outcome where
  /-- The tokens of a form, or the last ones of the text. -/
  | tokens (list : Array Token) (finish : Location)
  /-- The text ended without a token. -/
  | nothing (finish : Location)
  | error (error : LexicalError) (finish : Location)
  deriving DecidableEq

namespace Outcome

/-- Where the next scan starts. -/
def finish : Outcome → Location
  | .tokens _ finish | .nothing finish | .error _ finish => finish

def isNothing : Outcome → Bool
  | .nothing _ => true
  | _ => false

end Outcome

/-- How far a scan goes. -/
inductive Extent where
  /-- To the end of the first form. -/
  | form
  /-- To the end of the text. -/
  | text
  deriving DecidableEq

/-- A scan between two moves. -/
structure State where
  location : Location
  tokens : Array Token
  /-- Within a check annotation. -/
  checking : Bool
  mode : Mode
  deriving DecidableEq

/-- A scan that has come to a halt, with the text it has not read. -/
inductive Halt where
  /-- More text decides how it goes on. -/
  | suspended (state : State) (rest : List Char)
  | stopped (outcome : Outcome) (rest : List Char)
  deriving DecidableEq

namespace State

/-- A scan that has read nothing. -/
def fresh (location : Location) : State :=
  ⟨location, #[], false, .between⟩

/-- What to do next. -/
def move (options : Options) (ended : Bool) (state : State) (text : List Char) : Move :=
  match state.mode with
  | .between => Between.move options state.checking state.location text ended
  | .comment => Comment.move text ended
  | .name draft => draft.move options text ended
  | .number draft => draft.move text ended
  | .quoted draft => draft.move state.location text ended
  | .afterString => AfterString.move state.location text ended
  | .sigil sigil => sigil.move state.location text ended
  | .tripleQuoted draft => draft.move state.location text ended

theorem move_fits (options : Options) (ended : Bool) (state : State) (text : List Char) :
    (state.move options ended text).Fits text ended state.mode := by
  simp only [move]
  split <;> rename_i h <;> rw [h]
  · exact Between.move_fits _ _ _ _ _
  · exact Comment.move_fits _ _
  · exact NameDraft.move_fits _ _ _ _
  · exact NumberDraft.move_fits _ _ _
  · exact QuotedDraft.move_fits _ _ _ _
  · exact AfterString.move_fits _ _ _
  · exact Sigil.move_fits _ _ _ _
  · exact TripleQuotedDraft.move_fits _ _ _ _

/-- Behind some characters, in another mode. -/
def read (state : State) (text : List Char) (width : Nat) (next : Mode) : State :=
  { state with location := state.location.walk (text.take width), mode := next }

/-- A check annotation runs from its marker to its dot. -/
def checkingAfter (checking : Bool) : Kind → Bool
  | .checkOpen => true
  | .checkClose => false
  | _ => checking

/-- With one more token. It keeps its source text if the scan captures it. -/
def record (options : Options) (state : State) (kind : Kind) (lexeme : Lexeme) : State :=
  let text := if options.captureText then some lexeme.source else none
  { state with
    tokens := state.tokens.push ⟨kind, lexeme.start, text⟩
    checking := checkingAfter state.checking kind }

/-- The outcome of a scan that meets the end of its form or of the text. -/
def outcome (state : State) : Outcome :=
  if state.tokens.isEmpty then .nothing state.location
  else .tokens state.tokens state.location

/-- What is left to be done. -/
def potential (state : State) (text : List Char) : Nat :=
  3 * text.length + state.mode.rank

theorem potential_read_lt {state : State} {text : List Char} {width : Nat} {next : Mode}
    (fits : width ≤ text.length ∧ next.rank < 3 * width + state.mode.rank) :
    (state.read text width next).potential (text.drop width) < state.potential text := by
  simp only [potential, read, List.length_drop]
  omega

/-- Move until the scan halts. With `ended` no more text will come. -/
def run (options : Options) (extent : Extent) (ended : Bool) (state : State)
    (text : List Char) : Halt :=
  match _h : state.move options ended text with
  | .wait => .suspended state text
  | .finish => .stopped state.outcome text
  | .read width next =>
    run options extent ended (state.read text width next) (text.drop width)
  | .emit width kind lexeme next =>
    let state' := (state.record options kind lexeme).read text width next
    if kind = .dot ∧ extent = .form then .stopped state'.outcome (text.drop width)
    else run options extent ended state' (text.drop width)
  | .fail width error =>
    .stopped (.error error (state.location.walk (text.take width))) (text.drop width)
  | .reject width error finish => .stopped (.error error finish) (text.drop width)
termination_by state.potential text
decreasing_by
  all_goals
    have fits := state.move_fits options ended text
    rw [_h] at fits
    exact potential_read_lt fits

end State

/-- A halt has got somewhere. A suspended scan has no more to do than there was, and a
stopped one has less or has read all of the text. -/
def Halt.Within (potential : Nat) (ended : Bool) : Halt → Prop
  | .suspended state rest => ended = false ∧ state.potential rest ≤ potential
  | .stopped _ rest => 3 * rest.length < potential ∨ (ended = true ∧ rest = [])

theorem Halt.Within.mono {m n : Nat} {ended : Bool} {halt : Halt} (h : halt.Within m ended)
    (le : m ≤ n) : halt.Within n ended := by
  cases halt with
  | suspended => exact ⟨h.1, Nat.le_trans h.2 le⟩
  | stopped => exact h.imp_left fun less => Nat.lt_of_lt_of_le less le

theorem State.run_within (options : Options) (extent : Extent) (ended : Bool) (state : State)
    (text : List Char) :
    (state.run options extent ended text).Within (state.potential text) ended := by
  fun_induction State.run options extent ended state text with
  | case1 state text step =>
    have fits := state.move_fits options ended text
    rw [step] at fits
    exact ⟨fits, Nat.le_refl _⟩
  | case2 state text step =>
    have fits := state.move_fits options ended text
    rw [step] at fits
    exact .inr ⟨fits.2, fits.1⟩
  | case3 state text width next step ih =>
    have fits := state.move_fits options ended text
    rw [step] at fits
    exact ih.mono (Nat.le_of_lt (State.potential_read_lt fits))
  | case4 state text width kind lexeme next step state' stops =>
    have fits := state.move_fits options ended text
    rw [step] at fits
    simp only [Move.Fits] at fits
    simp only [Halt.Within, potential, List.length_drop]
    omega
  | case5 state text width kind lexeme next step state' goes_on ih =>
    have fits := state.move_fits options ended text
    rw [step] at fits
    exact ih.mono (Nat.le_of_lt (State.potential_read_lt fits))
  | case6 state text width error step =>
    have fits := state.move_fits options ended text
    rw [step] at fits
    simp only [Move.Fits] at fits
    simp only [Halt.Within, potential, List.length_drop]
    omega
  | case7 state text width error finish step =>
    have fits := state.move_fits options ended text
    rw [step] at fits
    simp only [Move.Fits] at fits
    simp only [Halt.Within, potential, List.length_drop]
    omega

/-- A scan is never left suspended when no more text will come. -/
theorem State.run_ended (options : Options) (extent : Extent) (state : State)
    (text : List Char) :
    ∃ outcome rest, state.run options extent true text = .stopped outcome rest := by
  have within := state.run_within options extent true text
  cases halt : state.run options extent true text with
  | suspended later rest =>
    rw [halt] at within
    exact absurd within.1 (by decide)
  | stopped outcome rest => exact ⟨outcome, rest, rfl⟩

end ErlangLexer
