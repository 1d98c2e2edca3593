import ErlangLexer.Proofs.Findings
import ErlangLexer.Proofs.FormLocation
import ErlangLexer.Proofs.Numeral

/-!
# What a scan comes to by what it reads

A reading of the text in front of a scan is a token of so many characters, or an error behind so
many:

* `State.past`: how a scan goes on behind what it reads, or stops there;
* `State.run_of_reading`: a scan whose move is the reading does so;
* `State.run_seen`: with some of the text only, it waits or does the same;
* `Suspension.found_of_past`: and so for all that a feed finds, however the text is cut.
-/

namespace ErlangLexer

namespace Reading

/-- How many characters are read. -/
def width : Reading → Nat
  | .token _ width | .wrong _ width => width

/-- The move that reads all of it. -/
def move (here : Location) (text : List Char) (next : Mode) : Reading → Move
  | .token kind width => .emit width kind (.front here text width) next
  | .wrong cause width => .fail width ⟨here, cause⟩

theorem move_inj {here : Location} {text : List Char} {next : Mode} {one other : Reading}
    (same : one.move here text next = other.move here text next) : one = other := by
  cases one with
  | token kind width =>
    cases other with
    | token =>
      obtain ⟨rfl, rfl, -⟩ := Move.emit.inj same
      rfl
    | wrong => cases same
  | wrong cause width =>
    cases other with
    | token => cases same
    | wrong =>
      obtain ⟨rfl, error⟩ := Move.fail.inj same
      rw [(LexicalError.mk.inj error).2]

theorem move_append {reading : Reading} (here : Location) {text : List Char} (more : List Char)
    (next : Mode) (within : reading.width ≤ text.length) :
    reading.move here (text ++ more) next = reading.move here text next := by
  cases reading with
  | token kind width =>
    have front : (text ++ more).take width = text.take width :=
      List.take_append_of_le_length within
    simp only [move, Lexeme.front, front]
  | wrong cause width => rfl

theorem width_le_of_fits {reading : Reading} {here : Location} {text front : List Char}
    {next mode : Mode} {ended : Bool} (fits : (reading.move here front next).Fits text ended mode) :
    reading.width ≤ text.length := by
  cases reading with
  | token | wrong => exact fits.1

end Reading

/-- Behind a token that leads to another mode. -/
def State.beyond (options : Options) (state : State) (kind : Kind) (source : List Char)
    (next : Mode) : State :=
  { state.behindToken options kind source with mode := next }

/-- How a scan goes on behind what it reads, or stops there. -/
def State.past (options : Options) (extent : Extent) (ended : Bool) (state : State)
    (text : List Char) (next : Mode) : Reading → Halt
  | .token kind width =>
    let later := state.beyond options kind (text.take width) next
    if kind = .dot ∧ extent = .form then .stopped later.outcome (text.drop width)
    else later.run options extent ended (text.drop width)
  | .wrong cause width =>
    .stopped (.error ⟨state.location, cause⟩ (state.location.walk (text.take width)))
      (text.drop width)

namespace State

variable {options : Options} {extent : Extent} {ended : Bool} {state : State} {text : List Char}
  {next : Mode} {reading : Reading}

theorem run_of_reading
    (step : state.move options ended text = reading.move state.location text next) :
    state.run options extent ended text = state.past options extent ended text next reading := by
  rw [run_eq, step]
  cases reading <;> rfl

/-- With some of the text only, a scan waits or does the same. -/
theorem move_seen {seen unseen : List Char} {move : Move}
    (step : state.move options ended (seen ++ unseen) = move) :
    state.move options false seen = .wait ∨ state.move options false seen = move := by
  by_cases waits : state.move options false seen = .wait
  · exact .inl waits
  · exact .inr ((move_append unseen ended rfl waits).symm.trans step)

/-- As long as the scan has seen some of the text only, it waits in front of it, unless all that
it is going to read is there. -/
theorem run_seen {seen unseen : List Char}
    (step : state.move options ended (seen ++ unseen) =
      reading.move state.location (seen ++ unseen) next) :
    state.run options extent false seen = .suspended state seen ∨
      reading.width ≤ seen.length ∧ state.run options extent false seen =
        state.past options extent false seen next reading := by
  rcases move_seen step with waits | known
  · left
    rw [run_eq, waits]
  · right
    have within := Reading.width_le_of_fits (known ▸ state.move_fits options false seen)
    rw [Reading.move_append state.location unseen next within] at known
    exact ⟨within, run_of_reading known⟩

end State

namespace Suspension

/-- What is found behind what is read. -/
def foundPast (options : Options) (state : State) (text : List Char) (next : Mode) :
    Reading → List Outcome
  | .token kind width =>
    let later := state.beyond options kind (text.take width) next
    if kind = .dot then later.outcome :: (start options later.location).found [text.drop width]
    else goOn options later (text.drop width)
  | .wrong cause width =>
    let finish := state.location.walk (text.take width)
    .error ⟨state.location, cause⟩ finish :: (start options finish).found [text.drop width]

theorem found_of_past {scan : Suspension} {queue : List (List Char)} {state : State}
    {text : List Char} {next : Mode} {reading : Reading}
    (ahead : scan.ahead queue = state.past scan.options .form true text next reading) :
    scan.found queue = foundPast scan.options state text next reading := by
  cases reading with
  | token kind width =>
    by_cases dot : kind = .dot
    · have some : (state.beyond scan.options kind (text.take width) next).outcome.isNothing =
          false := by
        simp [State.beyond, State.behindToken, State.outcome, Outcome.isNothing]
      have stops := ahead.trans (if_pos ⟨dot, rfl⟩)
      rw [found_of_stopped stops some, State.finish_outcome, foundPast, if_pos dot]
    · rw [found_of_run_state (ahead.trans (if_neg fun stops => dot stops.1)), foundPast,
        if_neg dot]
  | wrong cause width => exact found_of_stopped ahead rfl

/-- A feed finds what the run from a state that its scan passes comes to. -/
theorem ahead_of_reached {options : Options} {origin : Location} {queue : List (List Char)}
    {state : State} {text : List Char}
    (reached : State.Reached options .form true origin queue.flatten state text) :
    (start options origin).ahead queue = state.run options .form true text := by
  rw [ahead_start, reached.run_eq]

end Suspension

end ErlangLexer
