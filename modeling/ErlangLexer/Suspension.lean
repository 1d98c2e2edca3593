import ErlangLexer.Scan

/-!
# Suspended scans

Source text arrives in chunks. Each chunk either finishes the scan of a form or
leaves it suspended, with the text it could not decide about yet. To resume is to go
on as if the pending text and the new chunk had come as one piece.

* `Suspension.resume_within`: a resumed scan never has more to do than before, and
  the end of the text never leaves it suspended.
-/

namespace ErlangLexer

/-- What a scan is given to go on with. -/
inductive Input where
  | chunk (text : List Char)
  /-- No more text will come. -/
  | ended
  deriving DecidableEq

namespace Input

def text : Input → List Char
  | .chunk text => text
  | .ended => []

def isEnd : Input → Bool
  | .chunk _ => false
  | .ended => true

end Input

/-- A scan that waits for more text. It keeps the options it was started with. -/
structure Suspension where
  options : Options
  state : State
  /-- The text that is not decided yet. -/
  pending : List Char

/-- What a scan has come to. -/
inductive Step where
  | suspended (scan : Suspension)
  /-- The text that is left, or none at all when all of it is read and no more will come. -/
  | finished (outcome : Outcome) (rest : Option (List Char))

/-- The outcome, if the scan has finished. -/
def Step.outcome? : Step → Option Outcome
  | .suspended _ => none
  | .finished outcome _ => some outcome

namespace Suspension

/-- A scan that has been given no text yet. -/
def start (options : Options) (location : Location) : Suspension :=
  ⟨options, .fresh location, []⟩

/-- Go on with more text, or with the end of it. -/
def resume (scan : Suspension) (input : Input) : Step :=
  match scan.state.run scan.options .form input.isEnd (scan.pending ++ input.text) with
  | .suspended state rest => .suspended { scan with state := state, pending := rest }
  | .stopped outcome rest =>
    .finished outcome (if input.isEnd && rest.isEmpty then none else some rest)

/-- What is left to be done. -/
def potential (scan : Suspension) : Nat :=
  scan.state.potential scan.pending

theorem potential_start (options : Options) (location : Location) :
    (start options location).potential = 0 := rfl

theorem resume_within (scan : Suspension) (input : Input) :
    match scan.resume input with
    | .suspended next =>
      input.isEnd = false ∧ next.options = scan.options ∧
        next.potential ≤ scan.potential + 3 * input.text.length
    | .finished _ none => input.isEnd = true
    | .finished _ (some rest) => 3 * rest.length < scan.potential + 3 * input.text.length := by
  have within := scan.state.run_within scan.options .form input.isEnd (scan.pending ++ input.text)
  have total : scan.state.potential (scan.pending ++ input.text) =
      scan.potential + 3 * input.text.length := by
    simp only [State.potential, potential, List.length_append]
    omega
  rw [total] at within
  unfold resume
  cases halt : scan.state.run scan.options .form input.isEnd (scan.pending ++ input.text) with
  | suspended state rest =>
    rw [halt] at within
    exact ⟨within.1, rfl, within.2⟩
  | stopped outcome rest =>
    rw [halt] at within
    rcases within with less | ⟨last, rfl⟩
    · by_cases h : input.isEnd && rest.isEmpty
      · simp_all
      · simp [h, less]
    · simp [last]

end Suspension

/-- Scan one chunk: of a suspended scan, which keeps its own options, or of a new one. -/
def scan (suspension : Option Suspension) (input : Input) (location : Location)
    (options : Options) : Step :=
  (suspension.getD (.start options location)).resume input

end ErlangLexer
