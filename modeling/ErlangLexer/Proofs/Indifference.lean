import ErlangLexer.Proofs.View

/-!
# Locations and source texts steer nothing

Two callers give the same inputs to scans that start at different locations, or of which
only some capture source texts. Whatever the one sees, the other sees:

* `View.blind`: what is left of a scan without locations and source texts;
* `View.columnless`: what is left without columns and source texts;
* `steps`: all steps of a caller who starts a new scan behind each that has finished;
* `steps_indifferent`: two such callers see the same, and where only the columns are
  missing to the one, the same lines too.
-/

namespace ErlangLexer

namespace View

/-- All locations in one place, and no source texts. -/
def blind : View := nowhere false

/-- No columns and no source texts. -/
def columnless : View where
  place location := ⟨location.line, none⟩
  line := id
  texts := false
  place_next location c := by
    simp only [Location.next]
    split <;> rfl
  place_shift _ _ := rfl
  place_line _ := rfl
  place_onLine _ _ _ := rfl

/-- The locations as they are, and no source texts. -/
def textless : View where
  place := id
  line := id
  texts := false
  place_next _ _ := rfl
  place_shift _ _ := rfl
  place_line _ := rfl
  place_onLine _ _ _ := rfl

end View

/-- What a scan is given next: an input of its own, or the text that the step before it has
left. -/
inductive Supply where
  | own (input : Input)
  | leftover

/-- The input, if `left` is the text that the step before has left. -/
def Supply.behind (left : List Char) : Supply → Input
  | .own input => input
  | .leftover => .chunk left

/-- All steps of a caller. A suspended scan is resumed; behind one that has finished a new
one starts, where the outcome ends. -/
def steps (options : Options) (location : Location) (suspension : Option Suspension)
    (left : List Char) : List Supply → List Step
  | [] => []
  | supply :: supplies =>
    match scan suspension (supply.behind left) location options with
    | .suspended next => .suspended next :: steps options location (some next) [] supplies
    | .finished outcome rest =>
      .finished outcome rest :: steps options outcome.finish none (rest.getD []) supplies

theorem steps_view (view : View) (options : Options) (location : Location)
    (suspension : Option Suspension) (left : List Char) (supplies : List Supply) :
    steps (view.options options) (view.place location) (suspension.map view.suspension) left
        supplies =
      (steps options location suspension left supplies).map view.step := by
  induction supplies generalizing location suspension left with
  | nil => rfl
  | cons supply supplies ih =>
    simp only [steps, scan_view]
    cases scan suspension (supply.behind left) location options with
    | suspended next =>
      have later := ih location (some next) []
      exact congrArg (view.step (.suspended next) :: ·) later
    | finished outcome rest =>
      have finish : (view.outcome outcome).finish = view.place outcome.finish := by
        cases outcome <;> rfl
      have later := ih outcome.finish none (rest.getD [])
      rw [← finish] at later
      exact congrArg (view.step (.finished outcome rest) :: ·) later

/-- **Locations and source texts steer nothing.** Two callers who give the same inputs, but
start at different locations or do not both capture source texts, see the same steps but for
the locations and the source texts in them. If they start on the same line, one of them
without a column, then that one sees the locations of the other without their columns. -/
theorem steps_indifferent (options : Options) (captures captures' : Bool)
    (supplies : List Supply) :
    (∀ start start',
      (steps { options with captureText := captures } start none [] supplies).map
          View.blind.step =
        (steps { options with captureText := captures' } start' none [] supplies).map
          View.blind.step) ∧
      ∀ line column,
        (steps { options with captureText := captures } ⟨line, none⟩ none [] supplies).map
            View.textless.step =
          (steps { options with captureText := captures' } ⟨line, column⟩ none [] supplies).map
            View.columnless.step := by
  constructor
  · intro start start'
    rw [← steps_view, ← steps_view]
    rfl
  · intro line column
    rw [← steps_view, ← steps_view]
    rfl

end ErlangLexer
