import ErlangLexer.Proofs.Stability
import ErlangLexer.Suspension

/-!
# Resumption is concatenation

A scan that is given a text in two pieces does what it does with the whole text at once:

* `State.run_eq`: a run, one move at a time;
* `State.run_append`: a run over a longer text is the run over its beginning and, where
  that is left suspended, the run that goes on from there;
* `scan_append`: so a chunk may be cut anywhere, and the suspension, the outcome and the
  text that is left are those of the chunk in one piece.
-/

namespace ErlangLexer

/-- One move of a run, and the run from there. -/
theorem State.run_eq (options : Options) (extent : Extent) (ended : Bool) (state : State)
    (text : List Char) :
    state.run options extent ended text =
      match state.move options ended text with
      | .wait => .suspended state text
      | .finish => .stopped state.outcome text
      | .read width next =>
        (state.read text width next).run options extent ended (text.drop width)
      | .emit width kind lexeme next =>
        let later := (state.record options kind lexeme).read text width next
        if kind = .dot ∧ extent = .form then .stopped later.outcome (text.drop width)
        else later.run options extent ended (text.drop width)
      | .fail width error =>
        .stopped (.error error (state.location.walk (text.take width))) (text.drop width)
      | .reject width error finish => .stopped (.error error finish) (text.drop width) := by
  rw [run]
  split <;> simp [*]

/-- What a halted scan comes to when more text follows: a suspended one goes on, and a
stopped one leaves the text too. -/
def Halt.goOn (options : Options) (extent : Extent) (ended : Bool) (more : List Char) :
    Halt → Halt
  | .suspended state rest => state.run options extent ended (rest ++ more)
  | .stopped outcome rest => .stopped outcome (rest ++ more)

namespace State

theorem fits_of_move {options : Options} {ended : Bool} {state : State} {text : List Char}
    {move : Move} (h : state.move options ended text = move) : move.Fits text ended state.mode := by
  subst h
  exact state.move_fits options ended text

theorem move_append {options : Options} {state : State} {text : List Char} {move : Move}
    (more : List Char) (ended : Bool) (h : state.move options false text = move)
    (decided : move ≠ .wait) : state.move options ended (text ++ more) = move := by
  subst h
  exact state.move_stable options text more ended decided

theorem read_append (state : State) {text : List Char} (more : List Char) {width : Nat}
    (next : Mode) (short : width ≤ text.length) :
    state.read (text ++ more) width next = state.read text width next := by
  simp [read, List.take_append_of_le_length short]

/-- A run over a text and more is the run over the text, gone on with. -/
theorem run_append (options : Options) (extent : Extent) (ended : Bool) (state : State)
    (text more : List Char) :
    state.run options extent ended (text ++ more) =
      (state.run options extent false text).goOn options extent ended more := by
  fun_induction State.run options extent false state text with
  | case1 state text step => rfl
  | case2 state text step =>
    have still_open : false = true := (fits_of_move step).2
    exact absurd still_open (by decide)
  | case3 state text width next step ih =>
    have short := (fits_of_move step).1
    rw [run_eq, move_append more ended step (by simp)]
    simp only [state.read_append more next short, List.drop_append_of_le_length short]
    exact ih
  | case4 state text width kind lexeme next step state' stops =>
    have short := (fits_of_move step).1
    rw [run_eq, move_append more ended step (by simp)]
    simp only [(state.record options kind lexeme).read_append more next short,
      List.drop_append_of_le_length short]
    exact if_pos stops
  | case5 state text width kind lexeme next step state' goes_on ih =>
    have short := (fits_of_move step).1
    rw [run_eq, move_append more ended step (by simp)]
    simp only [(state.record options kind lexeme).read_append more next short,
      List.drop_append_of_le_length short]
    exact (if_neg goes_on).trans ih
  | case6 state text width error step =>
    have short := (fits_of_move step).1
    rw [run_eq, move_append more ended step (by simp)]
    simp only [List.take_append_of_le_length short, List.drop_append_of_le_length short,
      Halt.goOn]
  | case7 state text width error finish step =>
    have short := (fits_of_move step).1
    rw [run_eq, move_append more ended step (by simp)]
    simp only [List.drop_append_of_le_length short, Halt.goOn]

end State

theorem Suspension.resume_append (scan : Suspension) (a b : List Char) :
    match scan.resume (.chunk a) with
    | .suspended next => next.resume (.chunk b) = scan.resume (.chunk (a ++ b))
    | .finished outcome (some rest) =>
      scan.resume (.chunk (a ++ b)) = .finished outcome (some (rest ++ b))
    | .finished _ none => False := by
  have whole := scan.state.run_append scan.options .form false (scan.pending ++ a) b
  simp only [resume, Input.text, Input.isEnd, ← List.append_assoc, whole]
  cases scan.state.run scan.options .form false (scan.pending ++ a) with
  | suspended state rest => rfl
  | stopped outcome rest => rfl

/-- **Resumption is concatenation.** Whatever scan is given a chunk, a new one or a
suspended one: if it is suspended, going on with a second chunk does what both chunks in
one piece do; if it has finished, the second chunk only adds to the text that is left. -/
theorem scan_append (suspension : Option Suspension) (location elsewhere : Location)
    (options others : Options) (a b : List Char) :
    match scan suspension (.chunk a) location options with
    | .suspended next =>
      scan (some next) (.chunk b) elsewhere others =
        scan suspension (.chunk (a ++ b)) location options
    | .finished outcome (some rest) =>
      scan suspension (.chunk (a ++ b)) location options =
        .finished outcome (some (rest ++ b))
    | .finished _ none => False :=
  (suspension.getD (.start options location)).resume_append a b

end ErlangLexer
