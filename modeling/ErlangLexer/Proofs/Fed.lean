import ErlangLexer.Proofs.Feeding

/-!
# Scans and the text they have been fed

A suspended scan is told apart by the text it has been fed, not by the chunks it came in:

* `Suspension.Fed`: the suspended scans of a source, each with all the text fed to it;
* `Fed.suspends`: a run over that text at once is left suspended at the same place;
* `Fed.stops`: and where feeding it further finishes the scan, the run over all of it stops.
-/

namespace ErlangLexer.Suspension

/-- A scan that started at `origin` and has been fed a text, in some chunks, without coming
to its end. -/
inductive Fed (options : Options) (origin : Location) : List Char → Suspension → Prop where
  | start : Fed options origin [] (start options origin)
  | next {fed text : List Char} {scan later : Suspension} (earlier : Fed options origin fed scan)
      (resumed : scan.resume (.chunk text) = .suspended later) :
      Fed options origin (fed ++ text) later

namespace Fed

variable {options : Options} {origin : Location} {fed : List Char} {scan : Suspension}

theorem options_eq (given : Fed options origin fed scan) : scan.options = options := by
  induction given with
  | start => rfl
  | next earlier resumed ih => exact (run_of_suspended resumed).2.trans ih

/-- The chunks do not count: all of the text at once leaves the scan where it is. -/
theorem suspends (given : Fed options origin fed scan) :
    (State.fresh origin).run options .form false fed = .suspended scan.state scan.pending := by
  induction given with
  | start => exact State.run_eq options .form false (.fresh origin) []
  | @next fed text scan later earlier resumed ih =>
    obtain ⟨run, same⟩ := run_of_suspended resumed
    rw [State.run_append, ih, ← earlier.options_eq]
    exact run

/-- Fed with more, the scan does what it does when all of the text comes at once. -/
theorem run_eq (given : Fed options origin fed scan) (ended : Bool) (more : List Char) :
    (State.fresh origin).run options .form ended (fed ++ more) =
      scan.state.run scan.options .form ended (scan.pending ++ more) := by
  rw [State.run_append, given.suspends, given.options_eq]
  rfl

theorem of_run {state : State} {pending : List Char}
    (suspends : (State.fresh origin).run options .form false fed = .suspended state pending) :
    Fed options origin fed ⟨options, state, pending⟩ := by
  refine .next .start ?_
  simp only [resume, Suspension.start, Input.isEnd, Input.text, List.nil_append, suspends]

/-- A scan that finishes stops in all the text that it has been fed. -/
theorem stops (given : Fed options origin fed scan) {input : Input} {outcome : Outcome}
    {rest : Option (List Char)} (finished : scan.resume input = .finished outcome rest) :
    (State.fresh origin).run options .form input.isEnd (fed ++ input.text) =
      .stopped outcome (rest.getD []) := by
  rw [given.run_eq]
  exact (run_of_finished finished).1

end Fed

/-- At the end of the source, a finished scan says of no text that it is left. -/
theorem eq_none_of_finished {scan : Suspension} {input : Input} {outcome : Outcome}
    {rest : Option (List Char)} (finished : scan.resume input = .finished outcome rest)
    (last : input.isEnd = true) (nothing : rest.getD [] = []) : rest = none := by
  unfold resume at finished
  split at finished
  · cases finished
  · rename_i left _
    obtain ⟨-, rfl⟩ := Step.finished.inj finished
    cases left with
    | nil => simp [last]
    | cons c left => simp [last] at nothing

theorem finished_of_run (scan : Suspension) (text : List Char) {rest : List Char}
    {outcome : Outcome} (stops : scan.state.run scan.options .form false (scan.pending ++ text) =
      .stopped outcome rest) : scan.resume (.chunk text) = .finished outcome (some rest) := by
  simp only [resume, Input.isEnd, Input.text, stops]
  rfl

theorem finished_of_run_ended (scan : Suspension) {outcome : Outcome}
    (stops : scan.state.run scan.options .form true scan.pending = .stopped outcome []) :
    scan.resume .ended = .finished outcome none := by
  simp only [resume, Input.isEnd, Input.text, List.append_nil, stops]
  rfl

end ErlangLexer.Suspension
