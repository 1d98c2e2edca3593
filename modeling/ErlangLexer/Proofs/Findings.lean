import ErlangLexer.Proofs.Feeding

/-!
# What a feed finds

A feed finds what the run over all of its text comes to, so what a run has ahead of it
decides what is found, however the text is cut:

* `State.behindToken` is where a scan between two tokens gets to by a token;
* `found_of_run_eq`: scans with the same run ahead of them find the same;
* `found_of_stopped`: a scan that stops finds its outcome, and then what a new scan finds in
  the text behind it.
-/

namespace ErlangLexer

/-- A scan between two tokens, behind one more of them: of this kind, from where the scan was,
and with its source text if the options ask for it. -/
def State.behindToken (options : Options) (state : State) (kind : Kind) (source : List Char) :
    State where
  location := state.location.walk source
  tokens := state.tokens.push
    ⟨kind, state.location, if options.captureText then some (String.ofList source) else none⟩
  checking :=
    match kind with
    | .checkOpen => true
    | .checkClose => false
    | _ => state.checking
  mode := .between

theorem State.behindToken_eq (options : Options) (state : State) (kind : Kind)
    (source : List Char) :
    state.behindToken options kind source =
      { state.record options kind ⟨state.location, String.ofList source⟩ with
        location := state.location.walk source
        mode := .between } := by
  cases kind <;> rfl

namespace Suspension

/-- The outcomes that are to be seen when the chunks of a queue are fed to a scan. -/
def found (scan : Suspension) (queue : List (List Char)) : List Outcome :=
  shown ((scan.feed queue).filterMap Step.outcome?)

/-- The run over all that a feed has ahead of it. -/
def ahead (scan : Suspension) (queue : List (List Char)) : Halt :=
  scan.state.run scan.options .form true (scan.pending ++ queue.flatten)

theorem ahead_start (options : Options) (origin : Location) (queue : List (List Char)) :
    (start options origin).ahead queue =
      (State.fresh origin).run options .form true queue.flatten := rfl

theorem found_eq (scan : Suspension) (queue : List (List Char)) :
    scan.found queue = shown (outcomesFrom scan.options (scan.ahead queue).settle) :=
  scan.feed_outcomes queue

theorem found_of_run_eq {scan later : Suspension} {queue rest : List (List Char)}
    (options : scan.options = later.options) (same : scan.ahead queue = later.ahead rest) :
    scan.found queue = later.found rest := by
  rw [found_eq, found_eq, options, same]

theorem found_start (options : Options) (location : Location) (text : List Char) :
    (start options location).found [text] =
      shown (Forms.ofText options location text).outcomes := by
  have fed := feed_chunks options location [text]
  rw [List.flatten_singleton] at fed
  exact fed

theorem found_nothing (options : Options) (location : Location) :
    (start options location).found [[]] = [] := by
  rw [found_start, shown_outcomes_nil]

theorem found_of_stopped {scan : Suspension} {queue : List (List Char)} {outcome : Outcome}
    {rest : List Char} (stops : scan.ahead queue = .stopped outcome rest)
    (something : outcome.isNothing = false) :
    scan.found queue = outcome :: (start scan.options outcome.finish).found [rest] := by
  have seen (outcomes : List Outcome) : shown (outcome :: outcomes) = outcome :: shown outcomes :=
    List.filter_cons_of_pos (by simp [something])
  rw [found_eq, stops, found_start]
  simp only [Halt.settle, outcomesFrom, something, Bool.or_false, seen]
  by_cases empty : rest = []
  · rw [empty, shown_outcomes_nil]
    rfl
  · simp [empty]

/-- A scan that goes on from some state in front of a text. -/
def goOn (options : Options) (state : State) (text : List Char) : List Outcome :=
  (Suspension.mk options state []).found [text]

theorem found_of_run_state {scan : Suspension} {queue : List (List Char)} {later : State}
    {rest : List Char} (same : scan.ahead queue = later.run scan.options .form true rest) :
    scan.found queue = goOn scan.options later rest := by
  refine found_of_run_eq rfl (same.trans ?_)
  simp only [ahead, List.nil_append, List.flatten_singleton]

end Suspension

end ErlangLexer
