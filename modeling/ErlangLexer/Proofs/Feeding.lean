import ErlangLexer.Feed
import ErlangLexer.Forms
import ErlangLexer.Proofs.Resumption

/-!
# Feeding chunks finds the forms of the text

A text that is fed chunk by chunk and a text that is gone through form by form are
scanned with the same outcomes, errors included, however it is cut.

* `Suspension.onEnd`: what a suspended scan comes to if the rest of the text is there;
* `Forms.outcomes_eq`: the outcomes of the forms of a text, one scan at a time;
* `Suspension.feed_outcomes`: feeding a queue finds what the rest of the text holds;
* `chunks_outcomes`: feeding all chunks of a text finds its forms.
-/

namespace ErlangLexer

/-- The outcomes that are there to be seen: the end of the text is none. -/
def shown (outcomes : List Outcome) : List Outcome :=
  outcomes.filter (!·.isNothing)

theorem shown_cons (outcome : Outcome) {these those : List Outcome}
    (same : shown these = shown those) : shown (outcome :: these) = shown (outcome :: those) := by
  simp only [shown, List.filter_cons] at same ⊢
  rw [same]

/-- What is found from a scan of a complete text on: its outcome, and the forms behind it. -/
def outcomesFrom (options : Options) (found : Outcome × List Char) : List Outcome :=
  found.1 ::
    if found.2.isEmpty || found.1.isNothing then []
    else (Forms.ofText options found.1.finish found.2).outcomes

theorem Forms.outcomes_of_done {forms : Forms} (done : forms.done = true) :
    forms.outcomes = [] := by
  rw [outcomes]
  split
  · rfl
  · rename_i h
    simp [next?, done] at h

/-- The outcomes of a text are those of its first form and of the forms behind it. -/
theorem Forms.outcomes_ofText (options : Options) (location : Location) (text : List Char) :
    (ofText options location text).outcomes =
      outcomesFrom options (scanEnded options .form location text) := by
  rw [outcomes]
  split
  · rename_i h
    simp [next?, ofText] at h
  · rename_i outcome later h
    simp only [next?, ofText, Bool.false_eq_true, ↓reduceIte, Option.some.injEq,
      Prod.mk.injEq] at h
    obtain ⟨rfl, rfl⟩ := h
    simp only [outcomesFrom]
    split
    · rename_i last
      rw [outcomes_of_done last]
    · rename_i more
      simp only [ofText, more]

theorem shown_outcomes_nil (options : Options) (location : Location) :
    shown (Forms.ofText options location []).outcomes = [] := by
  rw [Forms.outcomes_ofText, scanEnded, State.run_eq]
  rfl

namespace Suspension

/-- What the scan would find if the rest of the text were there and no more came. -/
def onEnd (scan : Suspension) (rest : List Char) : Outcome × List Char :=
  (scan.state.run scan.options .form true (scan.pending ++ rest)).settle

/-- A scan that has been given no text yet would find the forms of all of it. -/
theorem outcomesFrom_onEnd_start (options : Options) (location : Location) (text : List Char) :
    outcomesFrom options ((start options location).onEnd text) =
      (Forms.ofText options location text).outcomes :=
  (Forms.outcomes_ofText options location text).symm

theorem run_of_suspended {scan next : Suspension} {input : Input}
    (h : scan.resume input = .suspended next) :
    scan.state.run scan.options .form input.isEnd (scan.pending ++ input.text) =
        .suspended next.state next.pending ∧
      next.options = scan.options := by
  unfold resume at h
  split at h
  · rename_i run
    cases h
    exact ⟨run, rfl⟩
  · simp at h

theorem run_of_finished {scan : Suspension} {input : Input} {outcome : Outcome}
    {rest : Option (List Char)} (h : scan.resume input = .finished outcome rest) :
    scan.state.run scan.options .form input.isEnd (scan.pending ++ input.text) =
        .stopped outcome (rest.getD []) ∧
      (rest = none → input.isEnd = true) := by
  unfold resume at h
  split at h
  · simp at h
  · rename_i left run
    simp only [Step.finished.injEq] at h
    obtain ⟨rfl, rfl⟩ := h
    split
    · rename_i last
      simp only [Bool.and_eq_true, List.isEmpty_iff] at last
      exact ⟨by rw [run, last.2]; rfl, fun _ => last.1⟩
    · exact ⟨run, (by simp)⟩

theorem run_queue (scan : Suspension) (queue : List (List Char)) :
    scan.state.run scan.options .form true (scan.pending ++ queue.flatten) =
      (scan.state.run scan.options .form (Input.ofQueue queue).isEnd
        (scan.pending ++ (Input.ofQueue queue).text)).goOn scan.options .form true
          queue.tail.flatten := by
  cases queue with
  | nil =>
    obtain ⟨outcome, rest, stops⟩ := scan.state.run_ended scan.options .form scan.pending
    simp only [Input.ofQueue, Input.isEnd, Input.text, List.flatten_nil, List.tail_nil,
      List.append_nil, stops, Halt.goOn]
  | cons chunk later =>
    simp only [Input.ofQueue, Input.isEnd, Input.text, List.flatten_cons, List.tail_cons,
      ← List.append_assoc]
    exact scan.state.run_append scan.options .form true _ _

theorem onEnd_of_suspended {scan next : Suspension} {queue : List (List Char)}
    (h : scan.resume (.ofQueue queue) = .suspended next) :
    scan.onEnd queue.flatten = next.onEnd queue.tail.flatten := by
  obtain ⟨run, same⟩ := run_of_suspended h
  rw [onEnd, run_queue, run, onEnd, same]
  rfl

theorem onEnd_of_finished {scan : Suspension} {queue : List (List Char)} {outcome : Outcome}
    {rest : Option (List Char)} (h : scan.resume (.ofQueue queue) = .finished outcome rest) :
    scan.onEnd queue.flatten = (outcome, rest.getD [] ++ queue.tail.flatten) := by
  rw [onEnd, run_queue, (run_of_finished h).1]
  rfl

/-- A finished scan was at the end of its queue if it leaves no text at all. -/
theorem tail_eq_nil_of_finished {scan : Suspension} {queue : List (List Char)}
    {outcome : Outcome} (h : scan.resume (.ofQueue queue) = .finished outcome none) :
    queue.tail = [] := by
  have last := (run_of_finished h).2 rfl
  cases queue with
  | nil => rfl
  | cons chunk later => simp [Input.ofQueue, Input.isEnd] at last

/-- A queue holds what its text holds: the outcome of the scan, then those of the forms. -/
theorem feed_outcomes (scan : Suspension) (queue : List (List Char)) :
    shown ((scan.feed queue).filterMap Step.outcome?) =
      shown (outcomesFrom scan.options (scan.onEnd queue.flatten)) := by
  fun_induction feed scan queue with
  | case1 scan queue next h ih =>
    rw [onEnd_of_suspended h, ← (run_of_suspended h).2]
    exact ih
  | case2 scan queue outcome h =>
    rw [onEnd_of_finished h, tail_eq_nil_of_finished h]
    rfl
  | case3 scan queue outcome rest h ih =>
    have goes_on : shown (((start scan.options outcome.finish).feed
        (rest :: queue.tail)).filterMap Step.outcome?) =
          shown
            (Forms.ofText scan.options outcome.finish (rest ++ queue.tail.flatten)).outcomes := by
      rw [← outcomesFrom_onEnd_start]
      exact ih
    rw [onEnd_of_finished h]
    simp only [List.filterMap_cons, Step.outcome?, outcomesFrom, Option.getD_some]
    by_cases nothing : outcome.isNothing = true
    · simp only [nothing, Bool.or_true, ↓reduceIte]
      rfl
    · by_cases empty : rest ++ queue.tail.flatten = []
      · rw [empty, shown_outcomes_nil] at goes_on
        simp only [nothing, empty, List.isEmpty_nil, Bool.true_or, ↓reduceIte,
          Bool.false_eq_true]
        exact shown_cons outcome goes_on
      · simp only [nothing, List.isEmpty_eq_false_iff.mpr empty, Bool.or_self, ↓reduceIte,
          Bool.false_eq_true]
        exact shown_cons outcome goes_on

end Suspension

/-- Fed in chunks, a text shows the outcomes of its forms, however it is cut. -/
theorem feed_chunks (options : Options) (location : Location) (chunks : List (List Char)) :
    shown (((Suspension.start options location).feed chunks).filterMap Step.outcome?) =
      shown (Forms.ofText options location chunks.flatten).outcomes := by
  rw [Suspension.feed_outcomes, ← Suspension.outcomesFrom_onEnd_start]
  rfl

end ErlangLexer
