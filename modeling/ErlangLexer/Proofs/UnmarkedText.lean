import ErlangLexer.Proofs.Feeding
import ErlangLexer.Proofs.LooseEnds
import ErlangLexer.Proofs.Whereabouts
import Mathlib.Data.List.Infix

/-!
# Text without check markers

Where there is no marker, check comments are comments. Only in front of the beginning of a
marker do two scans of one text part for a while, if one of them looks for markers: it waits for
the rest, and the other is in a comment already. No text completes the marker, so they come
together again:

* `Unmarked`: a text with no marker in it;
* `State.move_unmarked`: there a scan that looks for markers makes the moves of one that does
  not, or waits in front of the beginning of a marker;
* `State.Abreast`: two scans that have come to the same place, or part there;
* `State.run_abreast`, `State.Abreast.run`: two runs over a text without markers end abreast;
* `Suspension.feed_abreast`: so do all steps of two scans that are fed such a text in chunks;
* `unmarked_text_unchecked`: so both find the same, and a marker that is only begun is a comment.
-/

namespace ErlangLexer

/-- The options with check comments on or off. -/
def Options.withChecks (checks : Bool) (options : Options) : Options :=
  { options with checkComments := checks }

/-- No marker of a check annotation is in the text. -/
def Unmarked (text : List Char) : Prop :=
  ¬Comment.marker <:+: text

instance (text : List Char) : Decidable (Unmarked text) :=
  inferInstanceAs (Decidable ¬Comment.marker <:+: text)

theorem Unmarked.of_suffix {text rest : List Char} (unmarked : Unmarked text)
    (suffix : rest <:+ text) : Unmarked rest :=
  fun within => unmarked (within.trans suffix.isInfix)

theorem Unmarked.isPrefixOf {text : List Char} (unmarked : Unmarked text) :
    Comment.marker.isPrefixOf text = false := by
  rw [Bool.eq_false_iff, ne_eq, List.isPrefixOf_iff_prefix]
  exact fun marked => unmarked marked.isInfix

/-- The text is the beginning of a marker, and not all of it. -/
def BeginsMarker (text : List Char) : Prop :=
  text ≠ [] ∧ breaksOffWithin text Comment.marker = true

instance (text : List Char) : Decidable (BeginsMarker text) :=
  inferInstanceAs (Decidable (_ ∧ _))

namespace BeginsMarker

variable {text : List Char}

theorem eq_cons (begins : BeginsMarker text) : ∃ rest, text = '%' :: rest := by
  obtain ⟨some_text, cut⟩ := begins
  obtain ⟨front, -⟩ := prefix_of_breaksOff cut
  cases text with
  | nil => exact absurd rfl some_text
  | cons c rest =>
    obtain rfl : c = '%' := (List.cons_prefix_cons.mp front).1
    exact ⟨rest, rfl⟩

theorem skips (begins : BeginsMarker text) : ∀ c ∈ text, Comment.skips c = true := by
  obtain ⟨front, -⟩ := prefix_of_breaksOff begins.2
  intro c listed
  exact Comment.skips_of_mem_marker (front.subset listed)

end BeginsMarker

/-! ## Moves -/

namespace State

variable {options : Options} {extent : Extent} {ended : Bool} {state : State}
  {text more : List Char}

/-- In front of a text without markers it makes no difference to look for them, unless the text
breaks off within one. -/
theorem move_unmarked (options : Options) (ended : Bool) (state : State)
    (unmarked : Unmarked text) :
    state.move (options.withChecks false) ended text =
        state.move (options.withChecks true) ended text ∨
      state.move (options.withChecks true) ended text = .wait ∧ ended = false ∧
        state.mode = .between ∧ BeginsMarker text := by
  obtain ⟨location, tokens, checking, mode⟩ := state
  cases mode with
  | between =>
    cases text with
    | nil => exact .inl rfl
    | cons c rest =>
      by_cases percent : c = '%'
      · subst percent
        have opens (options : Options) :
            State.move options ended ⟨location, tokens, checking, .between⟩ ('%' :: rest) =
              Comment.openMove options checking location ('%' :: rest) ended := rfl
        by_cases waits : ended = false ∧ breaksOffWithin ('%' :: rest) Comment.marker = true
        · refine .inr ⟨?_, waits.1, rfl, by simp, waits.2⟩
          rw [opens]
          simp [Comment.openMove, Options.withChecks, unmarked.isPrefixOf, waits]
        · refine .inl ?_
          have resolved : (!ended && breaksOffWithin ('%' :: rest) Comment.marker) = false := by
            cases ended with
            | true => rfl
            | false => simpa using waits
          rw [opens, opens]
          simp [Comment.openMove, Options.withChecks, unmarked.isPrefixOf, resolved]
      · refine .inl ?_
        simp only [move, Between.move, percent, ↓reduceIte]
  | _ => exact .inl rfl

/-- A move is the same with check comments off, unless it is to wait. -/
theorem move_unchecked {move : Move} (unmarked : Unmarked text)
    (step : state.move (options.withChecks true) ended text = move) (decided : move ≠ .wait) :
    state.move (options.withChecks false) ended text = move := by
  rcases state.move_unmarked options ended unmarked with same | ⟨waits, -⟩
  · exact same.trans step
  · exact absurd (step.symm.trans waits) decided

/-! ## Comments -/

/-- In a comment, behind some more of the text. -/
def commenting (state : State) (text : List Char) : State :=
  ⟨state.location.walk text, state.tokens, state.checking, .comment⟩

theorem run_comment (options : Options) (mode : state.mode = .comment)
    (skipped : ∀ c ∈ text, Comment.skips c = true) (more : List Char) :
    state.run options extent ended (text ++ more) =
      (state.commenting text).run options extent ended more := by
  induction text generalizing state with
  | nil =>
    obtain ⟨location, tokens, checking, _⟩ := state
    obtain rfl : _ = Mode.comment := mode
    rfl
  | cons c text ih =>
    obtain ⟨location, tokens, checking, _⟩ := state
    obtain rfl : _ = Mode.comment := mode
    have step : State.move options ended ⟨location, tokens, checking, .comment⟩
        (c :: (text ++ more)) = .read 1 .comment := if_pos (skipped c List.mem_cons_self)
    rw [List.cons_append, run_eq, step]
    exact ih rfl fun d listed => skipped d (List.mem_cons_of_mem c listed)

/-- Where a marker that is only begun opens a comment, the comment passes over it. -/
theorem run_begun (begins : BeginsMarker text)
    (opens : state.move options ended (text ++ more) = .read 1 .comment) :
    state.run options extent ended (text ++ more) =
      (state.commenting text).run options extent ended more := by
  have skips := begins.skips
  obtain ⟨rest, rfl⟩ := begins.eq_cons
  rw [run_eq, opens]
  exact run_comment options rfl (fun c listed => skips c (List.mem_cons_of_mem '%' listed)) more

theorem run_begun_unchecked (options : Options) (extent : Extent) (ended : Bool)
    (mode : state.mode = .between) (begins : BeginsMarker text) (more : List Char) :
    state.run (options.withChecks false) extent ended (text ++ more) =
      (state.commenting text).run (options.withChecks false) extent ended more := by
  refine run_begun begins ?_
  obtain ⟨rest, rfl⟩ := begins.eq_cons
  obtain ⟨location, tokens, checking, _⟩ := state
  obtain rfl : _ = Mode.between := mode
  rfl

/-- A marker that is only begun, and that the text does not complete, is a comment also where
markers are looked for. -/
theorem run_begun_unmarked (mode : state.mode = .between) (begins : BeginsMarker text)
    (unmarked : Unmarked (text ++ more)) (resolved : ended = true ∨ ¬BeginsMarker (text ++ more)) :
    state.run (options.withChecks true) extent ended (text ++ more) =
      (state.commenting text).run (options.withChecks true) extent ended more := by
  refine run_begun begins ?_
  rcases state.move_unmarked options ended unmarked with same | ⟨-, still_open, -, begun⟩
  · rw [← same]
    obtain ⟨rest, rfl⟩ := begins.eq_cons
    obtain ⟨location, tokens, checking, _⟩ := state
    obtain rfl : _ = Mode.between := mode
    rfl
  · rcases resolved with last | more_text
    · rw [still_open] at last
      cases last
    · exact absurd begun more_text

/-! ## Runs -/

/-- Where two scans have come to, one that looks for markers and one that does not: to the same
place, or to the beginning of a marker, where the one waits and the other is in a comment. -/
inductive Abreast : State → List Char → State → List Char → Prop where
  | same (state : State) (rest : List Char) : Abreast state rest state rest
  | begun {state : State} {text : List Char} (mode : state.mode = .between)
      (begins : BeginsMarker text) : Abreast state text (state.commenting text) []

end State

/-- Two halts of scans that have come abreast. -/
inductive Halt.Abreast : Halt → Halt → Prop where
  | suspended {on off : State} {waiting rest : List Char}
      (abreast : on.Abreast waiting off rest) :
      Halt.Abreast (.suspended on waiting) (.suspended off rest)
  | stopped (outcome : Outcome) (rest : List Char) :
      Halt.Abreast (.stopped outcome rest) (.stopped outcome rest)

namespace State

variable {options : Options} {extent : Extent} {ended : Bool} {state : State} {text : List Char}

/-- Two runs over a text without markers end abreast. -/
theorem run_abreast (unmarked : Unmarked text) :
    (state.run (options.withChecks true) extent ended text).Abreast
      (state.run (options.withChecks false) extent ended text) := by
  fun_induction State.run (options.withChecks true) extent ended state text with
  | case1 state text step =>
    rcases state.move_unmarked options ended unmarked with same | ⟨-, rfl, mode, begins⟩
    · rw [run_eq (options.withChecks false), same, step]
      exact .suspended (.same state text)
    · have passes := run_begun_unchecked options extent false mode begins []
      rw [List.append_nil] at passes
      rw [passes, run_eq]
      exact .suspended (.begun mode begins)
  | case2 state text step =>
    rw [run_eq (options.withChecks false), move_unchecked unmarked step (by simp)]
    exact .stopped _ _
  | case3 state text width next step ih =>
    rw [run_eq (options.withChecks false), move_unchecked unmarked step (by simp)]
    exact ih (unmarked.of_suffix (List.drop_suffix width text))
  | case4 state text width kind lexeme next step state' stops =>
    rw [run_eq (options.withChecks false), move_unchecked unmarked step (by simp)]
    simp only [if_pos stops]
    exact .stopped _ _
  | case5 state text width kind lexeme next step state' goes_on ih =>
    rw [run_eq (options.withChecks false), move_unchecked unmarked step (by simp)]
    simp only [if_neg goes_on]
    exact ih (unmarked.of_suffix (List.drop_suffix width text))
  | case6 state text width error step =>
    rw [run_eq (options.withChecks false), move_unchecked unmarked step (by simp)]
    exact .stopped _ _
  | case7 state text width error finish step =>
    rw [run_eq (options.withChecks false), move_unchecked unmarked step (by simp)]
    exact .stopped _ _

/-- Two scans that are abreast stay so, whatever comes, if it completes no marker. -/
theorem Abreast.run {on off : State} {waiting rest : List Char}
    (abreast : on.Abreast waiting off rest) (options : Options) (extent : Extent) (ended : Bool)
    {more : List Char}
    (unmarked : Unmarked (waiting ++ more)) :
    (on.run (options.withChecks true) extent ended (waiting ++ more)).Abreast
      (off.run (options.withChecks false) extent ended (rest ++ more)) := by
  cases abreast with
  | same => exact run_abreast unmarked
  | begun mode begins =>
    rw [List.nil_append, ← run_begun_unchecked options extent ended mode begins]
    exact run_abreast unmarked

end State

/-! ## Chunks -/

/-- Two suspended scans that have come abreast, one that looks for markers and one that does
not. -/
structure Suspension.Abreast (options : Options) (on off : Suspension) : Prop where
  on_options : on.options = options.withChecks true
  off_options : off.options = options.withChecks false
  states : on.state.Abreast on.pending off.state off.pending

/-- Two steps that leave scans abreast, or that find the same and leave the same text. -/
inductive Step.Abreast (options : Options) : Step → Step → Prop where
  | suspended {on off : Suspension} (abreast : on.Abreast options off) :
      Step.Abreast options (.suspended on) (.suspended off)
  | finished (outcome : Outcome) (rest : Option (List Char)) :
      Step.Abreast options (.finished outcome rest) (.finished outcome rest)

namespace Suspension

variable {options : Options} {on off : Suspension}

theorem start_abreast (options : Options) (origin : Location) :
    (start (options.withChecks true) origin).Abreast options
      (start (options.withChecks false) origin) :=
  ⟨rfl, rfl, .same _ _⟩

theorem Abreast.resume (abreast : on.Abreast options off) {input : Input}
    (unmarked : Unmarked (on.pending ++ input.text)) :
    (on.resume input).Abreast options (off.resume input) := by
  have runs := abreast.states.run options .form input.isEnd unmarked
  simp only [Suspension.resume, abreast.on_options, abreast.off_options]
  generalize State.run (options.withChecks true) .form input.isEnd on.state
    (on.pending ++ input.text) = halt at runs ⊢
  generalize State.run (options.withChecks false) .form input.isEnd off.state
    (off.pending ++ input.text) = halt' at runs ⊢
  cases runs with
  | suspended states => exact .suspended ⟨rfl, rfl, states⟩
  | stopped outcome rest => exact .finished _ _

/-- The first chunk is in front of the queue, so a marker in it is one in the queue. -/
theorem Abreast.resume_queue (abreast : on.Abreast options off) {queue : List (List Char)}
    (unmarked : Unmarked (on.pending ++ queue.flatten)) :
    (on.resume (.ofQueue queue)).Abreast options (off.resume (.ofQueue queue)) := by
  refine abreast.resume ?_
  cases queue with
  | nil => exact unmarked
  | cons chunk later =>
    intro within
    refine unmarked (within.trans (List.IsPrefix.isInfix ?_))
    rw [List.flatten_cons, ← List.append_assoc]
    exact List.prefix_append _ _

theorem feed_eq (scan : Suspension) (queue : List (List Char)) :
    scan.feed queue =
      match scan.resume (.ofQueue queue) with
      | .suspended next => .suspended next :: feed next queue.tail
      | .finished outcome none => [.finished outcome none]
      | .finished outcome (some rest) =>
        .finished outcome (some rest) ::
          if outcome.isNothing then []
          else feed (.start scan.options outcome.finish) (rest :: queue.tail) := by
  rw [feed]
  split <;> simp [*]

theorem suffix_of_suspended {scan next : Suspension} {queue : List (List Char)}
    (resumed : scan.resume (.ofQueue queue) = .suspended next) :
    next.pending ++ queue.tail.flatten <:+ scan.pending ++ queue.flatten := by
  obtain ⟨run, -⟩ := run_of_suspended resumed
  obtain ⟨read, split, -⟩ := State.suspended_at run
  cases queue with
  | nil => exact ⟨read, by simpa [Input.ofQueue, Input.text] using split.symm⟩
  | cons chunk later =>
    refine ⟨read, ?_⟩
    rw [← List.append_assoc, ← split]
    simp [Input.ofQueue, Input.text]

theorem suffix_of_finished {scan : Suspension} {queue : List (List Char)} {outcome : Outcome}
    {rest : List Char} (resumed : scan.resume (.ofQueue queue) = .finished outcome (some rest)) :
    rest ++ queue.tail.flatten <:+ scan.pending ++ queue.flatten := by
  obtain ⟨read, split⟩ := State.run_suffix (run_of_finished resumed).1
  cases queue with
  | nil => exact ⟨read, by simpa [Input.ofQueue, Input.text] using split⟩
  | cons chunk later =>
    refine ⟨read, ?_⟩
    rw [← List.append_assoc]
    simp only [Option.getD_some, Input.ofQueue, Input.text] at split
    simp [split]

theorem Abreast.suspends (abreast : on.Abreast options off) {queue : List (List Char)}
    (unmarked : Unmarked (on.pending ++ queue.flatten)) {next : Suspension}
    (resumed : on.resume (.ofQueue queue) = .suspended next) :
    ∃ next', off.resume (.ofQueue queue) = .suspended next' ∧ next.Abreast options next' := by
  have here := abreast.resume_queue unmarked
  rw [resumed] at here
  generalize off.resume (.ofQueue queue) = step at here ⊢
  cases here with
  | suspended later => exact ⟨_, rfl, later⟩

theorem Abreast.finishes (abreast : on.Abreast options off) {queue : List (List Char)}
    (unmarked : Unmarked (on.pending ++ queue.flatten)) {outcome : Outcome}
    {rest : Option (List Char)} (resumed : on.resume (.ofQueue queue) = .finished outcome rest) :
    off.resume (.ofQueue queue) = .finished outcome rest := by
  have here := abreast.resume_queue unmarked
  rw [resumed] at here
  generalize off.resume (.ofQueue queue) = step at here ⊢
  cases here with
  | finished => rfl

/-- All steps of two scans that are fed a text without markers are abreast. -/
theorem feed_abreast (queue : List (List Char)) (abreast : on.Abreast options off)
    (unmarked : Unmarked (on.pending ++ queue.flatten)) :
    List.Forall₂ (Step.Abreast options) (on.feed queue) (off.feed queue) := by
  fun_induction feed on queue generalizing off with
  | case1 on queue next resumed ih =>
    obtain ⟨next', resumed', later⟩ := abreast.suspends unmarked resumed
    rw [feed_eq off, resumed']
    exact .cons (.suspended later) (ih later (unmarked.of_suffix (suffix_of_suspended resumed)))
  | case2 on queue outcome resumed =>
    rw [feed_eq off, abreast.finishes unmarked resumed]
    exact .cons (.finished outcome none) .nil
  | case3 on queue outcome rest resumed ih =>
    rw [feed_eq off, abreast.finishes unmarked resumed]
    refine .cons (.finished outcome (some rest)) ?_
    by_cases nothing : outcome.isNothing = true
    · simp only [nothing, ↓reduceIte]
      exact .nil
    · simp only [nothing]
      apply ih
      · rw [abreast.on_options, abreast.off_options]
        exact start_abreast options outcome.finish
      · exact unmarked.of_suffix (suffix_of_finished resumed)

end Suspension

theorem outcomes_of_abreast {options : Options} {these those : List Step}
    (abreast : List.Forall₂ (Step.Abreast options) these those) :
    these.filterMap Step.outcome? = those.filterMap Step.outcome? := by
  induction abreast with
  | nil => rfl
  | cons step later ih =>
    cases step with
    | suspended => exact ih
    | finished outcome rest => exact congrArg (outcome :: ·) ih

/-- **Check comments do not show without a marker.** Fed a text that holds no marker, in any
chunks, a scan that looks for markers and one that does not finish with the same outcomes in the
same order. They do so step by step: each chunk leaves both suspended or finishes both, with the
same outcome and the same text left, and where they are suspended in different places the one
waits at the beginning of a marker and the other is in a comment behind it. That beginning is a
comment for both of them, as soon as the text goes on otherwise or ends. -/
theorem unmarked_text_unchecked (options : Options) :
    (∀ (origin : Location) (chunks : List (List Char)), Unmarked chunks.flatten →
      (∀ checks checks',
        ((Suspension.start (options.withChecks checks) origin).feed chunks).filterMap
            Step.outcome? =
          ((Suspension.start (options.withChecks checks') origin).feed chunks).filterMap
            Step.outcome?) ∧
      List.Forall₂ (Step.Abreast options)
        ((Suspension.start (options.withChecks true) origin).feed chunks)
        ((Suspension.start (options.withChecks false) origin).feed chunks)) ∧
    ∀ (extent : Extent) (ended : Bool) (state : State) (text more : List Char),
      state.mode = .between → BeginsMarker text → Unmarked (text ++ more) →
        (ended = true ∨ ¬BeginsMarker (text ++ more)) →
          state.run (options.withChecks true) extent ended (text ++ more) =
            (state.commenting text).run (options.withChecks true) extent ended more := by
  refine ⟨?_, ?_⟩
  · intro origin chunks unmarked
    have abreast := Suspension.feed_abreast chunks (Suspension.start_abreast options origin)
      unmarked
    refine ⟨?_, abreast⟩
    have same := outcomes_of_abreast abreast
    intro checks checks'
    cases checks with
    | true =>
      cases checks' with
      | true => rfl
      | false => exact same
    | false =>
      cases checks' with
      | true => exact same.symm
      | false => rfl
  · intro extent ended state text more mode begins unmarked resolved
    exact State.run_begun_unmarked mode begins unmarked resolved

/-- Two comments that begin with a part of the marker, each cut off within it; the second one is
at the end of the source. -/
theorem unmarked_text_unchecked_within_marker :
    Unmarked [['a', '%', 's'], ['s', 'a', '\n', 'b', '%'], ['s']].flatten ∧
      List.Forall₂ (Step.Abreast default)
        ((Suspension.start (Options.withChecks true default) ⟨1, some 1⟩).feed
          [['a', '%', 's'], ['s', 'a', '\n', 'b', '%'], ['s']])
        ((Suspension.start (Options.withChecks false default) ⟨1, some 1⟩).feed
          [['a', '%', 's'], ['s', 'a', '\n', 'b', '%'], ['s']]) ∧
      BeginsMarker ['%', 's'] ∧ Unmarked (['%', 's'] ++ ['s', 'a', '\n']) ∧
      ¬BeginsMarker (['%', 's'] ++ ['s', 'a', '\n']) ∧
      (State.fresh ⟨1, some 1⟩).run (Options.withChecks true default) .form false
          (['%', 's'] ++ ['s', 'a', '\n']) =
        ((State.fresh ⟨1, some 1⟩).commenting ['%', 's']).run (Options.withChecks true default)
          .form false ['s', 'a', '\n'] := by
  obtain ⟨fed, begun⟩ := unmarked_text_unchecked default
  have unmarked : Unmarked [['a', '%', 's'], ['s', 'a', '\n', 'b', '%'], ['s']].flatten := by decide
  exact ⟨unmarked, (fed _ _ unmarked).2, by decide, by decide, by decide,
    begun .form false _ _ _ rfl (by decide) (by decide) (.inr (by decide))⟩

end ErlangLexer
