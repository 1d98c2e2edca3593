import ErlangLexer.Proofs.Fed
import ErlangLexer.Proofs.FormLocation
import ErlangLexer.Proofs.LooseEnds

/-!
# Where a scan has come to

The caller of a scan sees three things of how far it is: the text that is left, where a
suspended scan waits, and where an outcome ends. They fit together:

* `State.suspended_at`: a suspended scan waits at the location of its pending text;
* `StoppedByLayout`: the fault in a triple-quoted string that is read to its closing
  quotes, which is reported where it is;
* `State.stopped_at`: every other outcome ends at the location of the text that is left;
* `Suspension.Fed.located`: and so for every scan, whatever the chunks it was fed in.
-/

namespace ErlangLexer

namespace State

variable {options : Options} {extent : Extent} {ended : Bool} {origin : Location}
  {text rest : List Char}

/-- A run that is left suspended has walked over the text that it has read. -/
theorem suspended_at {state later : State}
    (suspends : state.run options extent ended text = .suspended later rest) :
    ∃ read, text = read ++ rest ∧ later.location = state.location.walk read := by
  fun_induction State.run options extent ended state text with
  | case1 state text step =>
    obtain ⟨rfl, rfl⟩ := Halt.suspended.inj suspends
    exact ⟨[], rfl, rfl⟩
  | case2 state text step => cases suspends
  | case3 state text width next step ih => exact Reached.walk_prepend (ih suspends)
  | case4 state text width kind lexeme next step state' stops => cases suspends
  | case5 state text width kind lexeme next step state' goes_on ih =>
    exact Reached.walk_prepend (ih suspends)
  | case6 state text width error step => cases suspends
  | case7 state text width error finish step => cases suspends

end State

/-- The scan has read a triple-quoted string to its closing quotes and found a fault in its
layout. The outcome is this fault, and ends right behind the characters that are at fault. -/
def StoppedByLayout (options : Options) (extent : Extent) (ended : Bool) (origin : Location)
    (text : List Char) (outcome : Outcome) (left : List Char) : Prop :=
  ∃ state rest draft fault, State.Reached options extent ended origin text state rest ∧
    state.mode = .tripleQuoted draft ∧ draft.AtFault rest fault ∧
    outcome = .error ⟨draft.locate fault.offset, fault.cause⟩
      ((draft.locate fault.offset).shift fault.width) ∧
    left = rest.drop draft.quotes

namespace State

variable {options : Options} {extent : Extent} {ended : Bool} {origin : Location}
  {text rest left : List Char} {outcome : Outcome}

theorem Reached.outcome_of_atFault {state : State}
    (reached : Reached options extent ended origin text state rest) {draft : TripleQuotedDraft}
    (mode : state.mode = .tripleQuoted draft) {fault : Layout.Fault}
    (at_fault : draft.AtFault rest fault)
    (stops : (fresh origin).run options extent ended text = .stopped outcome left) :
    outcome = .error ⟨draft.locate fault.offset, fault.cause⟩
      ((draft.locate fault.offset).shift fault.width) ∧ left = rest.drop draft.quotes := by
  have moved : state.move options ended rest = draft.move state.location rest ended := by
    simp only [move, mode]
  obtain ⟨before, lexeme, amid, -⟩ := reached.amid
  have columns := amid.columns
  have holds := amid.holds
  rw [mode] at holds
  obtain ⟨rfl, made⟩ := holds
  rw [reached.run_eq, State.run_eq, moved] at stops
  rcases TripleQuotedDraft.move_of_atFault state.location ended made columns at_fault with
    waits | rejects
  · rw [waits] at stops
    cases stops
  · rw [rejects] at stops
    obtain ⟨rfl, rfl⟩ := Halt.stopped.inj stops
    exact ⟨rfl, rfl⟩

theorem Reached.stoppedByLayout {state : State}
    (reached : Reached options extent ended origin text state rest) (faulty : state.AtFault rest)
    (stops : (fresh origin).run options extent ended text = .stopped outcome left) :
    StoppedByLayout options extent ended origin text outcome left := by
  obtain ⟨draft, fault, mode, at_fault⟩ := faulty
  obtain ⟨rfl, rfl⟩ := reached.outcome_of_atFault mode at_fault stops
  exact ⟨state, rest, draft, fault, reached, mode, at_fault, rfl, rfl⟩

/-- A scan that stops has walked over the text that it has read, but at a fault of layout. -/
theorem stopped_at (stops : (fresh origin).run options extent ended text = .stopped outcome left) :
    ∃ read, text = read ++ left ∧
      (outcome.finish = origin.walk read ∨
        StoppedByLayout options extent ended origin text outcome left) := by
  rcases Reached.start.finish_or_fault stops with ⟨read, split, finish⟩ | faulty
  · exact ⟨read, split, .inl finish⟩
  · obtain ⟨state, rest, reached, at_fault⟩ := faulty
    obtain ⟨read, split⟩ := run_suffix stops
    exact ⟨read, split.symm, .inr (reached.stoppedByLayout at_fault stops)⟩

end State

/-- **A scan tells where it is.** A suspended scan holds the end of the text that it has been
fed, and its location is the position of this end, counted from where the scan started. When it
finishes, the text that is left is the end of what it has been fed, and the outcome ends at the
position of that, unless it is the fault in the layout of a triple-quoted string. -/
theorem Suspension.Fed.located {options : Options} {origin : Location} {fed : List Char}
    {scan : Suspension} (given : Fed options origin fed scan) :
    (∃ read, fed = read ++ scan.pending ∧ scan.state.location = origin.position read) ∧
    ∀ (input : Input) (outcome : Outcome) (rest : Option (List Char)),
      scan.resume input = .finished outcome rest →
        ∃ read, fed ++ input.text = read ++ rest.getD [] ∧
          (outcome.finish = origin.position read ∨
            StoppedByLayout options .form input.isEnd origin (fed ++ input.text) outcome
              (rest.getD [])) := by
  constructor
  · obtain ⟨read, split, location⟩ := State.suspended_at given.suspends
    exact ⟨read, split, location.trans (origin.walk_eq_position read)⟩
  · intro input outcome rest finished
    obtain ⟨read, split, located⟩ := State.stopped_at (given.stops finished)
    refine ⟨read, split, ?_⟩
    rw [← origin.walk_eq_position]
    exact located

/-- A quoted atom of two lines, whose escape is cut off. The chunk behind it ends a form. -/
theorem Suspension.located_within_escape :
    ∃ scan outcome, Fed default ⟨3, some 5⟩ ['\'', 'a', '\n', 'b', '\\'] scan ∧
      (∃ read, ['\'', 'a', '\n', 'b', '\\'] = read ++ scan.pending ∧
        scan.state.location = Location.position ⟨3, some 5⟩ read) ∧
      scan.resume (.chunk ['n', '\'', '.', ' ', 'x']) = .finished outcome (some ['x']) ∧
      ∃ read, ['\'', 'a', '\n', 'b', '\\'] ++ ['n', '\'', '.', ' ', 'x'] = read ++ ['x'] ∧
        (outcome.finish = Location.position ⟨3, some 5⟩ read ∨
          StoppedByLayout default .form false ⟨3, some 5⟩
            (['\'', 'a', '\n', 'b', '\\'] ++ ['n', '\'', '.', ' ', 'x']) outcome ['x']) := by
  have waits : (State.fresh ⟨3, some 5⟩).run default .form false ['\'', 'a', '\n', 'b', '\\'] =
      .suspended ⟨⟨4, some 2⟩, #[], false,
        .quoted ⟨⟨⟨3, some 5⟩, "'a\nb"⟩, .atom, '\'', "a\nb"⟩⟩ ['\\'] := by decide +kernel
  have stops : State.run default .form false ⟨⟨4, some 2⟩, #[], false,
        .quoted ⟨⟨⟨3, some 5⟩, "'a\nb"⟩, .atom, '\'', "a\nb"⟩⟩
      ['\\', 'n', '\'', '.', ' ', 'x'] =
        .stopped (.tokens #[⟨.atom "a\nb\n", ⟨3, some 5⟩, none⟩, ⟨.dot, ⟨4, some 5⟩, none⟩]
          ⟨4, some 7⟩) ['x'] := by decide +kernel
  have given := Fed.of_run waits
  have finished := finished_of_run ⟨default, _, ['\\']⟩ ['n', '\'', '.', ' ', 'x'] stops
  exact ⟨_, _, given, given.located.1, finished, given.located.2 _ _ _ finished⟩

end ErlangLexer
