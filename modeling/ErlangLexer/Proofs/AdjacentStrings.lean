import ErlangLexer.Proofs.Emissions
import ErlangLexer.Proofs.Findings
import ErlangLexer.Proofs.Unterminated

/-!
# Adjacent strings

No string may start right behind a string in double quotes. A scan remembers it in the mode behind
the string, or in that of the name behind the string of a sigil:

* `Mode.InString`: within a string in double quotes;
* `Mode.BarsString`: right behind one;
* `State.Reached.behind_string`: a scan comes there by the quote that closes such a string, or by
  the two quotes of an empty one, behind which there is no other;
* `State.run_adjacent`: where there is another quote, the scan stops;
* `adjacent_strings_exactly`: and it stops so nowhere else, whatever the chunks.
-/

namespace ErlangLexer

/-! ## Modes -/

/-- Within a string in double quotes, which may be that of a sigil. -/
def Mode.InString : Mode → Prop
  | .quoted draft => draft.close = '"' ∧ draft.quotation ≠ .atom
  | _ => False

/-- Right behind a string in double quotes, and the empty name of its sigil if it has one. -/
def Mode.BarsString : Mode → Prop
  | .afterString => True
  | .name draft => draft.role = .sigilSuffix true ∧ draft.name = ""
  | _ => False

theorem Proceeds.not_barsString {ended : Bool} {here : Location} {mode next : Mode}
    {text : List Char} {width : Nat} (proceeds : Proceeds ended here mode text width next) :
    ¬next.BarsString := by
  cases proceeds with
  | smallName | variableName | tilde => exact fun bars => nomatch bars.1
  | @name draft c rest continues =>
    intro bars
    have something : (draft.name.push c).toList ≠ [] := by simp
    exact something (congrArg String.toList bars.2)
  | _ => exact id

theorem NameDraft.barsString_of_next {draft : NameDraft} (bars : draft.next.BarsString) :
    (Mode.name draft).BarsString := by
  obtain ⟨start, role, name⟩ := draft
  rcases role with _ | _ | _ | quoted
  · exact bars.elim
  · exact bars.elim
  · exact bars.elim
  · cases quoted with
    | false => exact bars.elim
    | true =>
      by_cases none : name = ""
      · exact ⟨rfl, none⟩
      · simp only [next, none, ↓reduceIte] at bars
        exact bars.elim

/-- The token is the string in front, or two quotes with no other one behind, or no character is
read. -/
theorem Emits.of_barsString {options : Options} {checking : Bool} {mode next : Mode}
    {text : List Char} {width : Nat} {kind : Kind}
    (emits : Emits options checking mode text width kind next) (begun : mode.Begun)
    (bars : next.BarsString) :
    (mode.BarsString ∧ width = 0) ∨ (mode.InString ∧ text = '"' :: text.drop width) ∨
      runLength '"' text = width := by
  cases emits with
  | emptyString two => exact .inr (.inr two)
  | emptySigil two => exact .inr (.inr two)
  | name => exact .inl ⟨NameDraft.barsString_of_next bars, rfl⟩
  | @string draft rest string =>
    obtain ⟨opening, body, -, delimits⟩ := begun
    rw [string] at delimits
    have close : draft.close = '"' := delimits.2
    refine .inr (.inl ⟨⟨close, by simp [string]⟩, ?_⟩)
    rw [close]
    rfl
  | @sigilString draft verbatim rest sigil =>
    obtain ⟨quoted, -⟩ := bars
    have close : draft.close = '"' := by simpa using quoted
    refine .inr (.inl ⟨⟨close, by simp [sigil]⟩, ?_⟩)
    rw [close]
    rfl
  | tripleQuotedSigil => exact nomatch bars.1
  | _ => exact bars.elim

namespace State

variable {options : Options} {extent : Extent} {ended : Bool} {origin : Location}
  {text rest left : List Char} {state : State}

/-- Right behind a string in double quotes there is no quote, or the scan has come there by the
quote that closes the string. -/
theorem Reached.behind_string (reached : Reached options extent ended origin text state rest)
    (bars : state.mode.BarsString) :
    rest.head? ≠ some '"' ∨
      ∃ earlier, Reached options extent ended origin text earlier ('"' :: rest) ∧
        earlier.mode.InString := by
  induction reached with
  | start => exact bars.elim
  | read earlier step ih => exact absurd bars (proceeds_of_read step).not_barsString
  | @emit state rest width kind lexeme next earlier step goes_on ih =>
    rcases (emits_of_emit step).of_barsString earlier.begun bars with
      ⟨barred, rfl⟩ | ⟨within, quote⟩ | length
    · exact ih barred
    · rw [quote] at earlier
      exact .inr ⟨state, earlier, within⟩
    · rw [← length]
      exact .inl (head?_drop_runLength '"' rest)

theorem run_barred (bars : state.mode.BarsString) :
    state.run options extent ended ('"' :: left) =
      .stopped (.error ⟨state.location, .adjacentStrings⟩ (state.location.next '"')) left := by
  obtain ⟨location, tokens, checking, mode⟩ := state
  cases mode with
  | afterString =>
    rw [run_eq]
    rfl
  | name draft =>
    obtain ⟨start, role, name⟩ := draft
    obtain ⟨rfl, rfl⟩ := bars
    have step : State.move options ended
        ⟨location, tokens, checking, .name ⟨start, .sigilSuffix true, ""⟩⟩ ('"' :: left) =
          .emit 0 (.sigilSuffix "") ⟨start, ""⟩ .afterString := rfl
    rw [run_eq, step]
    simp only [reduceCtorEq, false_and, ↓reduceIte]
    rw [run_eq]
    rfl
  | _ => exact bars.elim

/-- A string is closed and another quote is behind it. -/
theorem run_adjacent (within : state.mode.InString) :
    state.run options extent ended ('"' :: '"' :: left) =
      .stopped (.error ⟨state.location.next '"', .adjacentStrings⟩
        ((state.location.next '"').next '"')) left := by
  obtain ⟨location, tokens, checking, mode⟩ := state
  cases mode with
  | quoted draft =>
    obtain ⟨lexeme, quotation, close, value⟩ := draft
    obtain ⟨rfl, no_atom⟩ := within
    rw [run_eq]
    cases quotation with
    | atom => exact absurd rfl no_atom
    | string => exact run_barred trivial
    | sigil verbatim => exact run_barred ⟨rfl, rfl⟩
  | _ => exact within.elim

end State

/-! ## The error -/

/-- A scan of the text comes to the quote that closes a string in double quotes, and right behind
it is another one, at `place`. Behind that one, at `finish`, the text goes on with `left`. -/
def AdjacentStrings (options : Options) (extent : Extent) (ended : Bool) (origin : Location)
    (text left : List Char) (place finish : Location) : Prop :=
  ∃ before state, text = before ++ '"' :: '"' :: left ∧
    State.Reached options extent ended origin text state ('"' :: '"' :: left) ∧
    state.mode.InString ∧
    place = origin.position (before ++ ['"']) ∧ finish = origin.position (before ++ ['"', '"'])

/-- Only right behind a string another quote is what is wrong. -/
theorem Fails.of_adjacent {ended : Bool} {here : Location} {mode : Mode} {text : List Char}
    {width : Nat} {error : LexicalError} (fails : Fails ended here mode text width error)
    (cause : error.cause = .adjacentStrings) :
    mode = .afterString ∧ text = '"' :: text.drop width ∧ width = 1 ∧ error.location = here := by
  cases fails with
  | adjacent rest => exact ⟨rfl, rfl, rfl, rfl⟩
  | @openQuoted draft =>
    obtain ⟨lexeme, quotation, close, value⟩ := draft
    cases quotation <;> cases cause
  | @cutQuoted draft =>
    obtain ⟨lexeme, quotation, close, value⟩ := draft
    cases quotation <;> cases cause
  | @openTripleQuoted draft =>
    obtain ⟨lexeme, quotes, sigil, opening, body⟩ := draft
    cases sigil <;> cases cause
  | _ => cases cause

namespace State

variable {options : Options} {extent : Extent} {ended : Bool} {origin : Location}
  {text left : List Char} {place finish : Location}

theorem adjacent_of_stopped
    (stops : (fresh origin).run options extent ended text =
      .stopped (.error ⟨place, .adjacentStrings⟩ finish) left) :
    AdjacentStrings options extent ended origin text left place finish := by
  obtain ⟨last, rest, width, reached, rfl, ⟨step, rfl⟩ | step⟩ := Reached.start.exists_error stops
  · obtain ⟨mode, quote, rfl, rfl⟩ := (fails_of_fail step).of_adjacent rfl
    obtain ⟨left, rfl⟩ : ∃ left, rest = '"' :: left := ⟨_, quote⟩
    have bars : last.mode.BarsString := by
      rw [mode]
      trivial
    rcases reached.behind_string bars with wrong | ⟨earlier, closing, within⟩
    · exact absurd rfl wrong
    · obtain ⟨before, split, -⟩ := closing.walked
      obtain ⟨read, whole, located⟩ := reached.walked
      have front : read = before ++ ['"'] := by
        rw [split, List.append_cons] at whole
        exact (List.append_cancel_right whole).symm
      refine ⟨before, earlier, split, closing, within, ?_, ?_⟩
      · rw [located, front, Location.walk_eq_position]
      · rw [located, front, ← Location.walk_append, Location.walk_eq_position, List.append_assoc]
        rfl
  · rcases reached.cause_of_reject step with wrong | wrong | wrong <;> cases wrong

theorem stopped_of_adjacent
    (adjacent : AdjacentStrings options extent ended origin text left place finish) :
    (fresh origin).run options extent ended text =
      .stopped (.error ⟨place, .adjacentStrings⟩ finish) left := by
  obtain ⟨before, state, split, reached, within, rfl, rfl⟩ := adjacent
  obtain ⟨read, whole, located⟩ := reached.walked
  obtain rfl := List.append_cancel_right (split.symm.trans whole)
  rw [reached.run_eq, run_adjacent within, located, ← Location.walk_eq_position,
    ← Location.walk_eq_position, Location.walk_append, Location.walk_append]
  rfl

end State

/-- An error is the first of what is found if the run over all of the text stops with it. -/
theorem Suspension.head?_found_eq_error_iff {scan : Suspension} {queue : List (List Char)}
    {error : LexicalError} {finish : Location} :
    (scan.found queue).head? = some (.error error finish) ↔
      ∃ left, scan.ahead queue = .stopped (.error error finish) left := by
  obtain ⟨outcome, left, stops⟩ :=
    scan.state.run_ended scan.options .form (scan.pending ++ queue.flatten)
  have ahead : scan.ahead queue = .stopped outcome left := stops
  cases nothing : outcome.isNothing with
  | true =>
    have found : scan.found queue = [] := by
      rw [found_eq, ahead]
      simp [Halt.settle, outcomesFrom, nothing, shown]
    rw [found, ahead]
    constructor
    · intro same
      cases same
    · rintro ⟨_, same⟩
      rw [(Halt.stopped.inj same).1] at nothing
      cases nothing
  | false =>
    rw [found_of_stopped ahead nothing, ahead, List.head?_cons]
    constructor
    · exact fun same => ⟨left, by rw [Option.some.inj same]⟩
    · rintro ⟨_, same⟩
      rw [(Halt.stopped.inj same).1]

/-- **The error of adjacent strings is exact.** A scan stops with it just where it comes to the
quote that closes a string in double quotes, plain or of a sigil, and the very next character is a
quote. The error is at that quote and ends behind it, and the text behind it is left. So it is
for a scan that is fed in chunks, by all the text that it has been fed, and for all that a feed
finds, however the text is cut. -/
theorem adjacent_strings_exactly :
    (∀ (options : Options) (extent : Extent) (ended : Bool) (origin : Location)
      (text left : List Char) (place finish : Location),
      (State.fresh origin).run options extent ended text =
          .stopped (.error ⟨place, .adjacentStrings⟩ finish) left ↔
        AdjacentStrings options extent ended origin text left place finish) ∧
    (∀ (options : Options) (origin : Location) (fed : List Char) (scan : Suspension)
      (input : Input) (left : List Char) (place finish : Location),
      Suspension.Fed options origin fed scan →
        ((∃ rest, scan.resume input = .finished (.error ⟨place, .adjacentStrings⟩ finish) rest ∧
            rest.getD [] = left) ↔
          AdjacentStrings options .form input.isEnd origin (fed ++ input.text) left place finish)) ∧
    ∀ (options : Options) (origin : Location) (queue : List (List Char))
      (place finish : Location),
      (((Suspension.start options origin).found queue).head? =
          some (.error ⟨place, .adjacentStrings⟩ finish) ↔
        ∃ left, AdjacentStrings options .form true origin queue.flatten left place finish) ∧
      ∀ left, AdjacentStrings options .form true origin queue.flatten left place finish →
        (Suspension.start options origin).found queue =
          .error ⟨place, .adjacentStrings⟩ finish ::
            (Suspension.start options finish).found [left] := by
  refine ⟨?_, ?_, ?_⟩
  · exact fun options extent ended origin text left place finish =>
      ⟨State.adjacent_of_stopped, State.stopped_of_adjacent⟩
  · intro options origin fed scan input left place finish given
    constructor
    · rintro ⟨rest, finished, rfl⟩
      exact State.adjacent_of_stopped (given.stops finished)
    · intro adjacent
      have stops := State.stopped_of_adjacent adjacent
      rw [given.run_eq] at stops
      refine ⟨_, by rw [Suspension.resume, stops], ?_⟩
      cases input <;> cases left <;> rfl
  · intro options origin queue place finish
    refine ⟨Suspension.head?_found_eq_error_iff.trans ?_, ?_⟩
    · constructor
      · rintro ⟨left, stops⟩
        exact ⟨left, State.adjacent_of_stopped stops⟩
      · rintro ⟨left, adjacent⟩
        exact ⟨left, State.stopped_of_adjacent adjacent⟩
    · intro left adjacent
      exact Suspension.found_of_stopped (State.stopped_of_adjacent adjacent) rfl

/-- The string of a sigil without a name, which is cut right behind the quote that closes it. -/
theorem adjacent_strings_exactly_across_chunks :
    ∃ scan, Suspension.Fed default ⟨1, some 1⟩ "~\"a\"".toList scan ∧
      (∃ rest, scan.resume (.chunk "\"b\"".toList) =
          .finished (.error ⟨⟨1, some 5⟩, .adjacentStrings⟩ ⟨1, some 6⟩) rest ∧
        rest.getD [] = "b\"".toList) ∧
      AdjacentStrings default .form false ⟨1, some 1⟩ "~\"a\"\"b\"".toList "b\"".toList
        ⟨1, some 5⟩ ⟨1, some 6⟩ := by
  have waits : (State.fresh ⟨1, some 1⟩).run default .form false "~\"a\"".toList =
      .suspended ⟨⟨1, some 5⟩,
        #[⟨.sigilPrefix "", ⟨1, some 1⟩, none⟩, ⟨.string "a", ⟨1, some 2⟩, none⟩], false,
        .name ⟨⟨1, some 5⟩, .sigilSuffix true, ""⟩⟩ [] := by
    decide +kernel
  have stops : (State.fresh ⟨1, some 1⟩).run default .form false "~\"a\"\"b\"".toList =
      .stopped (.error ⟨⟨1, some 5⟩, .adjacentStrings⟩ ⟨1, some 6⟩) "b\"".toList := by
    decide +kernel
  have given := Suspension.Fed.of_run waits
  have adjacent := (adjacent_strings_exactly.1 _ _ _ _ _ _ _ _).mp stops
  exact ⟨_, given,
    (adjacent_strings_exactly.2.1 _ _ _ _ (.chunk "\"b\"".toList) _ _ _ given).mpr adjacent,
    adjacent⟩

end ErlangLexer
