import ErlangLexer.Proofs.Tiling

/-!
# Where the next form starts

The forms of a text are scanned one after the other, each from where the one before it
ended. An error ends where its text ends, which is where the scan has come to, but for one
kind: a fault in the layout of a triple-quoted string ends where the fault is, though the
string is read to its closing quotes.

* `State.Reached`: the states that a scan passes;
* `scanEnded_located`: where a scan of a complete text ends, at a fault and otherwise;
* `Forms.MetFault`: some call has ended at a fault of layout;
* `Forms.location_after`: until then every form starts, and every token is, where it should
  be, and from then on the lines are short.
-/

namespace ErlangLexer

/-- The states that a scan of a text passes, each with the text then in front of it. -/
inductive State.Reached (options : Options) (extent : Extent) (ended : Bool) (origin : Location)
    (text : List Char) : State → List Char → Prop where
  | start : Reached options extent ended origin text (.fresh origin) text
  | read {state : State} {rest : List Char} {width : Nat} {next : Mode}
      (earlier : Reached options extent ended origin text state rest)
      (step : state.move options ended rest = .read width next) :
      Reached options extent ended origin text (state.read rest width next) (rest.drop width)
  | emit {state : State} {rest : List Char} {width : Nat} {kind : Kind} {lexeme : Lexeme}
      {next : Mode} (earlier : Reached options extent ended origin text state rest)
      (step : state.move options ended rest = .emit width kind lexeme next)
      (goes_on : ¬(kind = .dot ∧ extent = .form)) :
      Reached options extent ended origin text
        ((state.record options kind lexeme).read rest width next) (rest.drop width)

namespace State.Reached

variable {options : Options} {extent : Extent} {ended : Bool} {origin : Location}
  {text rest : List Char} {state : State}

theorem run_eq (reached : Reached options extent ended origin text state rest) :
    (fresh origin).run options extent ended text = state.run options extent ended rest := by
  induction reached with
  | start => rfl
  | read earlier step ih =>
    rw [ih, State.run_eq, step]
  | emit earlier step goes_on ih =>
    rw [ih, State.run_eq, step]
    exact if_neg goes_on

theorem amid (reached : Reached options extent ended origin text state rest) :
    ∃ before lexeme, state.Amid origin before lexeme ∧
      text = before ++ (lexeme.source.toList ++ rest) := by
  induction reached with
  | start => exact ⟨[], _, amid_fresh origin [], rfl⟩
  | @read state rest width next earlier step ih =>
    obtain ⟨before, lexeme, amid, split⟩ := ih
    rw [← lexeme.extend_drop rest width] at split
    rcases amid.keeps step (by simp) (by simp) with held | ⟨rfl, _⟩
    · exact ⟨before, _, amid.read held, split⟩
    · exact ⟨_, _, amid.renew rfl, split.trans (List.append_assoc _ _ _).symm⟩
  | @emit state rest width kind emitted next earlier step goes_on ih =>
    obtain ⟨before, lexeme, amid, split⟩ := ih
    rw [← lexeme.extend_drop rest width] at split
    obtain ⟨rfl, holds⟩ := amid.keeps step (by simp) (by simp)
    exact ⟨_, _, amid.emit options kind holds, split.trans (List.append_assoc _ _ _).symm⟩

theorem walked (reached : Reached options extent ended origin text state rest) :
    ∃ read, text = read ++ rest ∧ state.location = origin.walk read := by
  obtain ⟨before, lexeme, amid, split⟩ := reached.amid
  refine ⟨before ++ lexeme.source.toList, by rw [split, List.append_assoc], ?_⟩
  rw [Location.walk_append, ← amid.start, amid.here]

theorem atFault_of_reject (reached : Reached options extent ended origin text state rest)
    {width : Nat} {error : LexicalError} {finish : Location}
    (step : state.move options ended rest = .reject width error finish) : state.AtFault rest := by
  obtain ⟨before, lexeme, amid, _⟩ := reached.amid
  rcases state.move_keeps options ended rest amid.here amid.holds with keeps | faulty
  · rw [step] at keeps
    exact keeps.elim
  · exact faulty

theorem walk_prepend {here there : Location} {width : Nat} {left : List Char}
    (later : ∃ read, rest.drop width = read ++ left ∧
      there = (here.walk (rest.take width)).walk read) :
    ∃ read, rest = read ++ left ∧ there = here.walk read := by
  obtain ⟨read, split, walked⟩ := later
  refine ⟨rest.take width ++ read, ?_, ?_⟩
  · rw [List.append_assoc, ← split, List.take_append_drop]
  · rw [Location.walk_append]
    exact walked

/-- From each state the scan stops where it has come to, or it meets a fault. -/
theorem finish_or_fault (reached : Reached options extent ended origin text state rest)
    {outcome : Outcome} {left : List Char}
    (stops : state.run options extent ended rest = .stopped outcome left) :
    (∃ read, rest = read ++ left ∧ outcome.finish = state.location.walk read) ∨
      ∃ last behind, Reached options extent ended origin text last behind ∧
        last.AtFault behind := by
  fun_induction State.run options extent ended state rest with
  | case1 state rest step => cases stops
  | case2 state rest step =>
    obtain ⟨rfl, rfl⟩ := Halt.stopped.inj stops
    exact .inl ⟨[], rfl, state.finish_outcome⟩
  | case3 state rest width next step ih =>
    exact (ih (reached.read step) stops).imp_left walk_prepend
  | case4 state rest width kind lexeme next step state' stops_here =>
    obtain ⟨rfl, rfl⟩ := Halt.stopped.inj stops
    exact .inl ⟨rest.take width, (List.take_append_drop width rest).symm, state'.finish_outcome⟩
  | case5 state rest width kind lexeme next step state' goes_on ih =>
    exact (ih (reached.emit step goes_on) stops).imp_left walk_prepend
  | case6 state rest width error step =>
    obtain ⟨rfl, rfl⟩ := Halt.stopped.inj stops
    exact .inl ⟨rest.take width, (List.take_append_drop width rest).symm, rfl⟩
  | case7 state rest width error finish step =>
    exact .inr ⟨state, rest, reached, reached.atFault_of_reject step⟩

/-- A scan that stops with an error comes to the move that finds it. -/
theorem exists_error (reached : Reached options extent ended origin text state rest)
    {error : LexicalError} {finish : Location} {left : List Char}
    (stops : state.run options extent ended rest = .stopped (.error error finish) left) :
    ∃ last behind width, Reached options extent ended origin text last behind ∧
      left = behind.drop width ∧
      ((last.move options ended behind = .fail width error ∧
          finish = last.location.walk (behind.take width)) ∨
        last.move options ended behind = .reject width error finish) := by
  have sound {here : State} (wrong : here.outcome = .error error finish) : False := by
    have found := here.tokens?_outcome
    rw [wrong] at found
    cases found
  fun_induction State.run options extent ended state rest with
  | case1 state rest step => cases stops
  | case2 state rest step => exact (sound (Halt.stopped.inj stops).1).elim
  | case3 state rest width next step ih => exact ih (reached.read step) stops
  | case4 state rest width kind lexeme next step state' stops_here =>
    exact (sound (Halt.stopped.inj stops).1).elim
  | case5 state rest width kind lexeme next step state' goes_on ih =>
    exact ih (reached.emit step goes_on) stops
  | case6 state rest width found step =>
    obtain ⟨same, rfl⟩ := Halt.stopped.inj stops
    obtain ⟨rfl, rfl⟩ := Outcome.error.inj same
    exact ⟨state, rest, width, reached, rfl, .inl ⟨step, rfl⟩⟩
  | case7 state rest width found behind step =>
    obtain ⟨same, rfl⟩ := Halt.stopped.inj stops
    obtain ⟨rfl, rfl⟩ := Outcome.error.inj same
    exact ⟨state, rest, width, reached, rfl, .inr step⟩

/-- A scan that meets a fault ends on a line before the one it has come to. -/
theorem line_of_atFault (reached : Reached options extent true origin text state rest)
    (faulty : state.AtFault rest) {outcome : Outcome} {left : List Char}
    (stops : (fresh origin).run options extent true text = .stopped outcome left) :
    ∃ read, text = read ++ left ∧
      outcome.finish.line.toInt < origin.line.toInt + read.count '\n' := by
  obtain ⟨before, lexeme, amid, split⟩ := reached.amid
  obtain ⟨location, tokens, checking, mode⟩ := state
  obtain ⟨draft, fault, rfl, at_fault⟩ := faulty
  obtain ⟨rfl, made⟩ := amid.holds
  have behind := TripleQuotedDraft.lineBreak_behind_fault made at_fault
  have early : (draft.locate fault.offset).line.toInt ≤
      origin.line.toInt + (before ++ draft.lexeme.source.toList.take fault.offset).count '\n' := by
    rw [TripleQuotedDraft.locate, amid.start, ← Location.walk_append]
    exact origin.line_walk_le _
  have more : 0 < (draft.lexeme.source.toList.drop fault.offset).count '\n' :=
    List.count_pos_iff.mpr behind
  have source := congrArg (List.count '\n') (List.take_append_drop fault.offset
    draft.lexeme.source.toList)
  rw [reached.run_eq, State.run_eq] at stops
  rcases TripleQuotedDraft.move_of_atFault location true made amid.columns at_fault with
    waits | rejects
  · have fits := draft.move_fits location rest true
    rw [waits] at fits
    cases fits
  · have step : State.move options true ⟨location, tokens, checking, .tripleQuoted draft⟩ rest =
        _ := rejects
    rw [step] at stops
    obtain ⟨rfl, rfl⟩ := Halt.stopped.inj stops
    refine ⟨before ++ (draft.lexeme.source.toList ++ rest.take draft.quotes), ?_, ?_⟩
    · rw [List.append_assoc, List.append_assoc, List.take_append_drop]
      exact split
    · simp only [Outcome.finish, Location.line_shift, List.count_append] at early source ⊢
      omega

end State.Reached

/-- A scan of a complete text meets a fault of layout. -/
def MeetsFault (options : Options) (extent : Extent) (location : Location) (text : List Char) :
    Prop :=
  ∃ state rest, State.Reached options extent true location text state rest ∧ state.AtFault rest

/-- A scan ends where it has come to, but at a fault on an earlier line. -/
theorem scanEnded_located (options : Options) (extent : Extent) (location : Location)
    (text : List Char) :
    ∃ read, text = read ++ (scanEnded options extent location text).2 ∧
      (¬MeetsFault options extent location text →
        (scanEnded options extent location text).1.finish = location.walk read) ∧
      (MeetsFault options extent location text →
        (scanEnded options extent location text).1.finish.line.toInt <
          location.line.toInt + read.count '\n') := by
  have stops := scanEnded_stops options extent location text
  by_cases met : MeetsFault options extent location text
  · obtain ⟨state, rest, reached, faulty⟩ := met
    obtain ⟨read, split, early⟩ := reached.line_of_atFault faulty stops
    exact ⟨read, split, fun sound => absurd ⟨state, rest, reached, faulty⟩ sound, fun _ => early⟩
  · rcases State.Reached.start.finish_or_fault stops with ⟨read, split, finish⟩ | faulty
    · exact ⟨read, split, fun _ => finish, fun faulty => absurd faulty met⟩
    · exact absurd faulty met

namespace Forms

/-- The next call meets a fault of layout. -/
def AtFault (forms : Forms) : Prop :=
  MeetsFault forms.options .form forms.location forms.rest

/-- The forms behind `n` calls, if each of them has found something. -/
def after? (forms : Forms) : Nat → Option Forms
  | 0 => some forms
  | n + 1 => (forms.after? n).bind fun last => last.next?.map (·.2)

/-- One of the first `n` calls has met a fault of layout. -/
def MetFault (forms : Forms) (n : Nat) : Prop :=
  ∃ k last, k < n ∧ forms.after? k = some last ∧ last.AtFault

theorem metFault_succ {forms last : Forms} {n : Nat} (calls : forms.after? n = some last) :
    forms.MetFault (n + 1) ↔ forms.MetFault n ∨ last.AtFault := by
  constructor
  · rintro ⟨k, faulty, before, calls', at_fault⟩
    by_cases now : k = n
    · subst now
      obtain rfl := Option.some.inj (calls.symm.trans calls')
      exact .inr at_fault
    · exact .inl ⟨k, faulty, by omega, calls', at_fault⟩
  · rintro (⟨k, faulty, before, calls', at_fault⟩ | at_fault)
    · exact ⟨k, faulty, by omega, calls', at_fault⟩
    · exact ⟨n, last, by omega, calls, at_fault⟩

variable {forms later : Forms} {outcome : Outcome}

theorem of_next? (found : forms.next? = some (outcome, later)) :
    outcome = (scanEnded forms.options .form forms.location forms.rest).1 ∧
      later.rest = (scanEnded forms.options .form forms.location forms.rest).2 ∧
      later.location = outcome.finish ∧ later.options = forms.options := by
  unfold next? at found
  split at found
  · cases found
  · obtain ⟨rfl, rfl⟩ := Prod.mk.inj (Option.some.inj found)
    exact ⟨rfl, rfl, rfl, rfl⟩

/-- One call reads some of the text, and tells the location behind it but at a fault. -/
theorem next?_located (found : forms.next? = some (outcome, later)) :
    ∃ read, forms.rest = read ++ later.rest ∧
      (¬forms.AtFault → later.location = forms.location.walk read) ∧
      (forms.AtFault →
        later.location.line.toInt < forms.location.line.toInt + read.count '\n') := by
  obtain ⟨rfl, rest, location, _⟩ := of_next? found
  rw [rest, location]
  exact scanEnded_located forms.options .form forms.location forms.rest

theorem next?_tiled {origin : Location} {before : List Char} {list : List Token}
    (here : forms.location = origin.walk before) (found : forms.next? = some (outcome, later))
    (listed : outcome.tokens? = some list) :
    ∃ read tokens, forms.rest = read ++ later.rest ∧
      list = tokens.map (Token.kept forms.options) ∧ Tiles origin false before tokens read := by
  obtain ⟨rfl, rest, _, _⟩ := of_next? found
  rw [here] at rest listed
  obtain ⟨read, tokens, split, kept, _, tiles⟩ :=
    scanEnded_tiled forms.options .form origin before forms.rest listed
  exact ⟨read, tokens, rest ▸ split, kept, tiles⟩

/-- Calls read the text in order, and tell the location behind it until one is at a fault. -/
theorem after?_located {options : Options} {origin : Location} {text : List Char} {n : Nat}
    (calls : (ofText options origin text).after? n = some later) :
    ∃ consumed, text = consumed ++ later.rest ∧ later.options = options ∧
      (¬(ofText options origin text).MetFault n → later.location = origin.walk consumed) ∧
      ((ofText options origin text).MetFault n →
        later.location.line.toInt < origin.line.toInt + consumed.count '\n') := by
  induction n generalizing later with
  | zero =>
    obtain rfl := Option.some.inj calls
    refine ⟨[], rfl, rfl, fun _ => rfl, ?_⟩
    rintro ⟨k, last, before, _⟩
    exact absurd before (Nat.not_lt_zero k)
  | succ n ih =>
    obtain ⟨last, earlier, next⟩ := Option.bind_eq_some_iff.mp calls
    obtain ⟨⟨outcome, behind⟩, found, named⟩ := Option.map_eq_some_iff.mp next
    obtain rfl : behind = later := named
    obtain ⟨consumed, split, same, located, short⟩ := ih earlier
    obtain ⟨read, split', located', short'⟩ := next?_located found
    refine ⟨consumed ++ read, ?_, (of_next? found).2.2.2.trans same, ?_, ?_⟩
    · rw [List.append_assoc, ← split']
      exact split
    · intro sound
      rw [metFault_succ earlier, not_or] at sound
      rw [located' sound.2, located sound.1, Location.walk_append]
    · intro met
      rw [List.count_append]
      have most : behind.location.line.toInt ≤ last.location.line.toInt + read.count '\n' := by
        by_cases at_fault : last.AtFault
        · exact Int.le_of_lt (short' at_fault)
        · rw [located' at_fault]
          exact last.location.line_walk_le read
      have most_before : last.location.line.toInt ≤ origin.line.toInt + consumed.count '\n' := by
        by_cases lost : (ofText options origin text).MetFault n
        · exact Int.le_of_lt (short lost)
        · rw [located lost]
          exact origin.line_walk_le consumed
      -- A line lost is never regained, so it does not matter which call has lost it.
      rcases (metFault_succ earlier).mp met with lost | at_fault
      · have := short lost
        omega
      · have := short' at_fault
        omega

/-- **Forms start where they should until a fault of layout.** The calls on a text read it
in order. As long as none of them has met a triple-quoted string whose layout is at fault,
the next form starts at the position of the text that is left, and every token of it is at
its own position. Once one has, the lines from there on are less than those of the text. -/
theorem location_after {options : Options} {origin : Location} {text : List Char} {n : Nat}
    (calls : (ofText options origin text).after? n = some later) :
    ∃ consumed, text = consumed ++ later.rest ∧
      (¬(ofText options origin text).MetFault n →
        later.location = origin.position consumed ∧
          ∀ outcome next list, later.next? = some (outcome, next) →
            outcome.tokens? = some list →
            ∃ read tokens, later.rest = read ++ next.rest ∧
              list = tokens.map (Token.kept options) ∧
              Tiles origin false consumed tokens read) ∧
      ((ofText options origin text).MetFault n →
        later.location.line.toInt < origin.line.toInt + consumed.count '\n') := by
  obtain ⟨consumed, split, rfl, located, short⟩ := after?_located calls
  refine ⟨consumed, split, ?_, short⟩
  intro sound
  refine ⟨(located sound).trans (origin.walk_eq_position consumed), ?_⟩
  intro outcome next list found listed
  exact next?_tiled (located sound) found listed

/-- A string with a line that is not indented. The text behind it starts in the third
line. -/
theorem location_behind_bad_indentation :
    (ofText default ⟨1, some 1⟩ "\"\"\"\nx\n  \"\"\". a.".toList).after? 1 =
        some ⟨". a.".toList, ⟨2, some 2⟩, default, false⟩ ∧
      Location.position ⟨1, some 1⟩ "\"\"\"\nx\n  \"\"\"".toList = ⟨3, some 6⟩ ∧
      (ofText default ⟨1, some 1⟩ "\"\"\"\nx\n  \"\"\". a.".toList).MetFault 1 := by
  have found : scanEnded default .form ⟨1, some 1⟩ "\"\"\"\nx\n  \"\"\". a.".toList =
      (.error ⟨⟨2, some 1⟩, .indentation⟩ ⟨2, some 2⟩, ". a.".toList) := by decide +kernel
  have calls : (ofText default ⟨1, some 1⟩ "\"\"\"\nx\n  \"\"\". a.".toList).after? 1 =
      some ⟨". a.".toList, ⟨2, some 2⟩, default, false⟩ := by
    simp only [after?, next?, ofText, Option.bind_some, found]
    rfl
  have behind : Location.position ⟨1, some 1⟩ "\"\"\"\nx\n  \"\"\"".toList = ⟨3, some 6⟩ := by
    decide +kernel
  refine ⟨calls, behind, ?_⟩
  by_contra sound
  obtain ⟨consumed, split, located, _⟩ := location_after calls
  have read : "\"\"\"\nx\n  \"\"\"".toList = consumed := List.append_cancel_right split
  have wrong := (located sound).1
  rw [← read, behind] at wrong
  cases wrong

end Forms

end ErlangLexer
