import ErlangLexer.CommandLine.Chunks
import ErlangLexer.Proofs.Fed
import ErlangLexer.Proofs.FormLocation
import ErlangLexer.Proofs.LooseEnds

/-!
# Scans come to an end

Not every move reads a character, and not every scan reads the text it is given to the end.
Still all of them get somewhere:

* `State.Moves.bounded`: a scan makes at most three moves for each character it reads, and
  two more;
* `State.exists_halt`: so it comes to a move that halts it;
* `Suspension.Fed.reads`: a scan that has found tokens or an error has read something;
* `Forms.exists_last`: a text has no more forms than characters, and one;
* `Suspension.length_feed_le`: the steps of a feed are bounded by the text and its chunks;
* `scanning_ends`: all of this together.
-/

namespace ErlangLexer

/-! ## Moves -/

/-- A scan goes no further than this move. -/
def Move.Halts (extent : Extent) : Move → Prop
  | .read _ _ => False
  | .emit _ kind _ _ => kind = .dot ∧ extent = .form
  | .wait | .finish | .fail _ _ | .reject _ _ _ => True

namespace State

/-- So many moves, one after the other, lead from a state and the text in front of it to
another, and none of them halts the scan. -/
inductive Moves (options : Options) (extent : Extent) (ended : Bool) :
    Nat → State → List Char → State → List Char → Prop where
  | none (state : State) (text : List Char) : Moves options extent ended 0 state text state text
  | read {n : Nat} {state last : State} {text rest : List Char} {width : Nat} {next : Mode}
      (step : state.move options ended text = .read width next)
      (later : Moves options extent ended n (state.read text width next) (text.drop width)
        last rest) :
      Moves options extent ended (n + 1) state text last rest
  | emit {n : Nat} {state last : State} {text rest : List Char} {width : Nat} {kind : Kind}
      {lexeme : Lexeme} {next : Mode}
      (step : state.move options ended text = .emit width kind lexeme next)
      (goes_on : ¬(kind = .dot ∧ extent = .form))
      (later : Moves options extent ended n
        ((state.record options kind lexeme).read text width next) (text.drop width) last rest) :
      Moves options extent ended (n + 1) state text last rest

variable {options : Options} {extent : Extent} {ended : Bool} {n : Nat} {state last : State}
  {text rest : List Char}

namespace Moves

/-- The run from where the moves lead is the run from where they start. -/
theorem run_eq (moves : Moves options extent ended n state text last rest) :
    state.run options extent ended text = last.run options extent ended rest := by
  induction moves with
  | none state text => rfl
  | read step later ih =>
    rw [State.run_eq, step]
    exact ih
  | emit step goes_on later ih =>
    rw [State.run_eq, step]
    exact (if_neg goes_on).trans ih

theorem suffix (moves : Moves options extent ended n state text last rest) : rest <:+ text := by
  induction moves with
  | none state text => exact List.suffix_refl text
  | read step later ih => exact ih.trans (List.drop_suffix _ _)
  | emit step goes_on later ih => exact ih.trans (List.drop_suffix _ _)

theorem potential_le (moves : Moves options extent ended n state text last rest) :
    n + last.potential rest ≤ state.potential text := by
  induction moves with
  | none state text => exact Nat.le_of_eq (Nat.zero_add _)
  | read step later ih =>
    have less := potential_read_lt (fits_of_move step)
    omega
  | @emit n state last text rest width kind lexeme next step goes_on later ih =>
    have less : ((state.record options kind lexeme).read text width next).potential
        (text.drop width) < state.potential text := potential_read_lt (fits_of_move step)
    omega

/-- At most two moves in a row read nothing. -/
theorem bounded (moves : Moves options extent ended n state text last rest) :
    n ≤ 3 * (text.length - rest.length) + 2 := by
  have less := moves.potential_le
  have shorter := moves.suffix.length_le
  have low := state.mode.rank_le_two
  simp only [potential] at less
  omega

end Moves

/-- From every state a scan comes to a move that halts it. -/
theorem exists_halt (options : Options) (extent : Extent) (ended : Bool) (state : State)
    (text : List Char) :
    ∃ n last rest, Moves options extent ended n state text last rest ∧
      (last.move options ended rest).Halts extent := by
  fun_induction State.run options extent ended state text with
  | case1 state text step => exact ⟨0, state, text, .none state text, by rw [step]; trivial⟩
  | case2 state text step => exact ⟨0, state, text, .none state text, by rw [step]; trivial⟩
  | case3 state text width next step ih =>
    obtain ⟨n, last, rest, moves, halts⟩ := ih
    exact ⟨n + 1, last, rest, .read step moves, halts⟩
  | case4 state text width kind lexeme next step state' stops =>
    exact ⟨0, state, text, .none state text, by rw [step]; exact stops⟩
  | case5 state text width kind lexeme next step state' goes_on ih =>
    obtain ⟨n, last, rest, moves, halts⟩ := ih
    exact ⟨n + 1, last, rest, .emit step goes_on moves, halts⟩
  | case6 state text width error step =>
    exact ⟨0, state, text, .none state text, by rw [step]; trivial⟩
  | case7 state text width error finish step =>
    exact ⟨0, state, text, .none state text, by rw [step]; trivial⟩

/-! ## Scans -/

theorem reads_of_fresh {origin : Location} {outcome : Outcome}
    (stops : (fresh origin).run options extent ended text = .stopped outcome rest)
    (found : outcome.isNothing = false) : ∃ read, read ≠ [] ∧ text = read ++ rest := by
  obtain ⟨read, split⟩ := run_suffix stops
  refine ⟨read, ?_, split.symm⟩
  rintro rfl
  obtain rfl : rest = text := split
  have within := (fresh origin).run_within options extent ended rest
  rw [stops] at within
  rcases within with less | ⟨rfl, rfl⟩
  · exact absurd less (Nat.lt_irrefl _)
  · rw [State.run_eq] at stops
    obtain ⟨rfl, -⟩ := Halt.stopped.inj stops
    cases found

end State

/-- A scan that has found tokens or an error has read some of the text fed to it. -/
theorem Suspension.Fed.reads {options : Options} {origin : Location} {fed : List Char}
    {scan : Suspension} (given : Fed options origin fed scan) {input : Input} {outcome : Outcome}
    {rest : Option (List Char)} (finished : scan.resume input = .finished outcome rest)
    (found : outcome.isNothing = false) :
    ∃ read, read ≠ [] ∧ fed ++ input.text = read ++ rest.getD [] :=
  State.reads_of_fresh (given.stops finished) found

/-! ## Forms -/

namespace Forms

theorem after?_bound {forms last : Forms} {n : Nat} (calls : forms.after? n = some last) :
    n + last.bound ≤ forms.bound := by
  induction n generalizing last with
  | zero =>
    obtain rfl := Option.some.inj calls
    exact Nat.le_of_eq (Nat.zero_add _)
  | succ n ih =>
    obtain ⟨earlier, before, next⟩ := Option.bind_eq_some_iff.mp calls
    obtain ⟨⟨outcome, behind⟩, found, rfl⟩ := Option.map_eq_some_iff.mp next
    have less := bound_next found
    have total := ih before
    simp only at less ⊢
    omega

/-- From every call on there is a last one. -/
theorem exists_last (forms : Forms) {n : Nat} {here : Forms} (calls : forms.after? n = some here) :
    ∃ m last, forms.after? m = some last ∧ last.next? = none := by
  induction left : here.bound using Nat.strongRecOn generalizing n here with
  | ind left ih =>
    cases found : here.next? with
    | none => exact ⟨n, here, calls, found⟩
    | some next =>
      obtain ⟨outcome, later⟩ := next
      have behind : forms.after? (n + 1) = some later := by
        simp only [after?, calls, Option.bind_some, found, Option.map_some]
      exact ih later.bound (left ▸ bound_next found) behind rfl

end Forms

/-! ## Chunks -/

/-- A feed takes at most one step for each chunk, and two for each character of the text. -/
theorem Suspension.length_feed_le {options : Options} {origin : Location} {fed : List Char}
    {scan : Suspension} (given : Fed options origin fed scan) (queue : List (List Char)) :
    (scan.feed queue).length ≤ queue.length + 2 * (fed.length + queue.flatten.length) + 1 := by
  fun_induction feed scan queue generalizing options origin fed with
  | case1 scan queue next h ih =>
    cases queue with
    | nil =>
      have within := scan.resume_within .ended
      rw [show scan.resume .ended = .suspended next from h] at within
      cases within.1
    | cons chunk later =>
      have steps := ih (given.next h)
      simp only [List.length_cons, List.tail_cons, List.flatten_cons, List.length_append] at steps ⊢
      omega
  | case2 scan queue outcome h =>
    simp only [List.length_singleton]
    omega
  | case3 scan queue outcome rest h ih =>
    have total := Input.length_ofQueue queue
    have shorter : queue.tail.length = queue.length - 1 := List.length_tail
    rw [List.length_cons]
    split
    · simp only [List.length_nil]
      omega
    · rename_i found
      obtain ⟨read, something, split⟩ := given.reads h (Bool.eq_false_iff.mpr found)
      have positive := List.length_pos_iff.mpr something
      have length := congrArg List.length split
      have steps := ih .start
      simp only [List.length_append, Option.getD_some, List.length_cons, List.flatten_cons,
        List.length_nil] at length steps
      omega

/-- No chunk is empty, so a text has no more chunks than characters. -/
theorem CommandLine.length_chunks_le (size : Nat) (text : List Char) :
    (chunks size text).length ≤ text.length := by
  fun_induction chunks size text with
  | case1 => exact Nat.le_refl _
  | case2 c rest more ih =>
    simp only [List.length_drop] at ih
    simp only [List.length_cons]
    omega

/-! ## Together -/

/-- **Scanning ends.** From every state and in front of every text a scan comes to a move that
halts it, and makes no more than two moves on its way without reading a character. A scan that
has found tokens or an error has read a character since it began, whatever the chunks it was
fed in. So there are no more forms in a text than characters and one, and there is an end to
feeding a text in chunks of any size, however many errors it holds. -/
theorem scanning_ends :
    (∀ (options : Options) (extent : Extent) (ended : Bool) (state : State) (text : List Char),
      (∃ n last rest, State.Moves options extent ended n state text last rest ∧
        (last.move options ended rest).Halts extent) ∧
      ∀ n last rest, State.Moves options extent ended n state text last rest →
        rest <:+ text ∧ n ≤ 3 * (text.length - rest.length) + 2 ∧
          state.run options extent ended text = last.run options extent ended rest) ∧
    (∀ (options : Options) (origin : Location) (fed : List Char) (scan : Suspension)
      (input : Input) (outcome : Outcome) (rest : Option (List Char)),
      Suspension.Fed options origin fed scan → scan.resume input = .finished outcome rest →
        outcome.isNothing = false →
        ∃ read, read ≠ [] ∧ fed ++ input.text = read ++ rest.getD []) ∧
    (∀ (options : Options) (origin : Location) (text : List Char),
      ∃ n last, n ≤ text.length + 1 ∧ (Forms.ofText options origin text).after? n = some last ∧
        last.next? = none) ∧
    ∀ (options : Options) (origin : Location) (size : Nat) (text : List Char),
      ((Suspension.start options origin).feed (CommandLine.chunks size text)).length ≤
        3 * text.length + 1 := by
  refine ⟨?_, ?_, ?_, ?_⟩
  · intro options extent ended state text
    refine ⟨state.exists_halt options extent ended text, ?_⟩
    intro n last rest moves
    exact ⟨moves.suffix, moves.bounded, moves.run_eq⟩
  · intro options origin fed scan input outcome rest given finished found
    exact given.reads finished found
  · intro options origin text
    obtain ⟨n, last, calls, none_left⟩ :=
      (Forms.ofText options origin text).exists_last (n := 0) rfl
    have few := Forms.after?_bound calls
    exact ⟨n, last, Nat.le_trans (Nat.le_add_right n _) few, calls, none_left⟩
  · intro options origin size text
    have fresh : Suspension.Fed options origin [] (.start options origin) := .start
    have steps := Suspension.length_feed_le fresh (CommandLine.chunks size text)
    have few := CommandLine.length_chunks_le size text
    rw [CommandLine.chunks_flatten, List.length_nil] at steps
    omega

/-- Behind an empty string in double quotes a sigil ends with two moves that read nothing. A
base that is none ends its scan in front of the `#`, and behind the digits. -/
theorem scanning_ends_at_bad_base :
    (∃ state last, State.Moves default .form true 2 state ['+'] last ['+'] ∧
      2 ≤ 3 * (['+'].length - ['+'].length) + 2 ∧
      state.run default .form true ['+'] = last.run default .form true ['+']) ∧
    ∃ scan outcome, Suspension.Fed default .start ['3'] scan ∧
      scan.resume (.chunk ['7', '#', '1']) = .finished outcome (some ['#', '1']) ∧
      outcome.isNothing = false ∧
      ∃ read, read ≠ [] ∧ ['3'] ++ ['7', '#', '1'] = read ++ ['#', '1'] := by
  constructor
  · have behind : State.Moves default .form true 2
        ⟨.start, #[], false, .name ⟨.start, .sigilSuffix true, ""⟩⟩ ['+']
        ⟨.start, #[⟨.sigilSuffix "", .start, none⟩], false, .between⟩ ['+'] :=
      .emit rfl (by decide) (.read rfl (.none _ _))
    obtain ⟨-, few, same⟩ := (scanning_ends.1 default .form true _ _).2 2 _ _ behind
    exact ⟨_, _, behind, few, same⟩
  · have waits : (State.fresh .start).run default .form false ['3'] =
        .suspended ⟨.start, #[], false, .number ⟨⟨.start, "3"⟩, .whole 3⟩⟩ [] := by decide +kernel
    have fails : State.run default .form false
        ⟨.start, #[], false, .number ⟨⟨.start, "3"⟩, .whole 3⟩⟩ ['7', '#', '1'] =
          .stopped (.error ⟨.start, .illegalBase "37"⟩ .start) ['#', '1'] := by decide +kernel
    have given := Suspension.Fed.of_run waits
    have finished := Suspension.finished_of_run ⟨default, _, []⟩ _ fails
    exact ⟨_, _, given, finished, rfl,
      scanning_ends.2.1 default .start _ _ _ _ _ given finished rfl⟩

end ErlangLexer
