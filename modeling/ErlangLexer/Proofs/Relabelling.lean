import ErlangLexer.Proofs.Beginnings
import ErlangLexer.Proofs.Indifference

/-!
# Reserved words are labels

Which words are reserved has a say in nothing but the kinds of unquoted names that start with a
small letter:

* `Kind.relabel`: the kind of a token under other reserved words, told by its source text;
* `Kind.Labelled`: a token is such a name, labelled as the words say, or no words matter to it;
* `State.move_relabel`: under other words a scan makes the moves it would, with other labels;
* `State.run_relabel`, `Suspension.resume_relabel`: so do runs and scans of chunks;
* `reserved_words_relabel`: all steps of two callers with different words are the same, but for
  the labels.
-/

namespace ErlangLexer

/-- What an unquoted name that starts with a small letter is. -/
def ReservedWords.kind (reserved : ReservedWords) (name : String) : Kind :=
  if reserved.holds name then .reserved name else .atom name

/-- The options with other reserved words. -/
def Options.withReserved (reserved : ReservedWords) (options : Options) : Options :=
  { options with reserved := reserved }

namespace Kind

/-- The kind under other reserved words of a token with the source text `source`. -/
def relabel (reserved : ReservedWords) (source : String) (kind : Kind) : Kind :=
  match kind with
  | .atom _ | .reserved _ => if startsSmall source then reserved.kind source else kind
  | kind => kind

/-- No reserved words matter to a token of this kind: it is no reserved word, and if it is an
atom it is a quoted one. -/
structure IsFixed (source : String) (kind : Kind) : Prop where
  not_reserved : ∀ word, kind ≠ .reserved word
  quoted : ∀ name, kind = .atom name → source.toList.head? = some '\''

/-- A token of this kind is an unquoted name, labelled as the words say, or no words matter to
it. -/
def Labelled (reserved : ReservedWords) (source : String) (kind : Kind) : Prop :=
  (startsSmall source = true ∧ kind = reserved.kind source) ∨ kind.IsFixed source

variable {kind : Kind} {source : String}

theorem relabel_of_isFixed (reserved : ReservedWords) (isFixed : kind.IsFixed source) :
    kind.relabel reserved source = kind := by
  cases kind with
  | atom name =>
    have quoted := isFixed.quoted name rfl
    have large : startsSmall source = false := by
      simp only [startsSmall, quoted, Option.any_some]
      decide
    simp [relabel, large]
  | reserved word => exact absurd rfl (isFixed.not_reserved word)
  | _ => rfl

theorem relabel_kind (reserved words : ReservedWords) (starts : startsSmall source = true) :
    (words.kind source).relabel reserved source = reserved.kind source := by
  unfold ReservedWords.kind
  split <;> simp [relabel, starts, ReservedWords.kind]

theorem checkingAfter_relabel (reserved : ReservedWords) (source : String) (kind : Kind)
    (checking : Bool) :
    State.checkingAfter checking (kind.relabel reserved source) =
      State.checkingAfter checking kind := by
  have label (name : String) : State.checkingAfter checking (reserved.kind name) = checking := by
    unfold ReservedWords.kind
    split <;> rfl
  cases kind with
  | atom name | reserved word =>
    simp only [relabel]
    split
    · exact label source
    · rfl
  | _ => rfl

theorem relabel_eq_dot (reserved : ReservedWords) (source : String) (kind : Kind) :
    kind.relabel reserved source = .dot ↔ kind = .dot := by
  have label (name : String) : reserved.kind name ≠ .dot := by
    unfold ReservedWords.kind
    split <;> simp
  cases kind with
  | atom name | reserved word =>
    simp only [relabel]
    split
    · simp [label source]
    · simp
  | _ => rfl

end Kind

/-! ## Everything under other words -/

section
variable (reserved : ReservedWords)

/-- The token under other reserved words. It must have its source text. -/
def Token.relabel (token : Token) : Token :=
  { token with kind := token.kind.relabel reserved (token.text.getD "") }

def Move.relabel : Move → Move
  | .emit width kind lexeme next =>
    .emit width (kind.relabel reserved lexeme.source) lexeme next
  | move => move

def State.relabel (state : State) : State :=
  { state with tokens := state.tokens.map (Token.relabel reserved) }

def Outcome.relabel : Outcome → Outcome
  | .tokens list finish => .tokens (list.map (Token.relabel reserved)) finish
  | .nothing finish => .nothing finish
  | .error found finish => .error found finish

def Halt.relabel : Halt → Halt
  | .suspended state rest => .suspended (state.relabel reserved) rest
  | .stopped outcome rest => .stopped (outcome.relabel reserved) rest

def Suspension.relabel (scan : Suspension) : Suspension :=
  ⟨scan.options.withReserved reserved, scan.state.relabel reserved, scan.pending⟩

def Step.relabel : Step → Step
  | .suspended scan => .suspended (scan.relabel reserved)
  | .finished outcome rest => .finished (outcome.relabel reserved) rest

end

/-! ## Moves -/

theorem QuotedDraft.lexeme_of_emit {draft : QuotedDraft} {here : Location} {text : List Char}
    {ended : Bool} {width : Nat} {kind : Kind} {lexeme : Lexeme} {next : Mode}
    (step : draft.move here text ended = .emit width kind lexeme next) :
    lexeme = draft.lexeme.extend text 1 := by
  cases text with
  | nil =>
    simp only [move, unterminated_eq] at step
    split at step <;> cases step
  | cons c rest =>
    simp only [move] at step
    split at step
    · simp only [complete] at step
      repeat' split at step
      · cases step
      · exact (Move.emit.inj step).2.2.1.symm
      · exact (Move.emit.inj step).2.2.1.symm
      · exact (Move.emit.inj step).2.2.1.symm
    · split at step
      · simp only [escape, readValue, unterminated_eq] at step
        repeat' split at step
        all_goals cases step
      · split at step <;> cases step

theorem NameDraft.kind_relabel {draft : NameDraft} (begun : (Mode.name draft).Begun)
    (reserved : ReservedWords) (options : Options) :
    draft.kind (options.withReserved reserved) =
      (draft.kind options).relabel reserved draft.source := by
  obtain ⟨start, role, name⟩ := draft
  cases role with
  | atom =>
    have starts : startsSmall name = true := begun.2 rfl
    exact (Kind.relabel_kind reserved options.reserved starts).symm
  | _ => rfl

theorem NameDraft.kind_labelled {draft : NameDraft} (begun : (Mode.name draft).Begun)
    (options : Options) : (draft.kind options).Labelled options.reserved draft.source := by
  obtain ⟨start, role, name⟩ := draft
  cases role with
  | atom => exact .inl ⟨begun.2 rfl, rfl⟩
  | _ => exact .inr ⟨by simp [kind], by simp [kind]⟩

theorem NameDraft.move_relabel {draft : NameDraft} (begun : (Mode.name draft).Begun)
    (reserved : ReservedWords) (options : Options) (text : List Char) (ended : Bool) :
    draft.move (options.withReserved reserved) text ended =
      (draft.move options text ended).relabel reserved := by
  have completes : draft.complete (options.withReserved reserved) =
      (draft.complete options).relabel reserved := by
    simp only [complete, kind_relabel begun]
    split <;> rfl
  cases text with
  | nil =>
    simp only [move]
    split
    · exact completes
    · rfl
  | cons c rest =>
    simp only [move]
    split
    · rfl
    · exact completes

namespace State

variable {options : Options} {extent : Extent} {ended : Bool} {state : State}
  {text rest : List Char} {width : Nat} {kind : Kind} {lexeme : Lexeme} {next : Mode}

theorem isFixed_of_emit (begun : state.mode.Begun) (unnamed : ∀ draft, state.mode ≠ .name draft)
    (step : state.move options ended text = .emit width kind lexeme next) :
    kind.IsFixed lexeme.source := by
  obtain ⟨location, tokens, checking, mode⟩ := state
  cases completes_of_emit step with
  | name draft => exact absurd rfl (unnamed draft)
  | number value =>
    rcases NumberPart.kind_of_value value with ⟨n, rfl⟩ | ⟨x, rfl⟩
    · exact ⟨by simp, by simp⟩
    · exact ⟨by simp, by simp⟩
  | @quotedAtom draft atom =>
    obtain ⟨opening, body, source, delimits⟩ := begun
    rw [atom] at delimits
    obtain rfl := delimits.1
    refine ⟨by simp, fun name _ => ?_⟩
    rw [QuotedDraft.lexeme_of_emit step, Lexeme.toList_extend, source]
    rfl
  | _ => exact ⟨by simp, by simp⟩

theorem labelled_of_emit (begun : state.mode.Begun)
    (step : state.move options ended text = .emit width kind lexeme next) :
    kind.Labelled options.reserved lexeme.source := by
  by_cases named : ∃ draft, state.mode = .name draft
  · obtain ⟨draft, mode⟩ := named
    obtain ⟨location, tokens, checking, _⟩ := state
    obtain rfl : _ = Mode.name draft := mode
    obtain ⟨-, rfl, rfl⟩ := NameDraft.of_emit step
    exact NameDraft.kind_labelled begun options
  · exact .inr (isFixed_of_emit begun (fun draft mode => named ⟨draft, mode⟩) step)

/-- Under other words a scan makes the move it would, with another label. -/
theorem move_relabel (begun : state.mode.Begun) (reserved : ReservedWords) (options : Options)
    (ended : Bool) (text : List Char) :
    (state.relabel reserved).move (options.withReserved reserved) ended text =
      (state.move options ended text).relabel reserved := by
  by_cases named : ∃ draft, state.mode = .name draft
  · obtain ⟨draft, mode⟩ := named
    obtain ⟨location, tokens, checking, _⟩ := state
    obtain rfl : _ = Mode.name draft := mode
    exact NameDraft.move_relabel begun reserved options text ended
  · have unnamed : ∀ draft, state.mode ≠ .name draft := fun draft mode => named ⟨draft, mode⟩
    have same : (state.relabel reserved).move (options.withReserved reserved) ended text =
        state.move options ended text := by
      obtain ⟨location, tokens, checking, mode⟩ := state
      cases mode with
      | name draft => exact absurd rfl (unnamed draft)
      | _ => rfl
    rw [same]
    cases step : state.move options ended text with
    | emit width kind lexeme next =>
      have isFixed := isFixed_of_emit begun unnamed step
      rw [Move.relabel, Kind.relabel_of_isFixed reserved isFixed]
    | _ => rfl

/-! ## Runs -/

theorem outcome_relabel (reserved : ReservedWords) (state : State) :
    (state.relabel reserved).outcome = state.outcome.relabel reserved := by
  have none : (state.relabel reserved).tokens.isEmpty = state.tokens.isEmpty := by
    simp only [relabel, Array.isEmpty, Array.size_map]
  simp only [outcome, none]
  split <;> rfl

theorem record_relabel (reserved : ReservedWords) (captures : options.captureText = true)
    (state : State) (kind : Kind) (lexeme : Lexeme) :
    (state.relabel reserved).record (options.withReserved reserved)
        (kind.relabel reserved lexeme.source) lexeme =
      (state.record options kind lexeme).relabel reserved := by
  simp only [record, relabel, Options.withReserved, captures, ↓reduceIte,
    Kind.checkingAfter_relabel, Array.map_push]
  rfl

/-- The run under other words is the run, with other labels. -/
theorem run_relabel (reserved : ReservedWords) (captures : options.captureText = true)
    (begun : state.mode.Begun) :
    (state.relabel reserved).run (options.withReserved reserved) extent ended text =
      (state.run options extent ended text).relabel reserved := by
  fun_induction State.run options extent ended state text with
  | case1 state text step =>
    rw [run_eq, move_relabel begun, step]
    rfl
  | case2 state text step =>
    rw [run_eq, move_relabel begun, step]
    exact congrArg (Halt.stopped · text) (state.outcome_relabel reserved)
  | case3 state text width next step ih =>
    rw [run_eq, move_relabel begun, step]
    exact ih ((proceeds_of_read step).begun begun)
  | case4 state text width kind lexeme next step state' stops =>
    rw [run_eq, move_relabel begun, step]
    simp only [Move.relabel, record_relabel reserved captures, Kind.relabel_eq_dot]
    rw [if_pos stops]
    exact congrArg (Halt.stopped · (text.drop width)) (state'.outcome_relabel reserved)
  | case5 state text width kind lexeme next step state' goes_on ih =>
    rw [run_eq, move_relabel begun, step]
    simp only [Move.relabel, record_relabel reserved captures, Kind.relabel_eq_dot]
    rw [if_neg goes_on]
    exact ih (completes_of_emit step).begun
  | case6 state text width error step =>
    rw [run_eq, move_relabel begun, step]
    rfl
  | case7 state text width error finish step =>
    rw [run_eq, move_relabel begun, step]
    rfl

end State

/-! ## Labels -/

/-- The token has its source text, and is labelled as the words say. -/
def Token.Labelled (reserved : ReservedWords) (token : Token) : Prop :=
  ∃ source, token.text = some source ∧ token.kind.Labelled reserved source

/-- The tokens of an outcome. -/
def Outcome.found : Outcome → Array Token
  | .tokens list _ => list
  | .nothing _ | .error _ _ => #[]

/-- The tokens that a step shows. -/
def Step.found : Step → Array Token
  | .suspended scan => scan.state.tokens
  | .finished outcome _ => outcome.found

/-- The tokens of a halted scan. -/
def Halt.found : Halt → Array Token
  | .suspended state _ => state.tokens
  | .stopped outcome _ => outcome.found

namespace State

variable {options : Options} {extent : Extent} {ended : Bool} {state : State}
  {text : List Char}

theorem found_outcome {token : Token} (listed : token ∈ state.outcome.found) :
    token ∈ state.tokens := by
  unfold outcome at listed
  split at listed
  · simp [Outcome.found] at listed
  · exact listed

theorem labelled_record {width : Nat} {kind : Kind} {lexeme : Lexeme} {next : Mode}
    (captures : options.captureText = true) (begun : state.mode.Begun)
    (labelled : ∀ token ∈ state.tokens, token.Labelled options.reserved)
    (step : state.move options ended text = .emit width kind lexeme next) :
    ∀ token ∈ (state.record options kind lexeme).tokens, token.Labelled options.reserved := by
  intro token listed
  simp only [record, captures, ↓reduceIte, Array.mem_push] at listed
  rcases listed with old | rfl
  · exact labelled token old
  · exact ⟨lexeme.source, rfl, labelled_of_emit begun step⟩

theorem run_labelled (captures : options.captureText = true) (begun : state.mode.Begun)
    (labelled : ∀ token ∈ state.tokens, token.Labelled options.reserved) :
    ∀ token ∈ (state.run options extent ended text).found, token.Labelled options.reserved := by
  fun_induction State.run options extent ended state text with
  | case1 state text step => exact labelled
  | case2 state text step => exact fun token listed => labelled token (found_outcome listed)
  | case3 state text width next step ih => exact ih ((proceeds_of_read step).begun begun) labelled
  | case4 state text width kind lexeme next step state' stops =>
    intro token listed
    have recorded : token ∈ state'.tokens := found_outcome listed
    exact labelled_record captures begun labelled step token recorded
  | case5 state text width kind lexeme next step state' goes_on ih =>
    exact ih (completes_of_emit step).begun (labelled_record captures begun labelled step)
  | case6 state text width error step => simp [Halt.found, Outcome.found]
  | case7 state text width error finish step => simp [Halt.found, Outcome.found]

end State

/-! ## Scans -/

/-- The scan captures source texts, begins right, and has labelled its tokens. -/
structure Suspension.Labels (options : Options) (scan : Suspension) : Prop where
  options_eq : scan.options = options
  begun : scan.state.mode.Begun
  labelled : ∀ token ∈ scan.state.tokens, token.Labelled options.reserved

namespace Suspension

variable {options : Options} {scan : Suspension}

theorem labels_start (options : Options) (location : Location) :
    (start options location).Labels options :=
  ⟨rfl, trivial, by simp [start, State.fresh]⟩

theorem resume_relabel (reserved : ReservedWords) (captures : options.captureText = true)
    (labels : scan.Labels options) (input : Input) :
    (scan.relabel reserved).resume input = (scan.resume input).relabel reserved := by
  obtain ⟨rfl, begun, -⟩ := labels
  have run (text : List Char) :
      (scan.state.relabel reserved).run (scan.options.withReserved reserved) .form input.isEnd
          text =
        (scan.state.run scan.options .form input.isEnd text).relabel reserved :=
    State.run_relabel reserved captures begun
  simp only [resume, relabel, run]
  cases scan.state.run scan.options .form input.isEnd (scan.pending ++ input.text) with
  | suspended state rest => rfl
  | stopped outcome rest => rfl

theorem resume_labelled (captures : options.captureText = true) (labels : scan.Labels options)
    (input : Input) :
    (∀ token ∈ (scan.resume input).found, token.Labelled options.reserved) ∧
      ∀ later, scan.resume input = .suspended later → later.Labels options := by
  obtain ⟨rfl, begun, labelled⟩ := labels
  have found (text : List Char) :
      ∀ token ∈ (scan.state.run scan.options .form input.isEnd text).found,
        token.Labelled scan.options.reserved :=
    State.run_labelled captures begun labelled
  specialize found (scan.pending ++ input.text)
  unfold resume
  cases run : scan.state.run scan.options .form input.isEnd (scan.pending ++ input.text) with
  | suspended state rest =>
    rw [run] at found
    refine ⟨found, ?_⟩
    rintro later ⟨⟩
    exact ⟨rfl, State.begun_of_suspended begun run, found⟩
  | stopped outcome rest =>
    rw [run] at found
    refine ⟨found, ?_⟩
    intro later wrong
    cases wrong

end Suspension

theorem labels_getD {options : Options} {suspension : Option Suspension}
    (labels : ∀ scan, suspension = some scan → scan.Labels options) (location : Location) :
    (suspension.getD (.start options location)).Labels options := by
  cases suspension with
  | none => exact Suspension.labels_start options location
  | some scan => exact labels scan rfl

theorem finish_relabel (reserved : ReservedWords) (outcome : Outcome) :
    (outcome.relabel reserved).finish = outcome.finish := by
  cases outcome <;> rfl

theorem steps_relabel (reserved : ReservedWords) {options : Options}
    (captures : options.captureText = true) (location : Location)
    (suspension : Option Suspension) (left : List Char) (supplies : List Supply)
    (labels : ∀ scan, suspension = some scan → scan.Labels options) :
    steps (options.withReserved reserved) location
        (suspension.map (Suspension.relabel reserved)) left supplies =
      (steps options location suspension left supplies).map (Step.relabel reserved) := by
  induction supplies generalizing location suspension left with
  | nil => rfl
  | cons supply supplies ih =>
    have here := labels_getD labels location
    have relabelled : scan (suspension.map (Suspension.relabel reserved)) (supply.behind left)
        location (options.withReserved reserved) =
          (scan suspension (supply.behind left) location options).relabel reserved := by
      have same : (suspension.map (Suspension.relabel reserved)).getD
          (.start (options.withReserved reserved) location) =
            (suspension.getD (.start options location)).relabel reserved := by
        cases suspension with
        | none =>
          simp [Suspension.start, Suspension.relabel, State.relabel, State.fresh]
        | some suspended => rfl
      rw [scan, scan, same]
      exact Suspension.resume_relabel reserved captures here _
    have suspends := (Suspension.resume_labelled captures here (supply.behind left)).2
    simp only [steps, relabelled]
    cases step : scan suspension (supply.behind left) location options with
    | suspended next =>
      have later := ih location (some next) [] (by
        rintro again ⟨⟩
        exact suspends next step)
      exact congrArg (Step.relabel reserved (.suspended next) :: ·) later
    | finished outcome rest =>
      have later := ih outcome.finish none (rest.getD []) (by simp)
      simp only [Step.relabel, List.map_cons, finish_relabel]
      exact congrArg (Step.relabel reserved (.finished outcome rest) :: ·) later

theorem steps_labelled {options : Options} (captures : options.captureText = true)
    (location : Location) (suspension : Option Suspension) (left : List Char)
    (supplies : List Supply) (labels : ∀ scan, suspension = some scan → scan.Labels options) :
    ∀ step ∈ steps options location suspension left supplies, ∀ token ∈ step.found,
      token.Labelled options.reserved := by
  induction supplies generalizing location suspension left with
  | nil => simp [steps]
  | cons supply supplies ih =>
    have here := labels_getD labels location
    obtain ⟨found, suspends⟩ := Suspension.resume_labelled captures here (supply.behind left)
    simp only [steps]
    cases step : scan suspension (supply.behind left) location options with
    | suspended next =>
      have same : (suspension.getD (.start options location)).resume (supply.behind left) =
          .suspended next := step
      rw [same] at found
      intro shown listed
      rcases List.mem_cons.mp listed with rfl | later
      · exact found
      · refine ih location (some next) [] ?_ shown later
        rintro again ⟨⟩
        exact suspends next same
    | finished outcome rest =>
      have same : (suspension.getD (.start options location)).resume (supply.behind left) =
          .finished outcome rest := step
      rw [same] at found
      intro shown listed
      rcases List.mem_cons.mp listed with rfl | later
      · exact found
      · exact ih outcome.finish none (rest.getD []) (by simp) shown later

/-- The locations as they are, and the source texts if `texts` says so. -/
def View.keeping (texts : Bool) : View :=
  { View.textless with texts := texts }

/-- **Reserved words are labels.** Two callers give the same inputs to scans that differ in their
reserved words. Both see the steps of a scan that captures source texts, less these texts if they
do not ask for them, and the second one sees the tokens under its own words. Each of the tokens is
an unquoted name that starts with a small letter, and then it is reserved if its words hold of the
whole of it and an atom if not; or else no words matter to it. -/
theorem reserved_words_relabel (options : Options) (reserved : ReservedWords)
    (location : Location) (supplies : List Supply) :
    let traced := steps { options with captureText := true } location none [] supplies
    steps options location none [] supplies =
        traced.map (View.keeping options.captureText).step ∧
      steps { options with reserved := reserved } location none [] supplies =
        traced.map (fun step => (View.keeping options.captureText).step (step.relabel reserved)) ∧
      ∀ step ∈ traced, ∀ token ∈ step.found, token.Labelled options.reserved := by
  intro traced
  have unlabelled (scan : Suspension) (wrong : none = some scan) :
      scan.Labels { options with captureText := true } := by cases wrong
  have view (words : ReservedWords) :
      steps { options with reserved := words } location none [] supplies =
        (steps { options with captureText := true, reserved := words } location none []
          supplies).map (View.keeping options.captureText).step := by
    have same : { options with reserved := words } =
        (View.keeping options.captureText).options
          { options with captureText := true, reserved := words } := by
      simp [View.keeping, View.options]
    rw [same]
    exact steps_view (View.keeping options.captureText) _ location none [] supplies
  refine ⟨view options.reserved, ?_, ?_⟩
  · have captures : { options with captureText := true }.captureText = true := rfl
    have relabelled := steps_relabel reserved captures location none [] supplies unlabelled
    rw [view reserved]
    exact (congrArg (List.map (View.keeping options.captureText).step) relabelled).trans
      List.map_map
  · exact steps_labelled rfl location none [] supplies unlabelled

/-- A word whose letters come in two chunks, the same word in quotes, and another one, with the
fixed words reserved and with only that other one. -/
theorem reserved_words_relabel_within_word :
    let supplies : List Supply :=
      [.own (.chunk ['i']), .own (.chunk ['f', ' ', '\'', 'i', 'f', '\'', ' ', 'a', '.', ' '])]
    let traced := steps ⟨default, true, false⟩ .start none [] supplies
    (steps default .start none [] supplies).filterMap Step.outcome? =
        [.tokens #[⟨.reserved "if", .start, none⟩, ⟨.atom "if", .start, none⟩,
          ⟨.atom "a", .start, none⟩, ⟨.dot, .start, none⟩] .start] ∧
      (steps ⟨.custom (· == "a"), false, false⟩ .start none [] supplies).filterMap Step.outcome? =
        [.tokens #[⟨.atom "if", .start, none⟩, ⟨.atom "if", .start, none⟩,
          ⟨.reserved "a", .start, none⟩, ⟨.dot, .start, none⟩] .start] ∧
      ∃ step ∈ traced, (⟨.reserved "if", .start, some "if"⟩ : Token) ∈ step.found ∧
        Token.Labelled default ⟨.reserved "if", .start, some "if"⟩ := by
  intro supplies traced
  obtain ⟨fixed, custom, labelled⟩ :=
    reserved_words_relabel default (.custom (· == "a")) .start supplies
  let last : Fin traced.length := ⟨1, by decide +kernel⟩
  have listed : (⟨.reserved "if", .start, some "if"⟩ : Token) ∈ (traced.get last).found := by
    decide +kernel
  refine ⟨?_, ?_, traced.get last, List.get_mem traced last, listed,
    labelled _ (List.get_mem traced last) _ listed⟩
  · rw [fixed]
    decide +kernel
  · exact (congrArg (List.filterMap Step.outcome?) custom).trans (by decide +kernel)

end ErlangLexer
