import ErlangLexer.Proofs.Emissions
import ErlangLexer.Proofs.PendingText

/-!
# Well-formed tokens

Tokens are recorded at many places, from what a scan has gathered over several moves and chunks.
A parser relies on their form without a check of its own:

* `Kind.WellFormed`: what a token of each kind may be, told with its source text;
* `Token.FormedIn`: a well-formed token of a text, which has its source text just if the scan
  captures it;
* `Mode.StartsVariable`: the first letter of a variable that is being read;
* `State.formed_emit`: every move that emits a token emits a well-formed one;
* `tokens_well_formed`: so are all tokens of all scans, suspended or finished.
-/

namespace ErlangLexer

/-- A name that is not too long. -/
structure ShortName (name : String) : Prop where
  short : name.length ≤ maxNameLength
  continues : ∀ c ∈ name.toList, continuesName c = true

/-- The text starts a variable. -/
def startsLarge (text : String) : Bool :=
  text.toList.head?.any startsVariable

/-- What a token with this source text may be. Those that are no literals have no value. -/
def Kind.WellFormed (options : Options) (source : List Char) (kind : Kind) : Prop :=
  match kind with
  | .atom name =>
    name.length ≤ maxNameLength ∧
      ((∃ body, source = '\'' :: body) ∨
        (source = name.toList ∧ ShortName name ∧ startsSmall name = true ∧
          options.reserved.holds name = false))
  | .variable name => ShortName name ∧ startsLarge name = true
  | .sigilPrefix name | .sigilSuffix name => ShortName name
  | .integer value => kind.renderValue? = some (toString value)
  | .float value => value.bits < 2047 * powerOfTwo 52
  | .string value => kind.renderValue? = some (Text.quote value)
  | .char value => isText value = true
  | .reserved word =>
    ShortName word ∧ startsSmall word = true ∧ options.reserved.holds word = true ∧
      kind.renderValue? = none
  | .symbol c => StandsAlone c ∧ kind.renderValue? = none
  | .dot | .checkOpen | .checkClose | .operator _ => kind.renderValue? = none

/-- The token is a well-formed one of a text that starts at `origin`. It has its source text if the
scan captures it, and else it has none. -/
def Token.FormedIn (options : Options) (origin : Location) (text : List Char) (token : Token) :
    Prop :=
  ∃ before source behind, text = before ++ (source ++ behind) ∧
    token.location = origin.position before ∧
    token.text = (if options.captureText then some (String.ofList source) else none) ∧
    token.kind.WellFormed options source

/-! ## Variables -/

/-- A variable that is being read has its first letter. -/
def Mode.StartsVariable : Mode → Prop
  | .name draft => draft.role = .variable → startsLarge draft.name = true
  | _ => True

theorem startsLarge_push {text : String} (starts : startsLarge text = true) (c : Char) :
    startsLarge (text.push c) = true := by
  unfold startsLarge at starts ⊢
  rw [String.toList_push]
  cases first : text.toList with
  | nil => simp [first] at starts
  | cons d rest => simpa [first] using starts

theorem Proceeds.startsVariable {ended : Bool} {here : Location} {mode next : Mode}
    {text : List Char} {width : Nat} (proceeds : Proceeds ended here mode text width next)
    (begun : mode.StartsVariable) : next.StartsVariable := by
  cases proceeds with
  | smallName | tilde => exact nofun
  | variableName starts => exact fun _ => by simp [startsLarge, starts]
  | @name draft c rest continues => exact fun role => startsLarge_push (begun role) c
  | _ => trivial

theorem Emits.startsVariable {options : Options} {checking : Bool} {mode next : Mode}
    {text : List Char} {width : Nat} {kind : Kind}
    (emits : Emits options checking mode text width kind next) : next.StartsVariable := by
  cases emits with
  | @name draft =>
    unfold NameDraft.next
    split
    · trivial
    · split <;> trivial
    · trivial
  | sigilString | emptySigil | tripleQuotedSigil => exact nofun
  | _ => trivial

/-! ## Tokens -/

theorem NameDraft.wellFormed {options : Options} {draft : NameDraft}
    (short : draft.name.length ≤ maxNameLength) (begun : (Mode.name draft).Begun)
    (variable_begun : (Mode.name draft).StartsVariable) :
    (draft.kind options).WellFormed options draft.source.toList := by
  obtain ⟨start, role, name⟩ := draft
  have named : ShortName name := ⟨short, begun.1⟩
  rcases role with _ | _ | _ | quoted
  · have small : startsSmall name = true := begun.2 rfl
    cases held : options.reserved.holds name with
    | true =>
      simp only [kind, held, ↓reduceIte]
      exact ⟨named, small, held, rfl⟩
    | false =>
      simp only [kind, held, Bool.false_eq_true, ↓reduceIte]
      exact ⟨short, .inr ⟨rfl, named, small, held⟩⟩
  · exact ⟨named, variable_begun rfl⟩
  · exact named
  · exact named

/-- A token is well formed with the source text that is held and what the move reads. -/
theorem Emits.wellFormed {options : Options} {checking : Bool} {mode next : Mode}
    {text : List Char} {width : Nat} {kind : Kind} {lexeme : Lexeme}
    (emits : Emits options checking mode text width kind next) (holds : mode.Holds lexeme)
    (begun : mode.Begun) (variable_begun : mode.StartsVariable) :
    kind.WellFormed options (lexeme.extend text width).source.toList := by
  cases emits with
  | char width known => exact known
  | symbol alone rest => exact ⟨alone, rfl⟩
  | @name draft text short =>
    obtain rfl : lexeme = ⟨draft.start, draft.source⟩ := holds
    exact draft.wellFormed short begun variable_begun
  | number text value =>
    rcases NumberPart.kind_of_value value with ⟨n, rfl⟩ | ⟨x, rfl⟩
    · rfl
    · exact x.finite
  | @quotedAtom draft rest atom short =>
    obtain rfl : lexeme = draft.lexeme := holds
    obtain ⟨opening, body, source, delimits⟩ := begun
    rw [atom] at delimits
    obtain ⟨rfl, -⟩ := delimits
    refine ⟨short, .inl ⟨body ++ (draft.close :: rest).take 1, ?_⟩⟩
    rw [Lexeme.toList_extend, source, List.cons_append]
  | _ => rfl

namespace State

variable {options : Options} {extent : Extent} {ended : Bool} {origin : Location}
  {text rest left : List Char} {state : State}

theorem Reached.startsVariable (reached : Reached options extent ended origin text state rest) :
    state.mode.StartsVariable := by
  induction reached with
  | start => trivial
  | read earlier step ih => exact (proceeds_of_read step).startsVariable ih
  | emit earlier step goes_on ih => exact (emits_of_emit step).startsVariable

/-- The tokens behind a move that emits one are well formed if those before it are. -/
theorem formed_emit (reached : Reached options extent ended origin text state rest)
    (formed : ∀ token ∈ state.tokens.toList, token.FormedIn options origin text) {width : Nat}
    {kind : Kind} {lexeme : Lexeme} {next : Mode}
    (step : state.move options ended rest = .emit width kind lexeme next) :
    ∀ token ∈ (state.record options kind lexeme).tokens.toList,
      token.FormedIn options origin text := by
  obtain ⟨before, held, amid, split⟩ := reached.amid
  obtain ⟨rfl, -⟩ := amid.keeps step (by simp) (by simp)
  have wellFormed := (emits_of_emit step).wellFormed amid.holds reached.begun
    reached.startsVariable
  intro token listed
  simp only [record, Array.toList_push, List.mem_append, List.mem_singleton] at listed
  rcases listed with old | rfl
  · exact formed token old
  · refine ⟨before, (held.extend rest width).source.toList, rest.drop width, ?_, ?_, ?_,
      wellFormed⟩
    · rw [split, Lexeme.toList_extend, List.append_assoc, List.take_append_drop]
    · exact amid.start.trans (origin.walk_eq_position before)
    · simp only [String.ofList_toList]

theorem Reached.formed (reached : Reached options extent ended origin text state rest) :
    ∀ token ∈ state.tokens.toList, token.FormedIn options origin text := by
  induction reached with
  | start => simp [fresh]
  | read earlier step ih => exact ih
  | emit earlier step goes_on ih => exact formed_emit earlier ih step

theorem Reached.formed_of_stopped (reached : Reached options extent ended origin text state rest)
    {outcome : Outcome} {list : List Token}
    (stops : state.run options extent ended rest = .stopped outcome left)
    (found : outcome.tokens? = some list) :
    ∀ token ∈ list, token.FormedIn options origin text := by
  fun_induction State.run options extent ended state rest with
  | case1 state rest step => cases stops
  | case2 state rest step =>
    obtain ⟨rfl, -⟩ := Halt.stopped.inj stops
    rw [tokens?_outcome] at found
    obtain rfl := Option.some.inj found
    exact reached.formed
  | case3 state rest width next step ih => exact ih (reached.read step) stops
  | case4 state rest width kind lexeme next step later dot =>
    obtain ⟨rfl, -⟩ := Halt.stopped.inj stops
    rw [tokens?_outcome] at found
    obtain rfl := Option.some.inj found
    exact formed_emit reached reached.formed step
  | case5 state rest width kind lexeme next step later goes_on ih =>
    exact ih (reached.emit step goes_on) stops
  | case6 state rest width error step =>
    obtain ⟨rfl, -⟩ := Halt.stopped.inj stops
    cases found
  | case7 state rest width error finish step =>
    obtain ⟨rfl, -⟩ := Halt.stopped.inj stops
    cases found

theorem formed_of_suspended
    (suspends : (fresh origin).run options extent ended text = .suspended state rest) :
    ∀ token ∈ state.tokens.toList, token.FormedIn options origin text :=
  (Reached.start.of_suspended suspends).formed

theorem formed_of_stopped {outcome : Outcome} {list : List Token}
    (stops : (fresh origin).run options extent ended text = .stopped outcome left)
    (found : outcome.tokens? = some list) :
    ∀ token ∈ list, token.FormedIn options origin text :=
  Reached.start.formed_of_stopped stops found

end State

/-- **Every token is well formed.** Atoms, variables and the names of sigils have at most 255
characters. All of these are name characters, unless the atom is quoted, and a variable starts with
an underscore or a capital letter. A name that starts with a small letter is a reserved word if the
predicate of the scan holds of it, and an atom if not. Floats are finite and not negative, character
literals are text, a symbol is a character that starts nothing else, and tokens that are no
literals have no value. Every token has its source text just if the scan captures it.

So it is for the tokens of a scan that is suspended or finished, whatever the options that it is
resumed with, for those of every form of a text, and for those of the text as a whole. -/
theorem tokens_well_formed :
    (∀ (options : Options) (extent : Extent) (ended : Bool) (origin : Location)
      (text rest : List Char),
      (∀ state, (State.fresh origin).run options extent ended text = .suspended state rest →
        ∀ token ∈ state.tokens.toList, token.FormedIn options origin text) ∧
      ∀ outcome list,
        (State.fresh origin).run options extent ended text = .stopped outcome rest →
          outcome.tokens? = some list → ∀ token ∈ list, token.FormedIn options origin text) ∧
    (∀ (options others : Options) (origin elsewhere : Location) (fed : List Char)
      (suspension : Suspension), Suspension.Fed options origin fed suspension →
      (∀ token ∈ suspension.state.tokens.toList, token.FormedIn options origin fed) ∧
      ∀ input,
        match scan (some suspension) input elsewhere others with
        | .suspended later =>
          ∀ token ∈ later.state.tokens.toList,
            token.FormedIn options origin (fed ++ input.text)
        | .finished outcome _ =>
          ∀ list, outcome.tokens? = some list →
            ∀ token ∈ list, token.FormedIn options origin (fed ++ input.text)) ∧
    (∀ (forms later : Forms) (outcome : Outcome) (list : List Token),
      forms.next? = some (outcome, later) → outcome.tokens? = some list →
        ∀ token ∈ list, token.FormedIn forms.options forms.location forms.rest) ∧
    ∀ (options : Options) (origin finish : Location) (text : List Char) (tokens : Array Token),
      scanText options origin text = .ok (tokens, finish) →
        ∀ token ∈ tokens.toList, token.FormedIn options origin text := by
  refine ⟨?_, ?_, ?_, ?_⟩
  · intro options extent ended origin text rest
    exact ⟨fun state suspends => State.formed_of_suspended suspends,
      fun outcome list stops found => State.formed_of_stopped stops found⟩
  · intro options others origin elsewhere fed suspension given
    refine ⟨State.formed_of_suspended given.suspends, fun input => ?_⟩
    have same := given.run_eq input.isEnd input.text
    simp only [scan, Option.getD_some, Suspension.resume, ← same]
    cases halt : (State.fresh origin).run options .form input.isEnd (fed ++ input.text) with
    | suspended state rest => exact State.formed_of_suspended halt
    | stopped outcome rest => exact fun list found => State.formed_of_stopped halt found
  · intro forms later outcome list found tokens
    obtain ⟨same, -⟩ := Forms.of_next? found
    rw [same] at tokens
    exact State.formed_of_stopped (scanEnded_stops ..) tokens
  · intro options origin finish text tokens scanned
    exact State.formed_of_stopped (scanEnded_stops ..) (tokens?_of_scanText scanned).1

/-- A word that is reserved by a feature, cut within its letters. The source texts are captured,
though the scan is resumed with options that do not ask for them. -/
theorem tokens_well_formed_across_chunks :
    ∃ suspension,
      Suspension.Fed ⟨.features ["maybe"], true, false⟩ .start "V^may".toList suspension ∧
      ∃ list rest, scan (some suspension) (.chunk "be \\.\n".toList) ⟨7, none⟩ default =
          .finished (.tokens list ⟨2, none⟩) rest ∧
        list.toList.map (·.text) =
          [some "V", some "^", some "maybe", some "\\", some ".\n"] ∧
        ∀ token ∈ list.toList,
          token.FormedIn ⟨.features ["maybe"], true, false⟩ .start "V^maybe \\.\n".toList := by
  have waits : (State.fresh .start).run ⟨.features ["maybe"], true, false⟩ .form false
      "V^may".toList =
        .suspended ⟨.start,
          #[⟨.variable "V", .start, some "V"⟩, ⟨.symbol '^', .start, some "^"⟩], false,
          .name ⟨.start, .atom, "may"⟩⟩ [] := by
    decide +kernel
  have stops : State.run ⟨.features ["maybe"], true, false⟩ .form false ⟨.start,
        #[⟨.variable "V", .start, some "V"⟩, ⟨.symbol '^', .start, some "^"⟩], false,
        .name ⟨.start, .atom, "may"⟩⟩ "be \\.\n".toList =
      .stopped (.tokens #[⟨.variable "V", .start, some "V"⟩, ⟨.symbol '^', .start, some "^"⟩,
        ⟨.reserved "maybe", .start, some "maybe"⟩, ⟨.symbol '\\', .start, some "\\"⟩,
        ⟨.dot, .start, some ".\n"⟩] ⟨2, none⟩) [] := by
    decide +kernel
  have given := Suspension.Fed.of_run waits
  have finished := Suspension.finished_of_run ⟨_, _, []⟩ "be \\.\n".toList stops
  have formed := (tokens_well_formed.2.1 _ default _ ⟨7, none⟩ _ _ given).2
    (.chunk "be \\.\n".toList)
  rw [scan, Option.getD_some, finished] at formed
  exact ⟨_, given, _, _, finished, rfl, formed _ rfl⟩

end ErlangLexer
