import ErlangLexer.Proofs.Fed
import ErlangLexer.Proofs.WholeText

/-!
# The order of tokens

Not every list of tokens comes out of a scan. The end of a form is the last of its tokens, the
markers of check annotations and the dots that close them take turns, and the three tokens of a
sigil stand together:

* `Stage.Leads`: what tokens stand between two stages of a sigil;
* `Alternate`: the tokens of check annotations that take turns;
* `State.InOrder`: the tokens of a scan are in order so far, which every move preserves;
* `TokensInOrder`, `FormInOrder`: what a caller can rely on;
* `Suspension.Fed.in_order`: so are the tokens of all scans, suspended or finished.
-/

namespace ErlangLexer

/-- What some tokens are, in their order. -/
def kinds (tokens : Array Token) : List Kind :=
  tokens.toList.map (·.kind)

@[simp] theorem kinds_push (tokens : Array Token) (token : Token) :
    kinds (tokens.push token) = kinds tokens ++ [token.kind] := by
  simp [kinds]

/-! ## Sigils -/

namespace Stage

/-- Tokens that take a scan from one stage of a sigil to another. -/
inductive Leads : Stage → List Kind → Stage → Prop where
  | none (stage : Stage) : Leads stage [] stage
  | lone {kind : Kind} {kinds : List Kind} {last : Stage}
      (opens : ∀ name, kind ≠ .sigilPrefix name) (closes : ∀ name, kind ≠ .sigilSuffix name)
      (later : Leads .outside kinds last) : Leads .outside (kind :: kinds) last
  | opens (name : String) {kinds : List Kind} {last : Stage}
      (later : Leads .behindPrefix kinds last) : Leads .outside (.sigilPrefix name :: kinds) last
  | holds (value : String) {kinds : List Kind} {last : Stage}
      (later : Leads .behindString kinds last) : Leads .behindPrefix (.string value :: kinds) last
  | closes (name : String) {kinds : List Kind} {last : Stage}
      (later : Leads .outside kinds last) : Leads .behindString (.sigilSuffix name :: kinds) last

namespace Leads

variable {first stage last : Stage} {front behind : List Kind}

theorem append (leads : Leads first front stage) (later : Leads stage behind last) :
    Leads first (front ++ behind) last := by
  induction leads with
  | none stage => exact later
  | lone opens closes _ ih => exact .lone opens closes (ih later)
  | opens name _ ih => exact .opens name (ih later)
  | holds value _ ih => exact .holds value (ih later)
  | closes name _ ih => exact .closes name (ih later)

theorem split (leads : Leads first (front ++ behind) last) :
    ∃ stage, Leads first front stage ∧ Leads stage behind last := by
  induction front generalizing first with
  | nil => exact ⟨first, .none first, leads⟩
  | cons kind front ih =>
    cases leads with
    | lone opens closes later =>
      obtain ⟨stage, before, after⟩ := ih later
      exact ⟨stage, .lone opens closes before, after⟩
    | opens name later =>
      obtain ⟨stage, before, after⟩ := ih later
      exact ⟨stage, .opens name before, after⟩
    | holds value later =>
      obtain ⟨stage, before, after⟩ := ih later
      exact ⟨stage, .holds value before, after⟩
    | closes name later =>
      obtain ⟨stage, before, after⟩ := ih later
      exact ⟨stage, .closes name before, after⟩

/-- Behind a prefix the tokens of its sigil follow, or there are no more of them yet. -/
theorem behind_prefix {name : String}
    (leads : Leads first (front ++ .sigilPrefix name :: behind) last) :
    (behind = [] ∧ last = .behindPrefix) ∨
      (∃ value, behind = [.string value] ∧ last = .behindString) ∨
      ∃ value suffix later, behind = .string value :: .sigilSuffix suffix :: later := by
  obtain ⟨stage, -, opened⟩ := leads.split
  cases opened with
  | lone opens closes later => exact absurd rfl (opens name)
  | opens name opened =>
    cases opened with
    | none => exact .inl ⟨rfl, rfl⟩
    | holds value held =>
      cases held with
      | none => exact .inr (.inl ⟨value, rfl, rfl⟩)
      | closes suffix later => exact .inr (.inr ⟨value, suffix, _, rfl⟩)

/-- Only a prefix comes behind tokens outside of sigils, when a string is then awaited. -/
theorem eq_concat_of_behindPrefix (leads : Leads .outside front .behindPrefix) :
    ∃ earlier name, front = earlier ++ [.sigilPrefix name] := by
  rcases List.eq_nil_or_concat' front with rfl | ⟨earlier, kind, rfl⟩
  · cases leads
  · obtain ⟨stage, -, latest⟩ := leads.split
    cases latest with
    | lone opens closes later => cases later
    | opens name later => exact ⟨earlier, name, rfl⟩
    | holds value later => cases later
    | closes name later => cases later

theorem before_suffix {name : String}
    (leads : Leads .outside (front ++ .sigilSuffix name :: behind) last) :
    ∃ earlier opening value, front = earlier ++ [.sigilPrefix opening, .string value] := by
  obtain ⟨stage, before, closed⟩ := leads.split
  cases closed with
  | lone opens closes later => exact absurd rfl (closes name)
  | closes name later =>
    rcases List.eq_nil_or_concat' front with rfl | ⟨earlier, kind, rfl⟩
    · cases before
    · obtain ⟨stage, opened, latest⟩ := before.split
      cases latest with
      | lone opens closes later => cases later
      | opens name later => cases later
      | holds value later =>
        obtain ⟨earliest, opening, rfl⟩ := opened.eq_concat_of_behindPrefix
        exact ⟨earliest, opening, value, by simp⟩
      | closes name later => cases later

end Leads

theorem outside_of_rests {mode : Mode} (rests : mode.Rests) : mode.stage = .outside := by
  rcases rests with rfl | rfl
  · rfl
  · rfl

theorem Advances.leads {stage : Stage} {kind : Kind} {next : Mode}
    (advances : stage.Advances kind next) : Leads stage [kind] next.stage := by
  cases advances with
  | lone opens closes rests =>
    rw [outside_of_rests rests]
    exact .lone opens closes (.none _)
  | opens name stage =>
    rw [stage]
    exact .opens name (.none _)
  | holds value stage =>
    rw [stage]
    exact .holds value (.none _)
  | closes name rests =>
    rw [outside_of_rests rests]
    exact .closes name (.none _)

end Stage

/-! ## Check annotations -/

/-- A marker that opens a check annotation, or a dot that closes one. -/
def Kind.isCheck : Kind → Bool
  | .checkOpen | .checkClose => true
  | _ => false

/-- The tokens of check annotations among some tokens. -/
def checks (found : List Kind) : List Kind :=
  found.filter Kind.isCheck

/-- Markers have the even turns, and dots the odd ones. -/
def turn (n : Nat) : Kind :=
  if n % 2 = 0 then .checkOpen else .checkClose

/-- A marker, a dot, a marker, and so on. -/
def Alternate (found : List Kind) : Prop :=
  ∃ n, found = (List.range n).map turn

theorem checks_concat (found : List Kind) (kind : Kind) :
    checks (found ++ [kind]) = checks found ++ if kind.isCheck then [kind] else [] := by
  cases check : kind.isCheck <;> simp [checks, check]

theorem checkingAfter_of_plain {checking : Bool} {kind : Kind} (plain : kind.isCheck = false) :
    State.checkingAfter checking kind = checking := by
  cases kind <;> first | rfl | cases plain

theorem NameDraft.isCheck_kind (options : Options) (draft : NameDraft) :
    (draft.kind options).isCheck = false := by
  unfold kind
  split
  · split <;> rfl
  · rfl
  · rfl
  · rfl

theorem NumberPart.isCheck_kind {part : NumberPart} {kind : Kind}
    (value : part.kind? = some kind) : kind.isCheck = false := by
  rcases kind_of_value value with ⟨n, rfl⟩ | ⟨x, rfl⟩
  · rfl
  · rfl

theorem Completes.turn {options : Options} {checking : Bool} {mode next : Mode} {kind : Kind}
    (completes : Completes options checking mode kind next) (check : kind.isCheck = true) :
    (mode = .between ∧ checking = false ∧ kind = .checkOpen) ∨
      (checking = true ∧ kind = .checkClose) := by
  cases completes with
  | checkOpen outside => exact .inl ⟨rfl, outside, rfl⟩
  | checkClose within => exact .inr ⟨within, rfl⟩
  | name draft =>
    rw [draft.isCheck_kind] at check
    cases check
  | number value =>
    rw [NumberPart.isCheck_kind value] at check
    cases check
  | _ => cases check

theorem Comment.asked_of_checkOpen {options : Options} {checking : Bool} {here : Location}
    {text : List Char} {ended : Bool} {width : Nat} {lexeme : Lexeme} {next : Mode}
    (opened : openMove options checking here text ended = .emit width .checkOpen lexeme next) :
    options.checkComments = true := by
  simp only [openMove] at opened
  split at opened
  · rename_i marked
    simp only [Bool.and_eq_true] at marked
    exact marked.1
  · split at opened <;> cases opened

theorem QuoteRun.move_ne_checkOpen {here : Location} {sigil : Option Sigil} {text : List Char}
    {ended : Bool} {width : Nat} {lexeme : Lexeme} {next : Mode} :
    move here sigil text ended ≠ .emit width .checkOpen lexeme next := by
  intro moved
  simp only [move, QuotedDraft.openMove, TripleQuotedDraft.openMove] at moved
  repeat' split at moved
  all_goals cases moved

theorem CharLiteral.move_ne_checkOpen {here : Location} {rest : List Char} {ended : Bool}
    {width : Nat} {lexeme : Lexeme} {next : Mode} :
    move here rest ended ≠ .emit width .checkOpen lexeme next := by
  intro moved
  simp only [move] at moved
  repeat' split at moved
  all_goals cases moved

theorem Punctuation.move_ne_checkOpen {checking : Bool} {here : Location} {c : Char}
    {rest : List Char} {ended : Bool} {width : Nat} {lexeme : Lexeme} {next : Mode} :
    move checking here c rest ended ≠ .emit width .checkOpen lexeme next := by
  intro moved
  simp only [move] at moved
  repeat' split at moved
  all_goals cases moved

theorem Between.asked_of_checkOpen {options : Options} {checking : Bool} {here : Location}
    {text : List Char} {ended : Bool} {width : Nat} {lexeme : Lexeme} {next : Mode}
    (opened : move options checking here text ended = .emit width .checkOpen lexeme next) :
    options.checkComments = true := by
  cases text with
  | nil =>
    simp only [move] at opened
    split at opened <;> cases opened
  | cons c rest =>
    simp only [move, QuotedDraft.openMove] at opened
    repeat' split at opened
    · cases opened
    · cases opened
    · cases opened
    · cases opened
    · exact absurd opened QuoteRun.move_ne_checkOpen
    · cases opened
    · exact absurd opened CharLiteral.move_ne_checkOpen
    · cases opened
    · exact Comment.asked_of_checkOpen opened
    · exact absurd opened Punctuation.move_ne_checkOpen

theorem State.asked_of_checkOpen {options : Options} {ended : Bool} {state : State}
    {text : List Char} {width : Nat} {lexeme : Lexeme} {next : Mode} (mode : state.mode = .between)
    (opened : state.move options ended text = .emit width .checkOpen lexeme next) :
    options.checkComments = true := by
  simp only [move, mode] at opened
  exact Between.asked_of_checkOpen opened

/-! ## Runs -/

/-- What the tokens of every scan keep to. -/
structure TokensInOrder (options : Options) (found : List Kind) : Prop where
  /-- Markers and the dots that close them take turns, a marker first. -/
  turns : Alternate (checks found)
  /-- There are none of them if they are not asked for. -/
  unasked : options.checkComments = false → checks found = []
  /-- Behind the prefix of a sigil stand its string and its suffix, or the tokens end. -/
  prefixes : ∀ front name behind, found = front ++ .sigilPrefix name :: behind →
    behind = [] ∨ (∃ value, behind = [.string value]) ∨
      ∃ value suffix later, behind = .string value :: .sigilSuffix suffix :: later
  /-- In front of the suffix of a sigil stand its prefix and its string. -/
  suffixes : ∀ front name behind, found = front ++ .sigilSuffix name :: behind →
    ∃ earlier opening value, front = earlier ++ [.sigilPrefix opening, .string value]

/-- What the tokens of a finished scan keep to. -/
structure FormInOrder (options : Options) (found : List Kind) : Prop
    extends TokensInOrder options found where
  some_token : found ≠ []
  /-- Only the last token may be the end of a form. -/
  dots : .dot ∉ found.dropLast
  /-- A form does not end within a check annotation. -/
  closed : found.getLast? = some .dot → (checks found).getLast? ≠ some .checkOpen
  /-- Behind the prefix of a sigil stand its string and its suffix. -/
  whole : ∀ front name behind, found = front ++ .sigilPrefix name :: behind →
    ∃ value suffix later, behind = .string value :: .sigilSuffix suffix :: later

/-- The tokens of check annotations so far: they take turns, and the next turn tells whether
the scan is within an annotation. -/
structure ChecksInOrder (options : Options) (found : List Kind) (checking : Bool) : Prop where
  turns : ∃ n, checks found = (List.range n).map turn ∧ (checking = true ↔ n % 2 = 1)
  unasked : options.checkComments = false → checks found = []

namespace ChecksInOrder

variable {options : Options} {found : List Kind} {checking : Bool} {kind : Kind}

theorem plain (order : ChecksInOrder options found checking) (plain : kind.isCheck = false) :
    ChecksInOrder options (found ++ [kind]) (State.checkingAfter checking kind) := by
  have same : checks (found ++ [kind]) = checks found := by simp [checks_concat, plain]
  rw [checkingAfter_of_plain plain]
  constructor
  · rw [same]
    exact order.turns
  · rw [same]
    exact order.unasked

theorem opens (order : ChecksInOrder options found false) (asked : options.checkComments = true) :
    ChecksInOrder options (found ++ [.checkOpen]) true := by
  obtain ⟨n, taken, open_iff⟩ := order.turns
  have even : n % 2 = 0 := by
    have := open_iff.not.mp (by decide)
    omega
  constructor
  · refine ⟨n + 1, ?_, ?_⟩
    · simp [checks_concat, taken, List.range_succ, Kind.isCheck, turn, even]
    · simp only [true_iff]
      omega
  · intro unasked
    rw [asked] at unasked
    cases unasked

theorem closes (order : ChecksInOrder options found true) :
    ChecksInOrder options (found ++ [.checkClose]) false := by
  obtain ⟨n, taken, open_iff⟩ := order.turns
  have odd : n % 2 = 1 := open_iff.mp rfl
  constructor
  · refine ⟨n + 1, ?_, ?_⟩
    · simp [checks_concat, taken, List.range_succ, Kind.isCheck, turn, odd]
    · simp only [Bool.false_eq_true, false_iff]
      omega
  · intro unasked
    have none := order.unasked unasked
    rw [taken, List.map_eq_nil_iff, List.range_eq_nil] at none
    omega

/-- The scan is within an annotation when the last of these tokens is a marker. -/
theorem open_iff (order : ChecksInOrder options found checking) :
    checking = true ↔ (checks found).getLast? = some .checkOpen := by
  obtain ⟨n, taken, open_iff⟩ := order.turns
  rw [open_iff, taken]
  cases n with
  | zero => simp
  | succ n =>
    rw [List.range_succ, List.map_append, List.map_singleton, List.getLast?_concat, turn]
    split
    · simp only [iff_true]
      omega
    · simp only [Option.some.injEq, reduceCtorEq, iff_false]
      omega

/-- The scan is outside of all annotations when every marker has its dot behind it. -/
theorem outside_of_closed (order : ChecksInOrder options found checking)
    (closed : ∀ front behind, found = front ++ .checkOpen :: behind → .checkClose ∈ behind) :
    checking = false := by
  cases within : checking with
  | false => rfl
  | true =>
    obtain ⟨earlier, taken⟩ := List.getLast?_eq_some_iff.mp (order.open_iff.mp within)
    obtain ⟨front, later, split, -, taken_later⟩ := List.filter_eq_append_iff.mp taken
    obtain ⟨plain, behind, rfl, -, -, none⟩ := List.filter_eq_cons_iff.mp taken_later
    have dot := closed (front ++ plain) behind (by rw [split, List.append_assoc])
    exact absurd rfl (List.filter_eq_nil_iff.mp none _ dot)

end ChecksInOrder

theorem State.checks_of_emit {options : Options} {ended : Bool} {state : State} {text : List Char}
    {width : Nat} {kind : Kind} {lexeme : Lexeme} {next : Mode}
    (annotations : ChecksInOrder options (kinds state.tokens) state.checking)
    (step : state.move options ended text = .emit width kind lexeme next) :
    ChecksInOrder options (kinds state.tokens ++ [kind]) (checkingAfter state.checking kind) := by
  cases check : kind.isCheck with
  | false => exact annotations.plain check
  | true =>
    rcases (completes_of_emit step).turn check with ⟨mode, outside, rfl⟩ | ⟨within, rfl⟩
    · rw [outside] at annotations ⊢
      exact annotations.opens (asked_of_checkOpen mode step)
    · rw [within] at annotations ⊢
      exact annotations.closes

/-- The tokens that a scan has found so far are in order. -/
structure State.InOrder (options : Options) (state : State) : Prop where
  dots : .dot ∉ kinds state.tokens
  sigils : Stage.outside.Leads (kinds state.tokens) state.mode.stage
  annotations : ChecksInOrder options (kinds state.tokens) state.checking

namespace State.InOrder

variable {options : Options} {ended : Bool} {state : State} {text : List Char} {width : Nat}
  {kind : Kind} {lexeme : Lexeme} {next : Mode}

theorem fresh (options : Options) (location : Location) :
    (State.fresh location).InOrder options where
  dots := List.not_mem_nil
  sigils := .none _
  annotations := ⟨⟨0, rfl, by simp [State.fresh]⟩, fun _ => rfl⟩

theorem read (order : state.InOrder options)
    (step : state.move options ended text = .read width next) :
    (state.read text width next).InOrder options where
  dots := order.dots
  sigils := by
    have stage := stage_of_read step
    simp only [State.read, stage]
    exact order.sigils
  annotations := order.annotations

theorem behind (order : state.InOrder options)
    (step : state.move options ended text = .emit width kind lexeme next) :
    Stage.outside.Leads (kinds state.tokens ++ [kind]) next.stage ∧
      ChecksInOrder options (kinds state.tokens ++ [kind])
        (checkingAfter state.checking kind) := by
  exact ⟨order.sigils.append (completes_of_emit step).advances.leads,
    checks_of_emit order.annotations step⟩

theorem emit (order : state.InOrder options)
    (step : state.move options ended text = .emit width kind lexeme next) (inner : kind ≠ .dot) :
    ((state.record options kind lexeme).read text width next).InOrder options := by
  obtain ⟨sigils, annotations⟩ := order.behind step
  refine ⟨?_, ?_, ?_⟩
  · simp only [State.read, record, kinds_push, List.mem_append, List.mem_singleton]
    exact not_or.mpr ⟨order.dots, inner.symm⟩
  · simpa only [State.read, record, kinds_push] using sigils
  · simpa only [State.read, record, kinds_push] using annotations

end State.InOrder

/-- A caller can rely on tokens that lead on, with annotations that take turns. -/
theorem TokensInOrder.of_leads {options : Options} {found : List Kind} {last : Stage}
    {checking : Bool} (sigils : Stage.outside.Leads found last)
    (annotations : ChecksInOrder options found checking) : TokensInOrder options found where
  turns := by
    obtain ⟨n, taken, -⟩ := annotations.turns
    exact ⟨n, taken⟩
  unasked := annotations.unasked
  prefixes := by
    intro front name behind split
    rw [split] at sigils
    rcases sigils.behind_prefix with ⟨none, -⟩ | ⟨value, one, -⟩ | all
    · exact .inl none
    · exact .inr (.inl ⟨value, one⟩)
    · exact .inr (.inr all)
  suffixes := by
    intro front name behind split
    rw [split] at sigils
    exact sigils.before_suffix

theorem Stage.Leads.whole {found : List Kind} (leads : Stage.outside.Leads found .outside)
    {front behind : List Kind} {name : String}
    (split : found = front ++ .sigilPrefix name :: behind) :
    ∃ value suffix later, behind = .string value :: .sigilSuffix suffix :: later := by
  rw [split] at leads
  rcases leads.behind_prefix with ⟨-, last⟩ | ⟨value, -, last⟩ | all
  · cases last
  · cases last
  · exact all

namespace State.InOrder

variable {options : Options} {ended : Bool} {state : State} {text : List Char}

theorem form_of_dot (order : state.InOrder options) {width : Nat} {lexeme : Lexeme} {next : Mode}
    (step : state.move options ended text = .emit width .dot lexeme next) :
    FormInOrder options (kinds state.tokens ++ [.dot]) := by
  obtain ⟨sigils, annotations⟩ := order.behind step
  obtain ⟨outside, rfl⟩ := (completes_of_emit step).of_dot
  refine ⟨.of_leads sigils annotations, ?_, ?_, ?_, ?_⟩
  · simp
  · rw [List.dropLast_concat]
    exact order.dots
  · intro _ opens
    have checking := annotations.open_iff.mpr opens
    rw [outside] at checking
    cases checking
  · intro front name behind split
    exact sigils.whole split

theorem form_of_finish (order : state.InOrder options)
    (step : state.move options ended text = .finish) (found : state.tokens ≠ #[]) :
    FormInOrder options (kinds state.tokens) := by
  have sigils := order.sigils
  rw [mode_of_finish step] at sigils
  refine ⟨.of_leads order.sigils order.annotations, ?_, ?_, ?_, ?_⟩
  · simpa [kinds] using found
  · exact fun dot => order.dots (List.dropLast_subset _ dot)
  · exact fun dot => absurd (List.mem_of_getLast? dot) order.dots
  · intro front name behind split
    exact sigils.whole split

end State.InOrder

/-- The tokens of a halted scan are in order. If it has not stopped at the end of a form, it
has come to the end of the text. -/
def Halt.InOrder (options : Options) (ended : Bool) : Halt → Prop
  | .suspended state _ => state.InOrder options
  | .stopped (.tokens list _) rest =>
    FormInOrder options (kinds list) ∧
      ((kinds list).getLast? = some .dot ∨ (ended = true ∧ rest = []))
  | .stopped _ _ => True

theorem State.run_in_order (options : Options) (ended : Bool) (state : State) (text : List Char)
    (order : state.InOrder options) :
    (state.run options .form ended text).InOrder options ended := by
  fun_induction State.run options .form ended state text with
  | case1 state text step => exact order
  | case2 state text step =>
    by_cases none : state.tokens = #[]
    · simp [outcome, none, Halt.InOrder]
    · obtain ⟨nothing, last⟩ := fits_of_move step
      simp only [outcome, Array.isEmpty_iff, none, ↓reduceIte, Halt.InOrder]
      exact ⟨order.form_of_finish step none, .inr ⟨last, nothing⟩⟩
  | case3 state text width next step ih => exact ih (order.read step)
  | case4 state text width kind lexeme next step state' stops =>
    obtain ⟨rfl, -⟩ := stops
    have tokens : kinds state'.tokens = kinds state.tokens ++ [.dot] := kinds_push _ _
    have found : state'.outcome = .tokens state'.tokens state'.location := by
      simp [outcome, state', State.read, record]
    rw [found]
    simp only [Halt.InOrder, tokens]
    exact ⟨order.form_of_dot step, .inl List.getLast?_concat⟩
  | case5 state text width kind lexeme next step state' goes_on ih =>
    have inner : kind ≠ .dot := fun dot => goes_on ⟨dot, rfl⟩
    exact ih (order.emit step inner)
  | case6 state text width error step => trivial
  | case7 state text width error finish step => trivial

/-- **Tokens are in order.** The tokens of a suspended scan hold no end of a form; markers of
check annotations and their dots take turns among them, and the scan is within an annotation
when a marker was the last of these; the tokens of each sigil stand together, though the scan
may wait for the last ones of them. A scan that finishes with tokens has some. Only the last of
them may be the end of a form, outside of every annotation, and else it has read the source to
its end. All sigils among them are whole. -/
theorem Suspension.Fed.in_order {options : Options} {origin : Location} {fed : List Char}
    {scan : Suspension} (given : Fed options origin fed scan) :
    (.dot ∉ kinds scan.state.tokens ∧ TokensInOrder options (kinds scan.state.tokens) ∧
      (scan.state.checking = true ↔
        (checks (kinds scan.state.tokens)).getLast? = some .checkOpen)) ∧
    ∀ (input : Input) (list : Array Token) (finish : Location) (rest : Option (List Char)),
      scan.resume input = .finished (.tokens list finish) rest →
        FormInOrder options (kinds list) ∧ ((kinds list).getLast? = some .dot ∨ rest = none) := by
  have ordered (ended : Bool) (text : List Char) :=
    State.run_in_order options ended (.fresh origin) text (.fresh options origin)
  constructor
  · have order := ordered false fed
    rw [given.suspends] at order
    exact ⟨order.dots, .of_leads order.sigils order.annotations, order.annotations.open_iff⟩
  · intro input list finish rest finished
    have order := ordered input.isEnd (fed ++ input.text)
    rw [given.stops finished] at order
    refine ⟨order.1, order.2.imp_right ?_⟩
    rintro ⟨last, nothing⟩
    exact eq_none_of_finished finished last nothing

/-- A sigil within a check annotation, broken off behind its string. The chunk behind it has
the end of the annotation and that of the form. -/
theorem Suspension.in_order_within_annotation :
    ∃ scan list finish, Fed ⟨default, false, true⟩ ⟨1, none⟩
        ['%', 's', 's', 'a', '%', '~', '"', 'a', '"'] scan ∧
      kinds scan.state.tokens = [.checkOpen, .sigilPrefix "", .string "a"] ∧
      TokensInOrder ⟨default, false, true⟩ (kinds scan.state.tokens) ∧
      (scan.state.checking = true ↔
        (checks (kinds scan.state.tokens)).getLast? = some .checkOpen) ∧
      scan.resume (.chunk ['.', ' ', '3', '.', ' ', 'x']) =
        .finished (.tokens list finish) (some ['x']) ∧
      FormInOrder ⟨default, false, true⟩ (kinds list) ∧ (kinds list).getLast? = some .dot := by
  have waits : (State.fresh ⟨1, none⟩).run ⟨default, false, true⟩ .form false
      ['%', 's', 's', 'a', '%', '~', '"', 'a', '"'] =
        .suspended ⟨⟨1, none⟩, #[⟨.checkOpen, ⟨1, none⟩, none⟩, ⟨.sigilPrefix "", ⟨1, none⟩, none⟩,
          ⟨.string "a", ⟨1, none⟩, none⟩], true, .name ⟨⟨1, none⟩, .sigilSuffix true, ""⟩⟩ [] := by
    decide +kernel
  have stops : State.run ⟨default, false, true⟩ .form false
      ⟨⟨1, none⟩, #[⟨.checkOpen, ⟨1, none⟩, none⟩, ⟨.sigilPrefix "", ⟨1, none⟩, none⟩,
        ⟨.string "a", ⟨1, none⟩, none⟩], true, .name ⟨⟨1, none⟩, .sigilSuffix true, ""⟩⟩
      ['.', ' ', '3', '.', ' ', 'x'] =
        .stopped (.tokens #[⟨.checkOpen, ⟨1, none⟩, none⟩, ⟨.sigilPrefix "", ⟨1, none⟩, none⟩,
          ⟨.string "a", ⟨1, none⟩, none⟩, ⟨.sigilSuffix "", ⟨1, none⟩, none⟩,
          ⟨.checkClose, ⟨1, none⟩, none⟩, ⟨.integer 3, ⟨1, none⟩, none⟩,
          ⟨.dot, ⟨1, none⟩, none⟩] ⟨1, none⟩) ['x'] := by
    decide +kernel
  have given := Fed.of_run waits
  have finished := finished_of_run ⟨_, _, []⟩ ['.', ' ', '3', '.', ' ', 'x'] stops
  obtain ⟨⟨-, tokens, checking⟩, form⟩ := given.in_order
  obtain ⟨order, -⟩ := form _ _ _ _ finished
  exact ⟨_, _, _, given, rfl, tokens, checking, finished, order, rfl⟩

end ErlangLexer
