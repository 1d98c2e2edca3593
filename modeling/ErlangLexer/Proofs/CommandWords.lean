import ErlangLexer.Proofs.ChunkFlag
import ErlangLexer.Proofs.EnvironmentWords
import ErlangLexer.Proofs.Relabelling

/-!
# The words that a command reserves

Which names a command prints as reserved words is told by its arguments and its environment:

* `isFixedWord_iff`: the fixed words, however they are looked up;
* `Flags.Sums.holds_iff`: the words that the options of a command reserve;
* `State.run_withReserved`, `Forms.outcomes_map`: what a scan finds depends on the words only as
  far as they hold of names, and so it is for all forms of a text;
* `Flags.Same.report_eq`: the order of feature words does not show, nor their repetition;
* `arguments_tell_reserved_words`: together, from the arguments to the tokens.
-/

namespace ErlangLexer

/-! ## The fixed words -/

/-- The reserved words of the language, whatever features are enabled. -/
def fixedWords : List String :=
  ["after", "and", "andalso", "band", "begin", "bnot", "bor", "bsl", "bsr", "bxor", "case",
   "catch", "cond", "div", "end", "fun", "if", "let", "not", "of", "or", "orelse", "receive",
   "rem", "try", "when", "xor"]

theorem fixedWordsOfSize_subset (size : Nat) :
    ∀ word ∈ fixedWordsOfSize size, word ∈ fixedWords := by
  unfold fixedWordsOfSize
  split <;> decide +kernel

/-- A word is fixed if it is found by its size. -/
theorem isFixedWord_iff {word : String} : isFixedWord word = true ↔ word ∈ fixedWords := by
  constructor
  · intro fixed
    unfold isFixedWord at fixed
    dsimp only at fixed
    split at fixed
    · cases fixed
    · exact fixedWordsOfSize_subset _ word (List.contains_iff_mem.mp fixed)
  · have all : ∀ word ∈ fixedWords, isFixedWord word = true := by decide +kernel
    exact all word

namespace CommandLine

/-! ## The words of a command -/

theorem mem_filterMap_word? {given : List Flag} {word : String} :
    word ∈ given.filterMap Flag.word? ↔ .feature word ∈ given := by
  rw [List.mem_filterMap]
  constructor
  · rintro ⟨flag, listed, found⟩
    cases flag with
    | feature other =>
      obtain rfl := Option.some.inj found
      exact listed
    | columns | text | checks | chunk size => cases found
  · intro listed
    exact ⟨_, listed, rfl⟩

/-- The words that some flags and the environment reserve. -/
def Reserves (given : List Flag) (environment : Option String) (word : String) : Prop :=
  word ∈ fixedWords ∨ .feature word ∈ given ∨
    ∃ list, environment = some list ∧ Flags.Listed list word

namespace Flags

theorem Sums.holds_iff {flags : Flags} {given : List Flag} (sums : flags.Sums given)
    (environment : Option String) (word : String) :
    (flags.withEnvironment environment).options.reserved.holds word = true ↔
      Reserves given environment word := by
  have listed : word ∈ (environment.map words).getD [] ↔
      ∃ list, environment = some list ∧ Listed list word := by
    cases environment with
    | none => simp
    | some list => simp [mem_words_iff]
  simp only [options, withEnvironment, ReservedWords.holds, Bool.or_eq_true, isFixedWord_iff,
    List.contains_iff_mem, List.mem_append, sums.features, mem_filterMap_word?, listed, Reserves]

end Flags

end CommandLine

/-! ## Scans under words that hold of the same names -/

namespace State

variable {options : Options} {extent : Extent} {ended : Bool} {state : State} {text : List Char}
  {reserved : ReservedWords}

theorem move_withReserved (same : ∀ word, reserved.holds word = options.reserved.holds word) :
    state.move (options.withReserved reserved) ended text = state.move options ended text := by
  obtain ⟨location, tokens, checking, mode⟩ := state
  cases mode with
  | name draft =>
    have kind : draft.kind (options.withReserved reserved) = draft.kind options := by
      simp only [NameDraft.kind, Options.withReserved, same]
    simp only [move, NameDraft.move, NameDraft.complete, kind]
  | _ => rfl

theorem run_withReserved (same : ∀ word, reserved.holds word = options.reserved.holds word) :
    state.run (options.withReserved reserved) extent ended text =
      state.run options extent ended text := by
  fun_induction State.run options extent ended state text with
  | case1 state text step | case2 state text step | case6 state text width error step
  | case7 state text width error finish step => rw [run_eq, move_withReserved same, step]
  | case3 state text width next step ih =>
    rw [run_eq, move_withReserved same, step]
    exact ih
  | case4 state text width kind lexeme next step state' stops =>
    rw [run_eq, move_withReserved same, step]
    exact if_pos stops
  | case5 state text width kind lexeme next step state' goes_on ih =>
    rw [run_eq, move_withReserved same, step]
    exact (if_neg goes_on).trans ih

end State

namespace Forms

/-- What two scans of any text have in common, those of all forms have. -/
theorem outcomes_map {options others : Options} {f : Outcome → Outcome}
    (finish : ∀ outcome, (f outcome).finish = outcome.finish)
    (nothing : ∀ outcome, (f outcome).isNothing = outcome.isNothing)
    (scan : ∀ location text, scanEnded others .form location text =
      (scanEnded options .form location text).map f id) (location : Location) (text : List Char) :
    (ofText others location text).outcomes = (ofText options location text).outcomes.map f := by
  induction size : text.length using Nat.strongRecOn generalizing location text with
  | ind n ih =>
    have shorter := scanEnded_shorter options .form location text
    rw [outcomes_ofText, outcomes_ofText, outcomesFrom, outcomesFrom, scan]
    simp only [Prod.map_fst, Prod.map_snd, id_eq, nothing, finish, List.map_cons]
    split
    · rfl
    · rename_i going
      have more : (scanEnded options .form location text).2 ≠ [] := by
        intro none_left
        exact going (by simp [none_left])
      rw [ih _ (size ▸ shorter more) _ _ rfl]

theorem exists_scanEnded {options : Options} {location : Location} {text : List Char}
    {outcome : Outcome} (listed : outcome ∈ (ofText options location text).outcomes) :
    ∃ origin rest, outcome = (scanEnded options .form origin rest).1 := by
  induction size : text.length using Nat.strongRecOn generalizing location text with
  | ind n ih =>
    have shorter := scanEnded_shorter options .form location text
    rw [outcomes_ofText, outcomesFrom] at listed
    rcases List.mem_cons.mp listed with rfl | later
    · exact ⟨location, text, rfl⟩
    · split at later
      · cases later
      · rename_i going
        have more : (scanEnded options .form location text).2 ≠ [] := by
          intro none_left
          exact going (by simp [none_left])
        exact ih _ (size ▸ shorter more) later rfl

end Forms

theorem scanEnded_labelled {options : Options} (captures : options.captureText = true)
    (extent : Extent) (location : Location) (text : List Char) :
    ∀ token ∈ (scanEnded options extent location text).1.found,
      token.Labelled options.reserved := by
  have labelled : ∀ token ∈ ((State.fresh location).run options extent true text).found,
      token.Labelled options.reserved :=
    State.run_labelled captures trivial (by simp [State.fresh])
  obtain ⟨outcome, rest, stops⟩ := (State.fresh location).run_ended options extent text
  simp only [scanEnded, stops, Halt.settle] at labelled ⊢
  exact labelled

/-- A complete scan without source texts finds what one with them finds. -/
theorem scanEnded_keeping (texts : Bool) (options : Options) (extent : Extent)
    (location : Location) (text : List Char) :
    scanEnded ((View.keeping texts).options options) extent location text =
      (scanEnded options extent location text).map (View.keeping texts).outcome id := by
  have run := State.run_view (View.keeping texts) options extent true (.fresh location) text
  rw [State.fresh_view] at run
  obtain ⟨outcome, rest, stops⟩ := (State.fresh location).run_ended options extent text
  rw [stops] at run
  simp only [scanEnded, stops]
  exact congrArg Halt.settle run

/-- The token is an unquoted name that starts with a small letter, and then a reserved word if it
is one of these words and an atom if not; or else it is no such name. -/
def Token.Told (reserves : String → Prop) (token : Token) : Prop :=
  ∃ source, token.text = some source ∧
    ((startsSmall source = true ∧ (reserves source → token.kind = .reserved source) ∧
        (¬reserves source → token.kind = .atom source)) ∨
      token.kind.IsFixed source)

theorem Token.Labelled.told {reserved : ReservedWords} {token : Token} {reserves : String → Prop}
    (labelled : token.Labelled reserved)
    (holds : ∀ word, reserved.holds word = true ↔ reserves word) : token.Told reserves := by
  obtain ⟨source, text, ⟨small, kind⟩ | isFixed⟩ := labelled
  · refine ⟨source, text, .inl ⟨small, ?_, ?_⟩⟩
    · intro listed
      rw [kind, ReservedWords.kind, if_pos ((holds source).mpr listed)]
    · intro other
      rw [kind, ReservedWords.kind, if_neg (mt (holds source).mp other)]
  · exact ⟨source, text, .inr isFixed⟩

namespace CommandLine

namespace Flags

/-! ## What a command finds -/

theorem shown_map {f : Outcome → Outcome}
    (nothing : ∀ outcome, (f outcome).isNothing = outcome.isNothing) (outcomes : List Outcome) :
    shown (outcomes.map f) = (shown outcomes).map f := by
  simp only [shown, List.filter_map, Function.comp_def, nothing]

theorem outcomes_eq_shown (flags : Flags) (text : List Char) :
    flags.outcomes text = shown (Forms.ofText flags.options flags.start text).outcomes := by
  rw [outcomes_unchunked]
  rfl

theorem scanEnded_mem_outcomes {flags : Flags} {text : List Char}
    (found : (scanEnded flags.options .form flags.start text).1.isNothing = false) :
    (scanEnded flags.options .form flags.start text).1 ∈ flags.outcomes text := by
  rw [outcomes_eq_shown, Forms.outcomes_ofText, outcomesFrom, shown, List.mem_filter, found]
  exact ⟨List.mem_cons_self, rfl⟩

/-- The flags, with the source texts of tokens asked for. -/
def traced (flags : Flags) : Flags :=
  { flags with text := true }

theorem outcomes_eq_map_traced (flags : Flags) (text : List Char) :
    flags.outcomes text = (flags.traced.outcomes text).map (View.keeping flags.text).outcome := by
  have kept : flags.options = (View.keeping flags.text).options flags.traced.options := by
    simp [options, View.options, View.keeping, traced]
  have finish (outcome : Outcome) :
      ((View.keeping flags.text).outcome outcome).finish = outcome.finish := by
    cases outcome <;> rfl
  have nothing (outcome : Outcome) :
      ((View.keeping flags.text).outcome outcome).isNothing = outcome.isNothing := by
    cases outcome <;> rfl
  rw [outcomes_eq_shown, outcomes_eq_shown, kept, Forms.outcomes_map finish nothing
    (scanEnded_keeping flags.text flags.traced.options .form), shown_map nothing]
  rfl

theorem labelled_of_traced {flags : Flags} {text : List Char} {outcome : Outcome}
    (listed : outcome ∈ flags.traced.outcomes text) :
    ∀ token ∈ tokensOf outcome, token.Labelled flags.options.reserved := by
  rw [outcomes_eq_shown] at listed
  obtain ⟨origin, rest, rfl⟩ := Forms.exists_scanEnded (List.mem_filter.mp listed).1
  have captures : flags.traced.options.captureText = true := rfl
  have labelled := scanEnded_labelled captures .form origin rest
  intro token inside
  refine labelled token ?_
  cases found : (scanEnded flags.traced.options .form origin rest).1 with
  | tokens list finish =>
    rw [found] at inside
    exact Array.mem_toList_iff.mp inside
  | nothing | error =>
    rw [found] at inside
    cases inside

/-- The same flags, but for the order and the repetition of feature words. -/
structure Same (flags others : Flags) : Prop where
  columns : flags.columns = others.columns
  text : flags.text = others.text
  checks : flags.checks = others.checks
  features : ∀ word, word ∈ flags.features ↔ word ∈ others.features
  chunk : flags.chunk = others.chunk

namespace Same

variable {flags others : Flags}

theorem withEnvironment (same : flags.Same others) (environment : Option String) :
    (flags.withEnvironment environment).Same (others.withEnvironment environment) := by
  refine ⟨same.columns, same.text, same.checks, ?_, same.chunk⟩
  intro word
  simp only [Flags.withEnvironment, List.mem_append, same.features]

theorem holds_eq (same : flags.Same others) (word : String) :
    flags.options.reserved.holds word = others.options.reserved.holds word := by
  rw [Bool.eq_iff_iff]
  simp only [options, ReservedWords.holds, Bool.or_eq_true, List.contains_iff_mem, same.features]

theorem outcomes_eq (same : flags.Same others) (text : List Char) :
    flags.outcomes text = others.outcomes text := by
  have words : flags.options = others.options.withReserved flags.options.reserved := by
    simp only [options, Options.withReserved, same.text, same.checks]
  have start : flags.start = others.start := by simp only [Flags.start, same.columns]
  have scan (location : Location) (rest : List Char) :
      scanEnded flags.options .form location rest =
        (scanEnded others.options .form location rest).map id id := by
    rw [words, scanEnded, State.run_withReserved same.holds_eq]
    rfl
  have all := Forms.outcomes_map (fun _ => rfl) (fun _ => rfl) scan flags.start text
  rw [outcomes_eq_shown, outcomes_eq_shown, all, start]
  exact congrArg shown (List.map_id _)

theorem report_eq (same : flags.Same others) (command : Command) (path text : String) :
    command.report path flags text = command.report path others text := by
  have line : flags.tokenLine = others.tokenLine := by
    funext token
    simp only [tokenLine, same.text]
  cases command with
  | tokens => simp only [Command.report, tokensReport, same.outcomes_eq, line]
  | forms => simp only [Command.report, formsReport, same.outcomes_eq, formLines_congr line]

end Same

/-- Flags that switch on the same, with the same feature words and the same last chunk size, come
to the same. -/
theorem Sums.same {flags others : Flags} {these those : List Flag} (sums : flags.Sums these)
    (other : others.Sums those)
    (given : ∀ flag : Flag, flag.size? = none → (flag ∈ these ↔ flag ∈ those))
    (last : (these.filterMap Flag.size?).getLast? = (those.filterMap Flag.size?).getLast?) :
    flags.Same others where
  columns := Bool.eq_iff_iff.mpr (sums.columns.trans ((given _ rfl).trans other.columns.symm))
  text := Bool.eq_iff_iff.mpr (sums.text.trans ((given _ rfl).trans other.text.symm))
  checks := Bool.eq_iff_iff.mpr (sums.checks.trans ((given _ rfl).trans other.checks.symm))
  features word := by
    rw [sums.features, other.features, mem_filterMap_word?, mem_filterMap_word?]
    exact given _ rfl
  chunk := sums.chunk.trans (last.trans other.chunk.symm)

end Flags

namespace Request

variable {command : Command} {path : String} {arguments : List String}

theorem ofArguments_command (command : Command) (path : String) (arguments : List String) :
    ofArguments (command.name :: path :: arguments) =
      match Flags.ofArguments arguments with
      | .ok flags => .file command path flags
      | .error problem => .misuse problem := by
  cases command <;> rfl

theorem ofArguments_eq_file_iff {flags : Flags} :
    ofArguments (command.name :: path :: arguments) = .file command path flags ↔
      Flags.ofArguments arguments = .ok flags := by
  rw [ofArguments_command]
  cases Flags.ofArguments arguments <;> simp

theorem ofArguments_eq_misuse_iff {problem : Misuse} :
    ofArguments (command.name :: path :: arguments) = .misuse problem ↔
      Flags.ofArguments arguments = .error problem := by
  rw [ofArguments_command]
  cases Flags.ofArguments arguments <;> simp

end Request

end CommandLine

open CommandLine

/-- **The arguments tell what is reserved.** A command line for a file asks for a scan of it just if
all arguments behind the file are flags, and then with what these come to; else the first that is
none is blamed. An unquoted name that starts with a small letter is found as a reserved word just
if it is one of the 27 fixed words, the word of a feature flag or a word of the environment, and
else as an atom. Nothing else is a reserved word. So arguments with the same switches, the same
feature words and the same last chunk size ask for the same, in whatever order they stand and
however often they are repeated. -/
theorem arguments_tell_reserved_words :
    (fixedWords.Nodup ∧ fixedWords.length = 27) ∧
    (∀ (command : Command) (path : String) (arguments : List String),
      let request := Request.ofArguments (command.name :: path :: arguments)
      ((∃ flags, request = .file command path flags) ↔
        ∀ argument ∈ arguments, ∃ flag : Flag, flag.Spelled argument) ∧
      (∀ problem, request = .misuse problem ↔
        ∃ given front bad behind, arguments = front ++ bad :: behind ∧
          List.Forall₂ Flag.Spelled given front ∧ problem.Blames bad) ∧
      ∀ flags, request = .file command path flags →
        ∃ given, List.Forall₂ Flag.Spelled given arguments ∧ flags.Sums given ∧
          ∀ (environment : Option String) (text : List Char),
            let run := flags.withEnvironment environment
            (∀ word, run.options.reserved.holds word = true ↔ Reserves given environment word) ∧
            run.outcomes text = (run.traced.outcomes text).map (View.keeping run.text).outcome ∧
            ∀ outcome ∈ run.traced.outcomes text, ∀ token ∈ tokensOf outcome,
              token.Told (Reserves given environment)) ∧
    ∀ (command : Command) (path : String) (these those : List String) (given others : List Flag),
      List.Forall₂ Flag.Spelled given these → List.Forall₂ Flag.Spelled others those →
      (∀ flag : Flag, flag.size? = none → (flag ∈ given ↔ flag ∈ others)) →
      (given.filterMap Flag.size?).getLast? = (others.filterMap Flag.size?).getLast? →
        ∃ flags more,
          Request.ofArguments (command.name :: path :: these) = .file command path flags ∧
          Request.ofArguments (command.name :: path :: those) = .file command path more ∧
          flags.Same more ∧ ∀ environment contents,
            (Request.file command path flags).report environment contents =
              (Request.file command path more).report environment contents := by
  refine ⟨⟨by decide +kernel, rfl⟩, ?_, ?_⟩
  · intro command path arguments request
    refine ⟨?_, ?_, ?_⟩
    · rw [← Flags.exists_given_iff]
      constructor
      · rintro ⟨flags, asked⟩
        obtain ⟨given, spelled, -⟩ :=
          Flags.ofArguments_eq_ok_iff.mp (Request.ofArguments_eq_file_iff.mp asked)
        exact ⟨given, spelled⟩
      · rintro ⟨given, spelled⟩
        obtain ⟨flags, found, -⟩ := Flags.exists_sums spelled
        exact ⟨flags, Request.ofArguments_eq_file_iff.mpr found⟩
    · intro problem
      exact Request.ofArguments_eq_misuse_iff.trans Flags.ofArguments_eq_error_iff
    · intro flags asked
      obtain ⟨given, spelled, sums⟩ :=
        Flags.ofArguments_eq_ok_iff.mp (Request.ofArguments_eq_file_iff.mp asked)
      refine ⟨given, spelled, sums, ?_⟩
      intro environment text run
      have holds := sums.holds_iff environment
      refine ⟨holds, run.outcomes_eq_map_traced text, ?_⟩
      intro outcome listed token inside
      exact (Flags.labelled_of_traced listed token inside).told holds
  · intro command path these those given others spelled also same last
    obtain ⟨flags, found, sums⟩ := Flags.exists_sums spelled
    obtain ⟨more, found_too, sums_too⟩ := Flags.exists_sums also
    have alike := sums.same sums_too same last
    refine ⟨flags, more, Request.ofArguments_eq_file_iff.mpr found,
      Request.ofArguments_eq_file_iff.mpr found_too, alike, ?_⟩
    intro environment contents
    cases contents with
    | error problem => rfl
    | ok text => exact (alike.withEnvironment environment).report_eq command path text

/-- A word that a flag reserves, and one of the environment, in a file that is fed in chunks; and
the same flags in another order, one of them twice. -/
theorem arguments_tell_reserved_words_of_features :
    (∃ flags given outcome,
      Request.ofArguments ["tokens", "a.erl", "--feature=maybe", "--chunk=+07"] =
        .file .tokens "a.erl" flags ∧
      List.Forall₂ Flag.Spelled given ["--feature=maybe", "--chunk=+07"] ∧
      outcome ∈ (flags.withEnvironment (some "x y,\telse , ")).traced.outcomes
        "else maybe 'else' x.".toList ∧
      tokensOf outcome = [⟨.reserved "else", .start, some "else"⟩,
        ⟨.reserved "maybe", .start, some "maybe"⟩, ⟨.atom "else", .start, some "'else'"⟩,
        ⟨.atom "x", .start, some "x"⟩, ⟨.dot, .start, some "."⟩] ∧
      ∀ token ∈ tokensOf outcome, token.Told (Reserves given (some "x y,\telse , "))) ∧
    ∃ flags more,
      Request.ofArguments ["forms", "a.erl", "--feature=" ++ "b", "--text", "--feature=" ++ "a"] =
        .file .forms "a.erl" flags ∧
      Request.ofArguments
          ["forms", "a.erl", "--text", "--feature=" ++ "a", "--feature=" ++ "b",
            "--feature=" ++ "a"] = .file .forms "a.erl" more ∧
      flags.Same more := by
  constructor
  · let flags : Flags := ⟨false, false, false, ["maybe"], some 7⟩
    have asked : Request.ofArguments
        (Command.tokens.name :: "a.erl" :: ["--feature=maybe", "--chunk=+07"]) =
          .file .tokens "a.erl" flags := by decide +kernel
    obtain ⟨given, spelled, -, runs⟩ := (arguments_tell_reserved_words.2.1 _ _ _).2.2 flags asked
    obtain ⟨-, -, told⟩ := runs (some "x y,\telse , ") "else maybe 'else' x.".toList
    let outcome : Outcome := .tokens #[⟨.reserved "else", .start, some "else"⟩,
      ⟨.reserved "maybe", .start, some "maybe"⟩, ⟨.atom "else", .start, some "'else'"⟩,
      ⟨.atom "x", .start, some "x"⟩, ⟨.dot, .start, some "."⟩] .start
    let run := (flags.withEnvironment (some "x y,\telse , ")).traced
    have scanned : scanEnded run.options .form run.start "else maybe 'else' x.".toList =
        (outcome, []) := by decide +kernel
    have listed : outcome ∈ run.outcomes "else maybe 'else' x.".toList := by
      have first := Flags.scanEnded_mem_outcomes (congrArg (·.1.isNothing) scanned)
      rwa [scanned] at first
    exact ⟨flags, given, outcome, asked, spelled, listed, rfl, told outcome listed⟩
  · have a : Flag.Spelled (.feature "a") ("--feature=" ++ "a") := .feature (by decide)
    have b : Flag.Spelled (.feature "b") ("--feature=" ++ "b") := .feature (by decide)
    obtain ⟨flags, more, asked, again, same, -⟩ := arguments_tell_reserved_words.2.2 .forms "a.erl"
      _ _ _ _ (.cons b (.cons .text (.cons a .nil)))
      (.cons .text (.cons a (.cons b (.cons a .nil)))) (by simp; tauto) rfl
    exact ⟨flags, more, asked, again, same⟩

end ErlangLexer
