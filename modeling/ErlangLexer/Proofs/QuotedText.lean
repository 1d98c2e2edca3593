import ErlangLexer.Proofs.EscapedText
import ErlangLexer.Proofs.TripleQuotedText

/-!
# Quoted text is read back

Any text may stand between any delimiters, once a backslash stands in front of each of its
backslashes and closing delimiters:

* `escaped`: the text with these backslashes;
* `State.quoting`: a scan within a quoted text, told by what is read and what it stands for;
* `State.run_character`, `State.run_escape`, `State.run_malformed`: what it does next;
* `State.run_body`: it reads back what is written between the delimiters;
* `State.run_atom`, `State.run_delimited`: it reads all of an atom, or of a string.
-/

namespace ErlangLexer

/-- The text with a backslash in front of each closing delimiter and each backslash. -/
def escaped (close : Char) (text : List Char) : List Char :=
  text.flatMap fun c => if c = close ∨ c = '\\' then ['\\', c] else [c]

/-- What is written between the delimiters for a text. In a verbatim string it is the text. -/
def spelled (verbatim : Bool) (close : Char) (text : List Char) : List Char :=
  if verbatim then text else escaped close text

theorem spelled_nil (verbatim : Bool) (close : Char) : spelled verbatim close [] = [] := by
  cases verbatim <;> rfl

theorem spelled_cons (verbatim : Bool) (close c : Char) (text : List Char) :
    spelled verbatim close (c :: text) =
      (if verbatim = false ∧ (c = close ∨ c = '\\') then ['\\', c] else [c]) ++
        spelled verbatim close text := by
  cases verbatim <;> simp [spelled, escaped]

/-- A closing delimiter stands for itself behind a backslash, and is no backslash. -/
structure Delimiter (close : Char) : Prop where
  no_backslash : close ≠ '\\'
  escapes : ∀ rest, Escape.read (close :: rest) true = .char close 1

theorem delimiter_of_closing? {opening close : Char} (pair : closing? opening = some close) :
    Delimiter close := by
  unfold closing? at pair
  split at pair
  all_goals cases pair
  all_goals exact ⟨by decide, fun rest => rfl⟩

theorem not_continuesName_of_closing? {opening close : Char}
    (pair : closing? opening = some close) : continuesName opening = false := by
  unfold closing? at pair
  split at pair
  all_goals cases pair
  all_goals decide

theorem head?_spelled {verbatim : Bool} {close : Char} {text : List Char}
    (delimiter : Delimiter close) (free : verbatim = true → close ∉ text) (some_text : text ≠ [])
    (rest : List Char) : (spelled verbatim close text ++ rest).head? ≠ some close := by
  obtain ⟨c, text, rfl⟩ := List.exists_cons_of_ne_nil some_text
  rw [spelled_cons]
  split
  · simpa using delimiter.no_backslash.symm
  · rename_i plain
    have other : c ≠ close := by
      rintro rfl
      cases verbatim with
      | true => exact free rfl List.mem_cons_self
      | false => exact plain ⟨rfl, .inl rfl⟩
    simpa using other

namespace State

variable {options : Options} {extent : Extent} {state : State} {quotation : Quotation}
  {close : Char} {source value : List Char}

/-- Within a quoted text that starts where the state is, when so much of it is read and stands for
the value. -/
def quoting (state : State) (quotation : Quotation) (close : Char) (source value : List Char) :
    State :=
  { state with
    location := state.location.walk source
    mode := .quoted ⟨⟨state.location, String.ofList source⟩, quotation, close,
      String.ofList value⟩ }

theorem read_quoting (text : List Char) (width : Nat) (c : Char) :
    (state.quoting quotation close source value).read text width
        (.quoted ⟨Lexeme.extend ⟨state.location, String.ofList source⟩ text width, quotation, close,
          (String.ofList value).push c⟩) =
      state.quoting quotation close (source ++ text.take width) (value ++ [c]) := by
  have longer : (Lexeme.extend ⟨state.location, String.ofList source⟩ text width).source =
      String.ofList (source ++ text.take width) := by
    rw [← String.toList_inj, Lexeme.toList_extend]
    simp
  have whole : Lexeme.extend ⟨state.location, String.ofList source⟩ text width =
      ⟨state.location, String.ofList (source ++ text.take width)⟩ :=
    congrArg (Lexeme.mk state.location) longer
  simp only [read, quoting, whole, ofList_push, Location.walk_append]

/-- A character that stands for itself. -/
theorem run_character {c : Char} (text : isText c = true) (open_end : c ≠ close)
    (plain : c = '\\' → quotation.isVerbatim = true) (rest : List Char) :
    (state.quoting quotation close source value).run options extent true (c :: rest) =
      (state.quoting quotation close (source ++ [c]) (value ++ [c])).run options extent true
        rest := by
  have no_escape : ¬(c = '\\' && !quotation.isVerbatim) = true := by
    intro escape
    rw [Bool.and_eq_true, decide_eq_true_eq, Bool.not_eq_true'] at escape
    rw [plain escape.1] at escape
    cases escape.2
  have step : (state.quoting quotation close source value).move options true (c :: rest) =
      QuotedDraft.readValue ⟨⟨state.location, String.ofList source⟩, quotation, close,
        String.ofList value⟩ (c :: rest) 1 c := by
    simp only [move, quoting, QuotedDraft.move, open_end, no_escape, text, ↓reduceIte,
      Bool.false_eq_true]
  rw [run_eq, step]
  simp only [QuotedDraft.readValue, read_quoting]
  rfl

/-- An escape, of which the last character stands behind the backslash by `width`. -/
theorem run_escape {rest : List Char} {c : Char} {width : Nat}
    (decoding : quotation.isVerbatim = false) (delimiter : close ≠ '\\')
    (stands : (Escape.read rest true).value? = some (c, width)) :
    (state.quoting quotation close source value).run options extent true ('\\' :: rest) =
      (state.quoting quotation close (source ++ '\\' :: rest.take width) (value ++ [c])).run
        options extent true (rest.drop width) := by
  have step : (state.quoting quotation close source value).move options true ('\\' :: rest) =
      QuotedDraft.readValue ⟨⟨state.location, String.ofList source⟩, quotation, close,
        String.ofList value⟩ ('\\' :: rest) (1 + width) c := by
    simp only [move, quoting, QuotedDraft.move, delimiter.symm, decoding, ↓reduceIte,
      decide_true, Bool.not_false, Bool.and_self, QuotedDraft.escape]
    rcases Escape.of_value? stands with found | ⟨found, rfl, rfl⟩ <;> simp only [found]
  rw [run_eq, step, Nat.add_comm]
  simp only [QuotedDraft.readValue, read_quoting, List.take_succ_cons, List.drop_succ_cons]

/-- An escape that is none. -/
theorem run_malformed {rest : List Char} {width : Nat} (decoding : quotation.isVerbatim = false)
    (delimiter : close ≠ '\\') (malformed : Escape.read rest true = .malformed width) :
    (state.quoting quotation close source value).run options extent true ('\\' :: rest) =
      .stopped (.error (.illegal (state.location.walk source) .character)
        (state.location.walk (source ++ '\\' :: rest.take width))) (rest.drop width) := by
  have step : (state.quoting quotation close source value).move options true ('\\' :: rest) =
      .fail (1 + width) (.illegal (state.location.walk source) .character) := by
    simp only [move, quoting, QuotedDraft.move, delimiter.symm, decoding, ↓reduceIte,
      decide_true, Bool.not_false, Bool.and_self, QuotedDraft.escape, malformed]
  rw [run_eq, step, Nat.add_comm]
  simp only [quoting, Location.walk_append, List.take_succ_cons, List.drop_succ_cons]

/-- What is written for a text is read back. -/
theorem run_body {text : List Char} (delimiter : Delimiter close)
    (valid : ∀ c ∈ text, isText c = true) (free : quotation.isVerbatim = true → close ∉ text)
    (rest : List Char) :
    (state.quoting quotation close source value).run options extent true
        (spelled quotation.isVerbatim close text ++ rest) =
      (state.quoting quotation close (source ++ spelled quotation.isVerbatim close text)
        (value ++ text)).run options extent true rest := by
  induction text generalizing source value with
  | nil => simp [spelled_nil]
  | cons c text ih =>
    obtain ⟨text_c, later⟩ := List.forall_mem_cons.mp valid
    have later_free (verbatim : quotation.isVerbatim = true) : close ∉ text :=
      fun listed => free verbatim (List.mem_cons_of_mem c listed)
    rw [spelled_cons]
    split
    · rename_i special
      have stands : (Escape.read (c :: (spelled quotation.isVerbatim close text ++ rest))
          true).value? = some (c, 1) := by
        rcases special.2 with rfl | rfl
        · rw [delimiter.escapes]
          rfl
        · rfl
      simp only [List.cons_append, List.nil_append]
      rw [run_escape special.1 delimiter.no_backslash stands]
      simp only [List.take_succ_cons, List.take_zero, List.drop_succ_cons, List.drop_zero]
      rw [ih later later_free]
      simp
    · rename_i plain
      have open_end : c ≠ close := by
        rintro rfl
        cases verbatim : quotation.isVerbatim with
        | true => exact free verbatim List.mem_cons_self
        | false => exact plain ⟨verbatim, .inl rfl⟩
      have stays (backslash : c = '\\') : quotation.isVerbatim = true :=
        Bool.not_eq_false _ |>.mp fun decoding => plain ⟨decoding, .inr backslash⟩
      rw [List.append_assoc, List.singleton_append, run_character text_c open_end stays,
        ih later later_free]
      simp

/-! ## Whole literals -/

theorem run_open {opening : Char} {rest : List Char}
    (opens : state.move options true (opening :: rest) =
      QuotedDraft.openMove state.location quotation close (opening :: rest)) :
    state.run options extent true (opening :: rest) =
      (state.quoting quotation close [opening] []).run options extent true rest := by
  rw [run_eq, opens]
  rfl

theorem extend_closing (start : Location) (source : List Char) (close : Char) (rest : List Char) :
    Lexeme.extend ⟨start, String.ofList source⟩ (close :: rest) 1 =
      ⟨start, String.ofList (source ++ [close])⟩ :=
  congrArg (Lexeme.mk start) (ofList_push source close)

/-- The mode behind a string between these delimiters. -/
def modeBehindQuoted (here : Location) (close : Char) : Quotation → Mode
  | .sigil _ => .name ⟨here, .sigilSuffix (close == '"'), ""⟩
  | _ => .afterString

theorem run_close (no_atom : quotation ≠ .atom) (rest : List Char) :
    (state.quoting quotation close source value).run options extent true (close :: rest) =
      { state.behindToken options (.string (String.ofList value)) (source ++ [close]) with
        mode := modeBehindQuoted (state.location.walk (source ++ [close])) close quotation }.run
          options extent true rest := by
  have step : (state.quoting quotation close source value).move options true (close :: rest) =
      .emit 1 (.string (String.ofList value)) ⟨state.location, String.ofList (source ++ [close])⟩
        (modeBehindQuoted (state.location.walk (source ++ [close])) close quotation) := by
    simp only [move, quoting, QuotedDraft.move, ↓reduceIte, QuotedDraft.complete, extend_closing]
    rw [Location.walk_append]
    cases quotation with
    | atom => exact absurd rfl no_atom
    | string => rfl
    | sigil verbatim => rfl
  have later : ((state.quoting quotation close source value).record options
      (.string (String.ofList value)) ⟨state.location, String.ofList (source ++ [close])⟩).read
        (close :: rest) 1
        (modeBehindQuoted (state.location.walk (source ++ [close])) close quotation) =
      { state.behindToken options (.string (String.ofList value)) (source ++ [close]) with
        mode := modeBehindQuoted (state.location.walk (source ++ [close])) close quotation } := by
    simp only [read, record, quoting, behindToken_eq, Location.walk_append, List.take_succ_cons,
      List.take_zero]
  rw [run_eq, step]
  simp only [reduceCtorEq, false_and, ↓reduceIte, later, List.drop_succ_cons, List.drop_zero]

theorem run_close_atom (rest : List Char) :
    (state.quoting .atom close source value).run options extent true (close :: rest) =
      if value.length ≤ maxNameLength then
        (state.behindToken options (.atom (String.ofList value)) (source ++ [close])).run
          options extent true rest
      else
        .stopped (.error (.illegal state.location .atom) (state.location.walk (source ++ [close])))
          rest := by
  have complete : (state.quoting .atom close source value).move options true (close :: rest) =
      if maxNameLength < value.length then .fail 1 (.illegal state.location .atom)
      else .emit 1 (.atom (String.ofList value))
        ⟨state.location, String.ofList (source ++ [close])⟩ .between := by
    simp only [move, quoting, QuotedDraft.move, ↓reduceIte, QuotedDraft.complete, extend_closing,
      String.length_ofList]
  rw [run_eq, complete]
  by_cases long : maxNameLength < value.length
  · simp only [long, ↓reduceIte, Nat.not_le.mpr long]
    simp only [quoting, Location.walk_append, List.take_succ_cons, List.take_zero,
      List.drop_succ_cons, List.drop_zero]
  · have later : ((state.quoting .atom close source value).record options
        (.atom (String.ofList value)) ⟨state.location, String.ofList (source ++ [close])⟩).read
          (close :: rest) 1 .between =
        state.behindToken options (.atom (String.ofList value)) (source ++ [close]) := by
      simp only [read, record, quoting, behindToken_eq, Location.walk_append, List.take_succ_cons,
        List.take_zero]
    simp only [long, ↓reduceIte, Nat.not_lt.mp long, reduceCtorEq, false_and, later,
      List.drop_succ_cons, List.drop_zero]

theorem run_behindToken_nil {kind : Kind} {source : List Char} :
    (state.behindToken options kind source).run options extent true [] =
      .stopped (.tokens (state.behindToken options kind source).tokens
        (state.location.walk source)) [] := by
  have some_token : (state.behindToken options kind source).tokens.isEmpty = false := by
    simp [behindToken]
  rw [run_blanks rfl (List.forall_mem_nil _)]
  simp only [outcome, some_token, Bool.false_eq_true, ↓reduceIte]
  rfl

/-- An atom in quotes. -/
theorem run_atom {text : List Char} (valid : ∀ c ∈ text, isText c = true)
    (mode : state.mode = .between) (behind : List Char) :
    let literal := '\'' :: (escaped '\'' text ++ ['\''])
    state.run options extent true (literal ++ behind) =
      if text.length ≤ maxNameLength then
        (state.behindToken options (.atom (String.ofList text)) literal).run options extent true
          behind
      else
        .stopped (.error (.illegal state.location .atom) (state.location.walk literal))
          behind := by
  intro literal
  have opens (rest : List Char) : state.move options true ('\'' :: rest) =
      QuotedDraft.openMove state.location .atom '\'' ('\'' :: rest) := by
    rw [move, mode]
    rfl
  have delimiter := delimiter_of_closing? (show closing? '\'' = some '\'' from rfl)
  have free (verbatim : Quotation.isVerbatim .atom = true) : '\'' ∉ text := by cases verbatim
  have whole : literal ++ behind = '\'' :: (escaped '\'' text ++ '\'' :: behind) := by
    simp [literal]
  rw [whole, run_open (opens _)]
  refine (run_body delimiter valid free _).trans ?_
  rw [run_close_atom]
  rfl

theorem move_double_quote {sigil : Option Sigil} {rest : List Char}
    (opens : ∀ text, state.move options true ('"' :: text) =
      QuoteRun.move state.location sigil ('"' :: text) true) (alone : rest.head? ≠ some '"') :
    state.move options true ('"' :: rest) =
      QuotedDraft.openMove state.location (QuoteRun.quotation sigil) '"' ('"' :: rest) := by
  have run : runLength '"' ('"' :: rest) = 1 := runLength_quotes 1 alone
  simp only [opens, QuoteRun.move, run, Bool.not_true, Bool.false_and, Bool.false_eq_true,
    ↓reduceIte]

/-- The string between double quotes. Without any text it is a run of two quotes. -/
theorem run_double_quoted {sigil : Option Sigil} {text behind : List Char}
    (opens : ∀ text, state.move options true ('"' :: text) =
      QuoteRun.move state.location sigil ('"' :: text) true)
    (valid : ∀ c ∈ text, isText c = true)
    (free : (QuoteRun.quotation sigil).isVerbatim = true → '"' ∉ text)
    (ends : behind.head? ≠ some '"') :
    let literal := '"' :: (spelled (QuoteRun.quotation sigil).isVerbatim '"' text ++ ['"'])
    state.run options extent true (literal ++ behind) =
      { state.behindToken options (.string (String.ofList text)) literal with
        mode := modeBehindQuoted (state.location.walk literal) '"' (QuoteRun.quotation sigil) }.run
          options extent true behind := by
  intro literal
  have delimiter := delimiter_of_closing? (show closing? '"' = some '"' from rfl)
  by_cases empty : text = []
  · subst empty
    have two : literal = ['"', '"'] := by simp only [literal, spelled_nil, List.nil_append]
    have run : runLength '"' ('"' :: '"' :: behind) = 2 := runLength_quotes 2 ends
    have not_one : (2 : Nat) ≠ 1 := by decide
    have step : state.move options true ('"' :: '"' :: behind) =
        .emit 2 (.string "") ⟨state.location, String.ofList ['"', '"']⟩
          (modeBehindQuoted (state.location.walk ['"', '"']) '"' (QuoteRun.quotation sigil)) := by
      simp only [opens, QuoteRun.move, run, Bool.not_true, Bool.false_and, Bool.false_eq_true,
        ↓reduceIte, not_one]
      cases sigil <;> rfl
    rw [two, List.cons_append, List.singleton_append, run_eq, step]
    rfl
  · have head := head?_spelled delimiter free empty ('"' :: behind)
    have no_atom : QuoteRun.quotation sigil ≠ .atom := by cases sigil <;> simp [QuoteRun.quotation]
    have whole : literal ++ behind = '"' ::
        (spelled (QuoteRun.quotation sigil).isVerbatim '"' text ++ '"' :: behind) := by
      simp [literal]
    rw [whole, run_open (move_double_quote opens head), run_body delimiter valid free,
      run_close no_atom]
    rfl

/-- A string between delimiters, and the sigil of which it may be the string. Only a sigil has
other delimiters than double quotes. -/
theorem run_delimited {name : Option (List Char)} {opening : Char} {text behind : List Char}
    (named : ∀ n ∈ name, SigilName n) (mode : state.mode = .between)
    (pair : closing? opening = some close) (only_quotes : name = none → opening = '"')
    (valid : ∀ c ∈ text, isText c = true)
    (free : name.any keepsBackslashes = true → close ∉ text) (ends : behind.head? ≠ some '"') :
    let literal := opening :: (spelled (name.any keepsBackslashes) close text ++ [close])
    state.run options extent true (sigilSource name ++ (literal ++ behind)) =
      { (state.atString options name).behindToken options (.string (String.ofList text))
          literal with
        mode := modeBehindQuoted ((state.atString options name).location.walk literal) close
          (QuoteRun.quotation (state.sigilOf name)) }.run options extent true behind := by
  intro literal
  have verbatim : (QuoteRun.quotation (state.sigilOf name)).isVerbatim =
      name.any keepsBackslashes := by cases name <;> rfl
  rw [← verbatim] at free
  by_cases quotes : opening = '"'
  · subst quotes
    obtain rfl : '"' = close := Option.some.inj pair
    refine (run_atString named mode _).trans ?_
    simp only [literal, ← verbatim]
    exact run_double_quoted (move_atString mode name) valid free ends
  · cases name with
    | none => exact absurd (only_quotes rfl) quotes
    | some name =>
      have whole : literal ++ behind = opening ::
          (spelled (keepsBackslashes name) close text ++ close :: behind) := by
        simp [literal]
      have opened (rest : List Char) : (state.atString options (some name)).move options true
          (opening :: rest) =
            QuotedDraft.openMove (state.atString options (some name)).location
              (QuoteRun.quotation (state.sigilOf (some name))) close (opening :: rest) := by
        simp only [atString, move, Sigil.move, quotes, ↓reduceIte, pair]
        rfl
      rw [whole, sigilSource, List.cons_append,
        run_sigilPrefix (named name rfl) mode (not_continuesName_of_closing? pair)]
      refine (run_open (opened _)).trans ?_
      refine (run_body (delimiter_of_closing? pair) valid free _).trans ?_
      rw [run_close (by simp [QuoteRun.quotation, sigilOf])]
      rfl

/-- A string that is all that is left, and the sigil of which it may be the string. -/
theorem run_delimited_to_end {name : Option (List Char)} {opening : Char} {text : List Char}
    (named : ∀ n ∈ name, SigilName n) (mode : state.mode = .between)
    (pair : closing? opening = some close) (only_quotes : name = none → opening = '"')
    (valid : ∀ c ∈ text, isText c = true)
    (free : name.any keepsBackslashes = true → close ∉ text) :
    let literal := opening :: (spelled (name.any keepsBackslashes) close text ++ [close])
    state.run options extent true (sigilSource name ++ literal) =
      .stopped (.tokens (state.behindString options name literal (String.ofList text)).tokens
        (state.location.walk (sigilSource name ++ literal))) [] := by
  intro literal
  have whole : sigilSource name ++ literal = sigilSource name ++ (literal ++ []) := by
    rw [List.append_nil]
  rw [← location_behindString options state name literal (String.ofList text), whole]
  refine (run_delimited named mode pair only_quotes valid free (by decide)).trans ?_
  cases name with
  | none => exact run_afterString_nil.trans run_behindToken_nil
  | some name =>
    refine (run_sigilSuffix _ (by simp)).trans ?_
    by_cases quoted : (close == '"') = true
    · rw [if_pos quoted]
      exact run_afterString_nil.trans run_behindToken_nil
    · rw [if_neg quoted]
      exact run_behindToken_nil

end State

namespace Suspension

variable {options : Options} {origin : Location} {queue : List (List Char)} {text : List Char}

/-- All that is found is tokens of these kinds, up to the end of the text. -/
def FindsOnly (options : Options) (origin : Location) (queue : List (List Char))
    (kinds : List Kind) : Prop :=
  ∃ tokens,
    (start options origin).found queue = [.tokens tokens (origin.position queue.flatten)] ∧
    tokens.toList.map (·.kind) = kinds

theorem findsOnly_string (name : Option (List Char)) {literal : List Char} {value : String}
    (whole : queue.flatten = sigilSource name ++ literal)
    (stops : (State.fresh origin).run options .form true (sigilSource name ++ literal) =
      .stopped (.tokens ((State.fresh origin).behindString options name literal value).tokens
        (origin.walk (sigilSource name ++ literal))) []) :
    FindsOnly options origin queue (stringKinds value name) := by
  rw [← whole, ← ahead_start, Location.walk_eq_position] at stops
  refine ⟨_, ?_, (State.fresh origin).kinds_behindString options name literal value⟩
  rw [found_of_stopped stops rfl, found_nothing]

theorem found_delimited (name : Option (List Char)) {opening close : Char}
    (named : ∀ n ∈ name, SigilName n) (pair : closing? opening = some close)
    (only_quotes : name = none → opening = '"') (valid : ∀ c ∈ text, isText c = true)
    (free : name.any keepsBackslashes = true → close ∉ text)
    (whole : queue.flatten = sigilSource name ++
      opening :: (spelled (name.any keepsBackslashes) close text ++ [close])) :
    FindsOnly options origin queue (stringKinds (String.ofList text) name) :=
  findsOnly_string name whole (State.run_delimited_to_end named rfl pair only_quotes valid free)

theorem found_atom (valid : ∀ c ∈ text, isText c = true)
    (whole : queue.flatten = '\'' :: (escaped '\'' text ++ ['\''])) :
    if text.length ≤ maxNameLength then
      FindsOnly options origin queue [.atom (String.ofList text)]
    else
      (start options origin).found queue =
        [.error (.illegal origin .atom) (origin.position queue.flatten)] := by
  have atom : (State.fresh origin).run options .form true (queue.flatten ++ []) = _ :=
    whole ▸ State.run_atom valid rfl []
  rw [List.append_nil, ← ahead_start, Location.walk_eq_position] at atom
  split
  · rename_i short
    rw [if_pos short] at atom
    rw [State.run_behindToken_nil] at atom
    refine ⟨((State.fresh origin).behindToken options (.atom (String.ofList text))
      queue.flatten).tokens, ?_, rfl⟩
    rw [found_of_stopped atom rfl, found_nothing, Location.walk_eq_position]
    rfl
  · rename_i long
    rw [if_neg long] at atom
    rw [found_of_stopped atom rfl, found_nothing]
    rfl

end Suspension

/-- **Quoted text is read back.** Any text with a backslash in front of each backslash and each
closing delimiter is the value of the string or the atom that it spells in quotes, and of the
string that it spells in a sigil that decodes escapes, whatever its delimiters. In every other
sigil a text without the closing delimiter is the value as it is. So it is in whatever chunks the
text comes. An atom that is too long is reported at its opening quote, up to behind the closing
one. -/
theorem quoted_text_read_back {text : List Char} (valid : ∀ c ∈ text, isText c = true)
    (options : Options) (origin : Location) (queue : List (List Char)) :
    (queue.flatten = '"' :: (escaped '"' text ++ ['"']) →
      Suspension.FindsOnly options origin queue [.string (String.ofList text)]) ∧
    (queue.flatten = '\'' :: (escaped '\'' text ++ ['\'']) →
      if text.length ≤ maxNameLength then
        Suspension.FindsOnly options origin queue [.atom (String.ofList text)]
      else
        (Suspension.start options origin).found queue =
          [.error (.illegal origin .atom) (origin.position queue.flatten)]) ∧
    (∀ name opening close, name = ['s'] ∨ name = ['b'] → closing? opening = some close →
      queue.flatten = '~' :: (name ++ opening :: (escaped close text ++ [close])) →
      Suspension.FindsOnly options origin queue
        [.sigilPrefix (String.ofList name), .string (String.ofList text), .sigilSuffix ""]) ∧
    ∀ name opening close, VerbatimName name → closing? opening = some close → close ∉ text →
      queue.flatten = '~' :: (name ++ opening :: (text ++ [close])) →
      Suspension.FindsOnly options origin queue
        [.sigilPrefix (String.ofList name), .string (String.ofList text), .sigilSuffix ""] := by
  refine ⟨?_, ?_, ?_, ?_⟩
  · intro whole
    exact Suspension.found_delimited none (by simp) rfl (fun _ => rfl) valid (by simp)
      whole
  · intro whole
    exact Suspension.found_atom valid whole
  · intro name opening close decoding pair whole
    have named : SigilName name := by
      rcases decoding with rfl | rfl <;> exact .of_letter (by decide)
    have escapes : keepsBackslashes name = false := by rcases decoding with rfl | rfl <;> rfl
    refine Suspension.found_delimited (some name) ?_ pair (by simp) valid ?_ ?_
    · rintro n same
      obtain rfl := Option.some.inj same
      exact named
    · simp [escapes]
    · simpa [escapes, spelled, sigilSource] using whole
  · intro name opening close named pair free whole
    refine Suspension.found_delimited (some name) ?_ pair (by simp) valid (fun _ => free) ?_
    · rintro n same
      obtain rfl := Option.some.inj same
      exact named.sigilName
    · simpa [named.keepsBackslashes, spelled, sigilSource] using whole

/-- Delimiters, backslashes and a line break in a text, in angle brackets. -/
theorem quoted_text_read_back_across_chunks :
    (∀ c ∈ "<a>\\\n€\"".toList, isText c = true) ∧
      Suspension.FindsOnly default ⟨1, some 1⟩
        ["~".toList, "s<<a\\".toList, ">\\\\\n€\"".toList, ['>']]
        [.sigilPrefix "s", .string "<a>\\\n€\"", .sigilSuffix ""] := by
  have valid : ∀ c ∈ "<a>\\\n€\"".toList, isText c = true :=
    List.all_eq_true.mp (by decide)
  refine ⟨valid, ?_⟩
  exact (quoted_text_read_back valid default ⟨1, some 1⟩
    ["~".toList, "s<<a\\".toList, ">\\\\\n€\"".toList, ['>']]).2.2.1 ['s'] '<' '>' (.inl rfl) rfl
    rfl

end ErlangLexer
