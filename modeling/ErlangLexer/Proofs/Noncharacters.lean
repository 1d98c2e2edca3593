import ErlangLexer.Proofs.AllText
import ErlangLexer.Proofs.Completion
import ErlangLexer.Proofs.Fed

/-!
# Noncharacters

No single check keeps U+FFFE and U+FFFF out of a scan. Each mode tells for itself what it
reads, or leaves it to another mode:

* `Mode.HoldsText`: the characters that a mode has gathered are text;
* `State.move_takesText`: every move reads text, and text is all that it gathers;
* `State.run_takesText`: so does a run, as long as it finds no error;
* `noncharacters_rejected`: no scan that succeeds has read a noncharacter or come up with one.
-/

namespace ErlangLexer

/-! ## Moves -/

/-- The characters in the value of a token. Numbers have none. -/
def Kind.characters : Kind → List Char
  | .atom text | .variable text | .string text | .sigilPrefix text | .sigilSuffix text
  | .reserved text => text.toList
  | .char c | .symbol c => [c]
  | .operator op => op.spelling
  | .integer _ | .float _ | .dot | .checkOpen | .checkClose => []

/-- What a scan gathers in this mode is text. -/
def Mode.HoldsText : Mode → Prop
  | .name draft => AllText draft.name.toList
  | .quoted draft => isText draft.close = true ∧ AllText draft.value.toList
  | .tripleQuoted draft => AllText draft.interior
  | .between | .comment | .number _ | .afterString | .sigil _ => True

/-- The move reads text, if it does not stop with an error, and it gathers text. -/
def Move.TakesText (text : List Char) : Move → Prop
  | .read width next => AllText (text.take width) ∧ next.HoldsText
  | .emit width kind _ next =>
    AllText (text.take width) ∧ AllText kind.characters ∧ next.HoldsText
  | .wait | .finish | .fail _ _ | .reject _ _ _ => True

theorem Comment.move_takesText (text : List Char) (ended : Bool) :
    (move text ended).TakesText text := by
  simp only [move]
  repeat' split
  · exact ⟨allText_nil, trivial⟩
  · trivial
  · rename_i skipped
    have text := (Bool.and_eq_true_iff.mp skipped).2
    exact ⟨by simp [text], trivial⟩
  · exact ⟨by simp, trivial⟩

theorem Comment.openMove_takesText (options : Options) (checking : Bool) (here : Location)
    (rest : List Char) (ended : Bool) :
    (openMove options checking here ('%' :: rest) ended).TakesText ('%' :: rest) := by
  simp only [openMove]
  split
  · rename_i marked
    simp only [Bool.and_eq_true, List.isPrefixOf_iff_prefix] at marked
    have taken : ('%' :: rest).take 5 = marker := (List.prefix_iff_eq_take.mp marked.2).symm
    have text : AllText (('%' :: rest).take 5) := by
      rw [taken]
      simp +decide [marker]
    split
    · exact ⟨text, trivial⟩
    · exact ⟨text, allText_nil, trivial⟩
  · split
    · trivial
    · exact ⟨by simp +decide, trivial⟩

theorem AfterString.move_takesText (here : Location) (text : List Char) (ended : Bool) :
    (move here text ended).TakesText text := by
  simp only [move]
  repeat' split
  · exact ⟨allText_nil, trivial⟩
  · trivial
  · trivial
  · exact ⟨by simp, trivial⟩

theorem CharLiteral.move_takesText (here : Location) (rest : List Char) (ended : Bool) :
    (move here rest ended).TakesText ('$' :: rest) := by
  simp only [move]
  split
  · split <;> trivial
  · rename_i c behind
    split
    · subst_vars
      have takes := Escape.read_takesText behind ended
      split <;> rename_i escape <;> rw [escape] at takes
      · obtain ⟨value, spelled⟩ := takes
        refine ⟨?_, by simp [Kind.characters, value], trivial⟩
        simp +decide [Nat.add_comm 2, spelled]
      · obtain ⟨_, rfl⟩ := List.head?_eq_some_iff.mp takes
        exact ⟨by simp +decide, by simp +decide [Kind.characters], trivial⟩
      · split <;> trivial
      · trivial
    · split
      · rename_i text
        exact ⟨by simp +decide [text], by simp [Kind.characters, text], trivial⟩
      · trivial

theorem Operator.allText_spelling (op : Operator) : AllText op.spelling := by
  cases op <;> simp +decide [spelling]

theorem Punctuation.move_takesText (checking : Bool) (here : Location) (c : Char)
    (rest : List Char) (ended : Bool) :
    (move checking here c rest ended).TakesText (c :: rest) := by
  simp only [move]
  split
  · trivial
  · split
    · rename_i op found
      have fits := List.find?_some found
      have spelled : (c :: rest).take op.spelling.length = op.spelling :=
        (List.prefix_iff_eq_take.mp (List.isPrefixOf_iff_prefix.mp fits)).symm
      split
      · rename_i ends
        obtain ⟨rfl, -⟩ := ends
        have dot : isText c = true := by
          obtain rfl : c = '.' := by simpa [Operator.spelling] using spelled
          decide
        refine ⟨?_, by split <;> exact allText_nil, trivial⟩
        unfold terminatorWidth
        split
        · simp [dot]
        · split
          · rename_i blank
            simp [dot, isText_of_class (p := isBlank) rfl rfl blank]
          · simp [dot]
      · refine ⟨?_, op.allText_spelling, trivial⟩
        rw [spelled]
        exact op.allText_spelling
    · split
      · rename_i text
        exact ⟨by simp [text], by simp [Kind.characters, text], trivial⟩
      · trivial

namespace NameDraft

variable {draft : NameDraft}

theorem complete_takesText (options : Options) (name : AllText draft.name.toList)
    (text : List Char) : (draft.complete options).TakesText text := by
  have kind : AllText (draft.kind options).characters := by
    unfold kind
    repeat' split
    all_goals exact name
  have next : draft.next.HoldsText := by
    unfold next
    repeat' split
    all_goals trivial
  unfold complete
  split
  · trivial
  · exact ⟨allText_nil, kind, next⟩

theorem move_takesText (options : Options) (name : AllText draft.name.toList)
    (text : List Char) (ended : Bool) : (draft.move options text ended).TakesText text := by
  simp only [move]
  repeat' split
  · exact complete_takesText options name _
  · trivial
  · rename_i continues
    have text := isText_of_class (p := continuesName) rfl rfl continues
    exact ⟨by simp [text], by simp [Mode.HoldsText, name, text]⟩
  · exact complete_takesText options name _

end NameDraft

theorem NumberPart.isText_of_digit {part next : NumberPart} {c : Char}
    (digit : part.digit? c = some next) : isText c = true := by
  cases part with
  | sign => cases digit
  | _ =>
    obtain ⟨value, found, -⟩ := Option.map_eq_some_iff.mp digit
    exact ErlangLexer.isText_of_digit (Option.isSome_of_eq_some found)

namespace NumberDraft

variable (draft : NumberDraft)

theorem readTo_takesText {text : List Char} {width : Nat} (taken : AllText (text.take width))
    (part : NumberPart) : (draft.readTo text width part).TakesText text :=
  ⟨taken, trivial⟩

theorem complete_takesText (text : List Char) : draft.complete.TakesText text := by
  unfold complete
  split
  · rename_i kind value
    refine ⟨allText_nil, ?_, trivial⟩
    rcases NumberPart.kind_of_value value with ⟨n, rfl⟩ | ⟨x, rfl⟩
    · exact allText_nil
    · exact allText_nil
  · trivial

theorem underscores_takesText (rest : List Char) (ended : Bool) :
    (draft.underscores ('_' :: rest) ended).TakesText ('_' :: rest) := by
  unfold underscores
  split
  · split <;> trivial
  · rename_i first d behind same
    obtain ⟨rfl, rfl⟩ := List.cons.inj same
    split
    · rename_i digit
      exact draft.readTo_takesText (by simp +decide [NumberPart.isText_of_digit digit]) _
    · split <;> trivial
  · exact draft.complete_takesText _

theorem point_takesText (value : Nat) (rest : List Char) (ended : Bool) :
    (draft.point value ('.' :: rest) ended).TakesText ('.' :: rest) := by
  unfold point
  split
  · split
    · exact draft.complete_takesText _
    · trivial
  · rename_i d behind same
    obtain rfl : rest = d :: behind := same
    split
    · rename_i digit
      exact draft.readTo_takesText (by simp +decide [NumberPart.isText_of_digit digit]) _
    · exact draft.complete_takesText _

theorem mark_takesText (c : Char) (rest : List Char) (ended : Bool) :
    (draft.mark c (c :: rest) ended).TakesText (c :: rest) := by
  have lone {part : NumberPart} (text : isText c = true) :
      (draft.readTo (c :: rest) 1 part).TakesText (c :: rest) :=
    draft.readTo_takesText (by simp [text]) part
  unfold mark
  repeat' split
  · subst_vars
    exact draft.point_takesText _ rest ended
  · subst_vars
    unfold base
    split
    · exact lone (by decide)
    · trivial
  · exact draft.complete_takesText _
  · rename_i exponent
    apply lone
    rcases Bool.or_eq_true_iff.mp exponent with small | capital
    · rw [of_decide_eq_true small]
      decide
    · rw [of_decide_eq_true capital]
      decide
  · exact draft.complete_takesText _
  · subst_vars
    exact lone (by decide)
  · subst_vars
    exact lone (by decide)
  · rename_i digit
    exact lone (NumberPart.isText_of_digit digit)
  · exact draft.complete_takesText _
  · exact draft.complete_takesText _
  · exact draft.complete_takesText _

theorem move_takesText (text : List Char) (ended : Bool) :
    (draft.move text ended).TakesText text := by
  unfold move
  repeat' split
  · exact draft.complete_takesText _
  · trivial
  · rename_i digit
    exact draft.readTo_takesText (by simp [NumberPart.isText_of_digit digit]) _
  · rename_i underscore
    obtain ⟨rfl, -⟩ : _ = '_' ∧ _ := by
      simpa only [Bool.and_eq_true, decide_eq_true_eq] using underscore
    exact draft.underscores_takesText _ ended
  · exact draft.mark_takesText _ _ ended

end NumberDraft

namespace QuotedDraft

theorem openMove_takesText (here : Location) (quotation : Quotation) {c close : Char}
    (rest : List Char) (opens : isText c = true) (closes : isText close = true) :
    (openMove here quotation close (c :: rest)).TakesText (c :: rest) :=
  ⟨by simp [opens], closes, allText_nil⟩

variable {draft : QuotedDraft} (holds : (Mode.quoted draft).HoldsText)
include holds

theorem readValue_takesText {text : List Char} {width : Nat} {value : Char}
    (taken : AllText (text.take width)) (stands : isText value = true) :
    (draft.readValue text width value).TakesText text :=
  ⟨taken, holds.1, by simp [holds.2, stands]⟩

theorem complete_takesText (here : Location) (rest : List Char) :
    (draft.complete here (draft.close :: rest)).TakesText (draft.close :: rest) := by
  have taken : AllText ((draft.close :: rest).take 1) := by simp [holds.1]
  unfold complete
  dsimp only
  split
  · split
    · trivial
    · exact ⟨taken, holds.2, trivial⟩
  · exact ⟨taken, holds.2, trivial⟩
  · exact ⟨taken, holds.2, allText_nil⟩

theorem escape_takesText (here : Location) (rest : List Char) (ended : Bool) :
    (draft.escape here ('\\' :: rest) rest ended).TakesText ('\\' :: rest) := by
  have takes := Escape.read_takesText rest ended
  unfold escape
  split <;> rename_i escape <;> rw [escape] at takes
  · obtain ⟨value, spelled⟩ := takes
    exact readValue_takesText holds (by simp +decide [Nat.add_comm 1, spelled]) value
  · obtain ⟨_, rfl⟩ := List.head?_eq_some_iff.mp takes
    exact readValue_takesText holds (by simp +decide) (by decide)
  · split
    · unfold unterminated
      trivial
    · trivial
  · trivial

theorem move_takesText (here : Location) (text : List Char) (ended : Bool) :
    (draft.move here text ended).TakesText text := by
  unfold move
  repeat' split
  · unfold unterminated
    trivial
  · trivial
  · subst_vars
    exact complete_takesText holds here _
  · rename_i backslash
    obtain ⟨rfl, -⟩ : _ = '\\' ∧ _ := by
      simpa only [Bool.and_eq_true, decide_eq_true_eq] using backslash
    exact escape_takesText holds here _ ended
  · rename_i text
    exact readValue_takesText holds (by simp [text]) text
  · trivial

end QuotedDraft

namespace TripleQuotedDraft

theorem openMove_takesText (here : Location) (sigil : Option Sigil) (text : List Char) :
    (openMove here sigil text (runLength '"' text)).TakesText text :=
  ⟨allText_quotes text, allText_nil⟩

theorem interior_pushFront (draft : TripleQuotedDraft) (text : List Char) (width : Nat) :
    (draft.pushFront text width).interior = draft.interior ++ text.take width := by
  have pushed (front : List Char) (draft : TripleQuotedDraft) :
      (front.foldl push draft).interior = draft.interior ++ front := by
    induction front generalizing draft with
    | nil => simp
    | cons c front ih => rw [List.foldl_cons, ih, interior_push, List.append_assoc]; rfl
  exact pushed (text.take width) draft

variable {draft : TripleQuotedDraft} (all : AllText draft.interior)
include all

theorem allText_lines : ∀ line ∈ draft.layout.lines, AllText line := by
  apply allText_flatten.mp
  obtain ⟨lexeme, quotes, sigil, opening, body⟩ := draft
  cases body with
  | none => exact allText_nil
  | some body =>
    simp only [interior, TripleQuotedBody.content, allText_append, allText_cons] at all
    exact all.2.2.1

theorem complete_takesText (here : Location) {text : List Char}
    (run : runLength '"' text = draft.quotes) : (draft.complete here text).TakesText text := by
  have taken : AllText (text.take draft.quotes) := by
    rw [← run]
    exact allText_quotes text
  unfold complete
  dsimp only
  split
  · rename_i value valued
    have laid := value_eq_ok_iff.mp valued
    have value : AllText (String.ofList value).toList := by
      rw [String.toList_ofList]
      exact Layout.allText_value (allText_lines all) laid
    split
    · exact ⟨taken, value, allText_nil⟩
    · exact ⟨taken, value, trivial⟩
  · trivial

theorem quoteRun_takesText (here : Location) (text : List Char) (ended : Bool) :
    (draft.quoteRun here text ended).TakesText text := by
  unfold quoteRun
  dsimp only
  repeat' split
  · trivial
  · rename_i run
    exact complete_takesText all here run
  · refine ⟨allText_quotes text, ?_⟩
    simp only [Mode.HoldsText, interior_pushFront, allText_append]
    exact ⟨all, allText_quotes text⟩

theorem move_takesText (here : Location) (text : List Char) (ended : Bool) :
    (draft.move here text ended).TakesText text := by
  unfold move
  repeat' split
  · unfold unterminated
    trivial
  · trivial
  · trivial
  · exact quoteRun_takesText all here _ ended
  · rename_i c _ text _
    have text : isText c = true := by simpa using text
    refine ⟨by simp [text], ?_⟩
    simp only [Mode.HoldsText, interior_push, allText_append]
    exact ⟨all, by simp [text]⟩

end TripleQuotedDraft

theorem QuoteRun.move_takesText (here : Location) (sigil : Option Sigil) (rest : List Char)
    (ended : Bool) : (move here sigil ('"' :: rest) ended).TakesText ('"' :: rest) := by
  unfold move
  dsimp only
  repeat' split
  · trivial
  · exact QuotedDraft.openMove_takesText here _ rest (by decide) (by decide)
  · rename_i two
    refine ⟨?_, allText_nil, ?_⟩
    · rw [← two]
      exact allText_quotes _
    · cases sigil with
      | none => trivial
      | some sigil => exact allText_nil
  · exact TripleQuotedDraft.openMove_takesText here sigil _

theorem isText_of_closing {c close : Char} (closing : closing? c = some close) :
    isText c = true ∧ isText close = true := by
  unfold closing? at closing
  split at closing
  all_goals cases closing <;> decide

theorem Sigil.move_takesText (sigil : Sigil) (here : Location) (text : List Char)
    (ended : Bool) : (sigil.move here text ended).TakesText text := by
  unfold move
  repeat' split
  · trivial
  · trivial
  · subst_vars
    exact QuoteRun.move_takesText here _ _ ended
  · rename_i closing
    obtain ⟨opens, closes⟩ := isText_of_closing closing
    exact QuotedDraft.openMove_takesText here _ _ opens closes
  · trivial

theorem Between.move_takesText (options : Options) (checking : Bool) (here : Location)
    (text : List Char) (ended : Bool) :
    (move options checking here text ended).TakesText text := by
  unfold move
  repeat' split
  · trivial
  · trivial
  · rename_i blank
    exact ⟨by simp [isText_of_class (p := isBlank) rfl rfl blank], trivial⟩
  · rename_i digit
    exact ⟨by simp [isText_of_class (p := isDigit) rfl rfl digit], trivial⟩
  · rename_i lower
    have text := isText_of_class (p := isLower) rfl rfl lower
    exact ⟨by simp [text], by simp [Mode.HoldsText, text]⟩
  · rename_i starts
    have text := isText_of_class (p := startsVariable) rfl rfl starts
    exact ⟨by simp [text], by simp [Mode.HoldsText, text]⟩
  · subst_vars
    exact QuoteRun.move_takesText here none _ ended
  · subst_vars
    exact QuotedDraft.openMove_takesText here _ _ (by decide) (by decide)
  · subst_vars
    exact CharLiteral.move_takesText here _ ended
  · subst_vars
    exact ⟨by simp +decide, allText_nil⟩
  · subst_vars
    exact Comment.openMove_takesText options checking here _ ended
  · exact Punctuation.move_takesText checking here _ _ ended

/-! ## Runs -/

namespace State

/-- **A move takes text.** Whatever the mode, the characters that are read are text, and so
are those that are gathered, unless the scan stops with an error. -/
theorem move_takesText (options : Options) (ended : Bool) {state : State} (text : List Char)
    (holds : state.mode.HoldsText) : (state.move options ended text).TakesText text := by
  simp only [move]
  split <;> rename_i mode <;> rw [mode] at holds
  · exact Between.move_takesText _ _ _ _ _
  · exact Comment.move_takesText _ _
  · exact NameDraft.move_takesText _ holds _ _
  · exact NumberDraft.move_takesText _ _ _
  · exact QuotedDraft.move_takesText holds _ _ _
  · exact AfterString.move_takesText _ _ _
  · exact Sigil.move_takesText _ _ _ _
  · exact TripleQuotedDraft.move_takesText holds _ _ _

end State

/-- The values of tokens are text. -/
def TokensOfText (tokens : List Token) : Prop :=
  ∀ token ∈ tokens, AllText token.kind.characters

/-- What a halted scan has read is text, and so are the values that it has found. Nothing is
said of a scan that stops with an error. -/
def Halt.TakesText (text : List Char) : Halt → Prop
  | .suspended state rest =>
    ∃ read, text = read ++ rest ∧ AllText read ∧ TokensOfText state.tokens.toList
  | .stopped outcome rest =>
    ∀ tokens, outcome.tokens? = some tokens →
      ∃ read, text = read ++ rest ∧ AllText read ∧ TokensOfText tokens

theorem Halt.TakesText.behind {halt : Halt} {text : List Char} {width : Nat}
    (taken : AllText (text.take width)) (takes : halt.TakesText (text.drop width)) :
    halt.TakesText text := by
  have front {read rest : List Char} (split : text.drop width = read ++ rest) :
      text = (text.take width ++ read) ++ rest := by
    rw [List.append_assoc, ← split, List.take_append_drop]
  cases halt with
  | suspended state rest =>
    obtain ⟨read, split, text_read, found⟩ := takes
    exact ⟨_, front split, allText_append.mpr ⟨taken, text_read⟩, found⟩
  | stopped outcome rest =>
    intro tokens listed
    obtain ⟨read, split, text_read, found⟩ := takes tokens listed
    exact ⟨_, front split, allText_append.mpr ⟨taken, text_read⟩, found⟩

namespace State

theorem tokensOfText_record {state : State} (found : TokensOfText state.tokens.toList)
    (options : Options) {kind : Kind} (value : AllText kind.characters) (lexeme : Lexeme) :
    TokensOfText (state.record options kind lexeme).tokens.toList := by
  intro token listed
  simp only [record, Array.toList_push, List.mem_append, List.mem_singleton] at listed
  rcases listed with old | rfl
  · exact found token old
  · exact value

/-- A run takes text until it meets an error. -/
theorem run_takesText (options : Options) (extent : Extent) (ended : Bool) (state : State)
    (text : List Char) (holds : state.mode.HoldsText)
    (found : TokensOfText state.tokens.toList) :
    (state.run options extent ended text).TakesText text := by
  have takes (state : State) (text : List Char) (holds : state.mode.HoldsText) :=
    state.move_takesText options ended text holds
  fun_induction State.run options extent ended state text with
  | case1 state text step => exact ⟨[], rfl, allText_nil, found⟩
  | case2 state text step =>
    intro tokens listed
    rw [tokens?_outcome] at listed
    obtain rfl := Option.some.inj listed
    exact ⟨[], rfl, allText_nil, found⟩
  | case3 state text width next step ih =>
    have taken := takes state text holds
    rw [step] at taken
    exact .behind taken.1 (ih taken.2 found)
  | case4 state text width kind lexeme next step state' stops =>
    have taken := takes state text holds
    rw [step] at taken
    refine .behind taken.1 ?_
    intro tokens listed
    rw [tokens?_outcome] at listed
    obtain rfl := Option.some.inj listed
    exact ⟨[], rfl, allText_nil, tokensOfText_record found options taken.2.1 lexeme⟩
  | case5 state text width kind lexeme next step state' goes_on ih =>
    have taken := takes state text holds
    rw [step] at taken
    exact .behind taken.1
      (ih taken.2.2 (tokensOfText_record found options taken.2.1 lexeme))
  | case6 state text width error step =>
    intro tokens listed
    cases listed
  | case7 state text width error finish step =>
    intro tokens listed
    cases listed

theorem fresh_takesText (options : Options) (extent : Extent) (ended : Bool) (origin : Location)
    (text : List Char) : ((fresh origin).run options extent ended text).TakesText text :=
  run_takesText options extent ended (fresh origin) text trivial
    fun _ listed => absurd listed List.not_mem_nil

end State

/-- **Noncharacters are rejected.** A text that is scanned as a whole without an error has no
noncharacter in it, and neither has any value of its tokens, escapes included. However a text
comes in chunks, a suspended scan and one that finishes without an error have read no
noncharacter, and found none in a value. -/
theorem noncharacters_rejected (options : Options) (origin : Location) :
    (∀ (text : List Char) (tokens : Array Token) (finish : Location),
      scanText options origin text = .ok (tokens, finish) →
        AllText text ∧ TokensOfText tokens.toList) ∧
    ∀ (fed : List Char) (scan : Suspension), Suspension.Fed options origin fed scan →
      (∃ read, fed = read ++ scan.pending ∧ AllText read ∧
        TokensOfText scan.state.tokens.toList) ∧
      ∀ (input : Input) (outcome : Outcome) (rest : Option (List Char)) (tokens : List Token),
        scan.resume input = .finished outcome rest → outcome.tokens? = some tokens →
          ∃ read, fed ++ input.text = read ++ rest.getD [] ∧ AllText read ∧
            TokensOfText tokens := by
  constructor
  · intro text tokens finish scanned
    obtain ⟨listed, -⟩ := tokens?_of_scanText scanned
    have stops := scanEnded_stops options .text origin text
    have takes := State.fresh_takesText options .text true origin text
    rw [stops] at takes
    obtain ⟨read, split, text_read, found⟩ := takes _ listed
    rw [State.run_text_rest options true _ text stops listed, List.append_nil] at split
    rw [split]
    exact ⟨text_read, found⟩
  · intro fed scan given
    constructor
    · have takes := State.fresh_takesText options .form false origin fed
      rw [given.suspends] at takes
      exact takes
    · intro input outcome rest tokens finished listed
      have takes := State.fresh_takesText options .form input.isEnd origin (fed ++ input.text)
      rw [given.stops finished] at takes
      exact takes tokens listed

/-- A string of an escape and a comment, as a whole and cut within the escape. -/
theorem noncharacters_rejected_in_escape :
    ∃ tokens finish scan outcome list,
      scanText default ⟨1, none⟩ ['"', '\\', 'x', '4', '1', '"', '.', '%', 'a'] =
        .ok (tokens, finish) ∧
      (AllText ['"', '\\', 'x', '4', '1', '"', '.', '%', 'a'] ∧ TokensOfText tokens.toList) ∧
      Suspension.Fed default ⟨1, none⟩ ['"', '\\', 'x'] scan ∧
      (∃ read, ['"', '\\', 'x'] = read ++ scan.pending ∧ AllText read ∧
        TokensOfText scan.state.tokens.toList) ∧
      scan.resume (.chunk ['4', '1', '"', '.', '%', 'a']) = .finished outcome (some ['%', 'a']) ∧
      outcome.tokens? = some list ∧
      ∃ read, ['"', '\\', 'x'] ++ ['4', '1', '"', '.', '%', 'a'] = read ++ ['%', 'a'] ∧
        AllText read ∧ TokensOfText list := by
  have scanned : scanText default ⟨1, none⟩ ['"', '\\', 'x', '4', '1', '"', '.', '%', 'a'] =
      .ok (#[⟨.string "A", ⟨1, none⟩, none⟩, ⟨.dot, ⟨1, none⟩, none⟩], ⟨1, none⟩) := by
    decide +kernel
  have waits : (State.fresh ⟨1, none⟩).run default .form false ['"', '\\', 'x'] =
      .suspended ⟨⟨1, none⟩, #[], false, .quoted ⟨⟨⟨1, none⟩, "\""⟩, .string, '"', ""⟩⟩
        ['\\', 'x'] := by
    decide +kernel
  have stops : State.run default .form false
      ⟨⟨1, none⟩, #[], false, .quoted ⟨⟨⟨1, none⟩, "\""⟩, .string, '"', ""⟩⟩
      ['\\', 'x', '4', '1', '"', '.', '%', 'a'] =
        .stopped (.tokens #[⟨.string "A", ⟨1, none⟩, none⟩, ⟨.dot, ⟨1, none⟩, none⟩] ⟨1, none⟩)
          ['%', 'a'] := by
    decide +kernel
  obtain ⟨whole, chunks⟩ := noncharacters_rejected default ⟨1, none⟩
  have given := Suspension.Fed.of_run waits
  have finished := Suspension.finished_of_run ⟨default, _, ['\\', 'x']⟩
    ['4', '1', '"', '.', '%', 'a'] stops
  obtain ⟨waiting, finishes⟩ := chunks _ _ given
  exact ⟨_, _, _, _, _, scanned, whole _ _ _ scanned, given, waiting, finished, rfl,
    finishes _ _ _ _ finished rfl⟩

end ErlangLexer
