import ErlangLexer.Forms
import ErlangLexer.Proofs.Pieces
import ErlangLexer.Proofs.Position
import ErlangLexer.Proofs.Resumption

/-!
# Tilings

The tokens of a scan, with the gaps between them, are its text:

* `Tiles`: a text in pieces, each token with its source text and its place;
* `State.Amid`: what a scan holds at each of its steps, which every move preserves;
* `State.run_tiled`: so the text that a run reads is tiled by the tokens it finds;
* `scanText_tiles`: and so is the text of a scan that succeeds.
-/

namespace ErlangLexer

/-- The text behind `before` is made of the tokens, in order, and of gaps between them. A
token has its source text, and is where this starts. -/
inductive Tiles (origin : Location) : Bool → List Char → List Token → List Char → Prop where
  | nil {checking : Bool} {before : List Char} : Tiles origin checking before [] []
  | gap {checking : Bool} {before piece text : List Char} {tokens : List Token}
      (gap : Gap checking piece text)
      (later : Tiles origin checking (before ++ piece) tokens text) :
      Tiles origin checking before tokens (piece ++ text)
  | token {checking : Bool} {before source text : List Char} {token : Token}
      {tokens : List Token}
      (captured : token.text = some (String.ofList source))
      (place : token.location = origin.position before)
      (later : Tiles origin (State.checkingAfter checking token.kind) (before ++ source)
        tokens text) :
      Tiles origin checking before (token :: tokens) (source ++ text)

/-! ## Foreign characters -/

theorem eq_nonchar_of_foreign {c : Char} (foreign : isText c = false) :
    c = '\ufffe' ∨ c = '\uffff' := by
  have valid := c.valid
  have code : c.toNat = 0xfffe ∨ c.toNat = 0xffff := by
    simp only [isText, isTextCode, Bool.or_eq_false_iff, Bool.and_eq_false_iff,
      decide_eq_false_iff_not] at foreign
    simp only [UInt32.isValidChar, Nat.isValidChar, Char.toNat] at valid foreign ⊢
    omega
  rw [← c.ofNat_toNat]
  rcases code with code | code
  · rw [code]
    exact .inl rfl
  · rw [code]
    exact .inr rfl

theorem Between.move_of_foreign (options : Options) (checking : Bool) (here : Location)
    {text : List Char} (ended : Bool) (foreign : Foreign text) :
    move options checking here text ended = .fail 1 (.illegal here .character) := by
  obtain ⟨c, rest, rfl, noText⟩ := foreign
  have single : Operator.mayGrow (c :: rest) = false ∧ Operator.longest? (c :: rest) = none := by
    rcases eq_nonchar_of_foreign noText with rfl | rfl <;>
      simp [Operator.mayGrow, Operator.longest?, Operator.table, Operator.spelling,
        breaksOffWithin]
  have symbol : Punctuation.move checking here c rest ended =
      .fail 1 (.illegal here .character) := by
    simp [Punctuation.move, single, noText]
  rcases eq_nonchar_of_foreign noText with rfl | rfl
  · exact symbol
  · exact symbol

/-! ## Runs -/

/-- The token without its source text, unless the scan captures it. -/
def Token.kept (options : Options) (token : Token) : Token :=
  if options.captureText then token else { token with text := none }

theorem map_kept {options : Options} (captures : options.captureText = true)
    (tokens : List Token) : tokens.map (Token.kept options) = tokens := by
  induction tokens with
  | nil => rfl
  | cons token tokens ih => rw [List.map_cons, ih, Token.kept, if_pos captures]

/-- The tokens of an outcome that is no error. -/
def Outcome.tokens? : Outcome → Option (List Token)
  | .tokens list _ => some list.toList
  | .nothing _ => some []
  | .error _ _ => none

namespace State

@[simp] theorem tokens?_outcome (state : State) :
    state.outcome.tokens? = some state.tokens.toList := by
  simp only [outcome]
  split
  · rename_i none
    simp [Outcome.tokens?, Array.isEmpty_iff.mp none]
  · rfl

@[simp] theorem finish_outcome (state : State) : state.outcome.finish = state.location := by
  simp only [outcome]
  split <;> rfl

/-- The scan holds a lexeme that starts behind the text `before`. -/
structure Amid (origin : Location) (before : List Char) (lexeme : Lexeme) (state : State) :
    Prop where
  start : lexeme.start = origin.walk before
  here : state.location = lexeme.start.walk lexeme.source.toList
  holds : state.mode.Holds lexeme

variable {origin : Location} {before : List Char} {lexeme : Lexeme} {state : State}

theorem amid_fresh (origin : Location) (before : List Char) :
    (fresh (origin.walk before)).Amid origin before (.empty (origin.walk before)) :=
  ⟨rfl, rfl, rfl⟩

namespace Amid

theorem here_extend (amid : state.Amid origin before lexeme) (text : List Char) (width : Nat) :
    state.location.walk (text.take width) =
      lexeme.start.walk (lexeme.extend text width).source.toList := by
  rw [Lexeme.toList_extend, Location.walk_append, ← amid.here]

theorem columns (amid : state.Amid origin before lexeme) :
    state.location.hasColumn = lexeme.start.hasColumn := by
  rw [amid.here, Location.hasColumn_walk]

theorem read (amid : state.Amid origin before lexeme) {text : List Char} {width : Nat}
    {next : Mode} (holds : next.Holds (lexeme.extend text width)) :
    (state.read text width next).Amid origin before (lexeme.extend text width) :=
  ⟨amid.start, amid.here_extend text width, holds⟩

theorem renew (amid : state.Amid origin before lexeme) {text : List Char} {width : Nat}
    {next : Mode} (holds : next.Holds (.empty (state.location.walk (text.take width)))) :
    (state.read text width next).Amid origin
      (before ++ (lexeme.extend text width).source.toList)
      (.empty (state.location.walk (text.take width))) := by
  refine ⟨?_, rfl, holds⟩
  rw [Location.walk_append, ← amid.start]
  exact amid.here_extend text width

theorem emit (amid : state.Amid origin before lexeme) (options : Options) (kind : Kind)
    {text : List Char} {width : Nat} {next : Mode}
    (holds : next.Holds (.empty (state.location.walk (text.take width)))) :
    ((state.record options kind (lexeme.extend text width)).read text width next).Amid origin
      (before ++ (lexeme.extend text width).source.toList)
      (.empty (state.location.walk (text.take width))) :=
  have renewed := amid.renew holds
  ⟨renewed.start, renewed.here, renewed.holds⟩

end Amid

end State

/-- The text a halted scan has read since `state` is tiled, with the lexeme that was held
then in front, by the tokens it has found since. -/
def Halt.Tiled (options : Options) (origin : Location) (before : List Char) (lexeme : Lexeme)
    (state : State) (text : List Char) : Halt → Prop
  | .suspended _ _ => True
  | .stopped outcome rest =>
    ∀ list, outcome.tokens? = some list →
      ∃ read tokens, text = read ++ rest ∧
        list = state.tokens.toList ++ tokens.map (Token.kept options) ∧
        outcome.finish = state.location.walk read ∧
        Tiles origin state.checking before tokens (lexeme.source.toList ++ read)

namespace Halt.Tiled

variable {options : Options} {origin : Location} {before : List Char} {lexeme : Lexeme}
  {state : State} {text : List Char} {width : Nat} {halt : Halt}

/-- One move further back: what it read comes in front of the tiling. -/
theorem prepend {later : State} {before' : List Char} {lexeme' : Lexeme} (first : List Token)
    (tiled : halt.Tiled options origin before' lexeme' later (text.drop width))
    (here : later.location = state.location.walk (text.take width))
    (listed : later.tokens.toList = state.tokens.toList ++ first.map (Token.kept options))
    (tiles : ∀ read rest tokens, text.drop width = read ++ rest →
      Tiles origin later.checking before' tokens (lexeme'.source.toList ++ read) →
      Tiles origin state.checking before (first ++ tokens)
        ((lexeme.extend text width).source.toList ++ read)) :
    halt.Tiled options origin before lexeme state text := by
  cases halt with
  | suspended => trivial
  | stopped outcome rest =>
    intro list found
    obtain ⟨read, tokens, split, list_eq, finish, behind⟩ := tiled list found
    refine ⟨text.take width ++ read, first ++ tokens, ?_, ?_, ?_, ?_⟩
    · rw [List.append_assoc, ← split, List.take_append_drop]
    · rw [list_eq, listed, List.append_assoc, List.map_append]
    · rw [Location.walk_append, ← here]
      exact finish
    · rw [← List.append_assoc, ← Lexeme.toList_extend]
      exact tiles read rest tokens split behind

theorem read {next : Mode}
    (later : halt.Tiled options origin before (lexeme.extend text width)
      (state.read text width next) (text.drop width)) :
    halt.Tiled options origin before lexeme state text :=
  later.prepend [] rfl (List.append_nil _).symm fun _ _ _ _ behind => behind

theorem skip
    (gap : Gap state.checking (lexeme.extend text width).source.toList (text.drop width))
    (later : halt.Tiled options origin (before ++ (lexeme.extend text width).source.toList)
      (.empty (state.location.walk (text.take width))) (state.read text width .between)
      (text.drop width)) : halt.Tiled options origin before lexeme state text := by
  refine later.prepend [] rfl (List.append_nil _).symm ?_
  intro read rest tokens split behind
  rw [split] at gap
  exact .gap gap.of_append behind

theorem emit {kind : Kind} {next : Mode} (start : lexeme.start = origin.walk before)
    (later : halt.Tiled options origin (before ++ (lexeme.extend text width).source.toList)
      (.empty (state.location.walk (text.take width)))
      ((state.record options kind (lexeme.extend text width)).read text width next)
      (text.drop width)) : halt.Tiled options origin before lexeme state text := by
  let token : Token := ⟨kind, lexeme.start, some (lexeme.extend text width).source⟩
  have kept : token.kept options =
      ⟨kind, lexeme.start, if options.captureText then token.text else none⟩ := by
    unfold Token.kept
    split <;> rfl
  have listed : (state.record options kind (lexeme.extend text width)).tokens.toList =
      state.tokens.toList ++ [token].map (Token.kept options) := by
    rw [List.map_singleton, kept]
    simp only [State.record, Array.toList_push]
    rfl
  refine later.prepend [token] rfl listed ?_
  intro read rest tokens split behind
  refine .token ?_ ?_ behind
  · exact congrArg some String.ofList_toList.symm
  · exact start.trans (origin.walk_eq_position before)

/-- A scan that stops where it is has tiled the lexeme, which is empty. -/
theorem here (unread : lexeme.source = "") (rest : List Char) :
    (Halt.stopped state.outcome rest).Tiled options origin before lexeme state rest := by
  intro list found
  refine ⟨[], [], rfl, ?_, ?_, ?_⟩
  · simpa using found.symm
  · simp
  · rw [unread]
    exact .nil

theorem failed (error : LexicalError) (finish : Location) (rest : List Char) :
    (Halt.stopped (.error error finish) rest).Tiled options origin before lexeme state text := by
  intro list found
  cases found

end Halt.Tiled

namespace State

theorem Amid.keeps {origin : Location} {before : List Char} {lexeme : Lexeme} {state : State}
    (amid : state.Amid origin before lexeme) {options : Options} {ended : Bool}
    {text : List Char} {move : Move} (step : state.move options ended text = move)
    (decided : move ≠ .wait) (sound : ∀ width error finish, move ≠ .reject width error finish) :
    move.Keeps state.checking state.location lexeme text := by
  subst step
  rcases state.move_keeps options ended text amid.here amid.holds with keeps | faulty
  · exact keeps
  · rcases move_of_atFault options ended faulty with waits | ⟨width, error, finish, rejects⟩
    · exact absurd waits decided
    · exact absurd rejects (sound width error finish)

/-- A run tiles the text that it reads. -/
theorem run_tiled (options : Options) (extent : Extent) (ended : Bool) (origin : Location)
    (state : State) (text : List Char) :
    ∀ before lexeme, state.Amid origin before lexeme →
      (state.run options extent ended text).Tiled options origin before lexeme state text := by
  fun_induction State.run options extent ended state text with
  | case1 state text step => exact fun _ _ _ => trivial
  | case2 state text step =>
    intro before lexeme amid
    exact .here (amid.keeps step (by simp) (by simp)) text
  | case3 state text width next step ih =>
    intro before lexeme amid
    rcases amid.keeps step (by simp) (by simp) with held | ⟨rfl, gap | foreign⟩
    · exact (ih _ _ (amid.read held)).read
    · exact (ih _ _ (amid.renew rfl)).skip gap
    · have fails : (state.read text width .between).move options ended (text.drop width) = _ :=
        Between.move_of_foreign options state.checking _ ended foreign
      rw [run_eq, fails]
      exact .failed _ _ _
  | case4 state text width kind emitted next step state' stops =>
    intro before lexeme amid
    obtain ⟨rfl, holds⟩ := amid.keeps step (by simp) (by simp)
    exact .emit amid.start (.here rfl (text.drop width))
  | case5 state text width kind emitted next step state' goes_on ih =>
    intro before lexeme amid
    obtain ⟨rfl, holds⟩ := amid.keeps step (by simp) (by simp)
    exact .emit amid.start (ih _ _ (amid.emit options kind holds))
  | case6 state text width error step => exact fun _ _ _ => .failed _ _ _
  | case7 state text width error finish step => exact fun _ _ _ => .failed _ _ _

/-- A run that goes to the end of the text and finds no error leaves nothing of it. -/
theorem run_text_rest (options : Options) (ended : Bool) (state : State) (text : List Char)
    {outcome : Outcome} {rest : List Char} {list : List Token}
    (stops : state.run options .text ended text = .stopped outcome rest)
    (found : outcome.tokens? = some list) : rest = [] := by
  fun_induction State.run options .text ended state text with
  | case1 state text step => cases stops
  | case2 state text step =>
    obtain ⟨rfl, rfl⟩ := Halt.stopped.inj stops
    exact (fits_of_move step).1
  | case3 state text width next step ih => exact ih stops
  | case4 state text width kind emitted next step state' stops_here => cases stops_here.2
  | case5 state text width kind emitted next step state' goes_on ih => exact ih stops
  | case6 state text width error step =>
    obtain ⟨rfl, rfl⟩ := Halt.stopped.inj stops
    cases found
  | case7 state text width error finish step =>
    obtain ⟨rfl, rfl⟩ := Halt.stopped.inj stops
    cases found

end State

/-! ## Complete texts -/

theorem scanEnded_stops (options : Options) (extent : Extent) (location : Location)
    (text : List Char) :
    (State.fresh location).run options extent true text =
      .stopped (scanEnded options extent location text).1
        (scanEnded options extent location text).2 := by
  obtain ⟨outcome, rest, stops⟩ := (State.fresh location).run_ended options extent text
  simp only [scanEnded, stops, Halt.settle]

/-- A scan that starts behind `before` and finds no error has tiled what it has read. -/
theorem scanEnded_tiled (options : Options) (extent : Extent) (origin : Location)
    (before text : List Char) {list : List Token}
    (found : (scanEnded options extent (origin.walk before) text).1.tokens? = some list) :
    ∃ read tokens, text = read ++ (scanEnded options extent (origin.walk before) text).2 ∧
      list = tokens.map (Token.kept options) ∧
      (scanEnded options extent (origin.walk before) text).1.finish =
        origin.walk (before ++ read) ∧
      Tiles origin false before tokens read := by
  have tiled := State.run_tiled options extent true origin (.fresh (origin.walk before)) text
    before _ (State.amid_fresh origin before)
  rw [scanEnded_stops] at tiled
  obtain ⟨read, tokens, split, listed, finish, tiles⟩ := tiled list found
  refine ⟨read, tokens, split, listed, ?_, tiles⟩
  rw [finish, Location.walk_append]
  rfl

theorem tokens?_of_scanText {options : Options} {origin : Location} {text : List Char}
    {tokens : Array Token} {finish : Location}
    (scanned : scanText options origin text = .ok (tokens, finish)) :
    (scanEnded options .text origin text).1.tokens? = some tokens.toList ∧
      (scanEnded options .text origin text).1.finish = finish := by
  unfold scanText at scanned
  split at scanned
  · rename_i list at_end outcome
    obtain ⟨rfl, rfl⟩ := Prod.mk.inj (Except.ok.inj scanned)
    rw [outcome]
    exact ⟨rfl, rfl⟩
  · rename_i at_end outcome
    obtain ⟨rfl, rfl⟩ := Prod.mk.inj (Except.ok.inj scanned)
    rw [outcome]
    exact ⟨rfl, rfl⟩
  · cases scanned

/-- **The tokens tile the text.** Nothing of a text that is scanned without an error is
lost: the source texts of its tokens, with blanks and comments between them, are the text.
Every token is where its source text starts, and the scan ends where the text ends. -/
theorem scanText_tiles {options : Options} (captures : options.captureText = true)
    {origin : Location} {text : List Char} {tokens : Array Token} {finish : Location}
    (scanned : scanText options origin text = .ok (tokens, finish)) :
    Tiles origin false [] tokens.toList text ∧ finish = origin.position text := by
  obtain ⟨found, finishes⟩ := tokens?_of_scanText scanned
  obtain ⟨read, tiled, split, listed, at_end, tiles⟩ :=
    scanEnded_tiled options .text origin [] text found
  have whole : (scanEnded options .text origin text).2 = [] :=
    State.run_text_rest options true (.fresh origin) text (scanEnded_stops _ _ _ _) found
  have all : text = read := by
    rw [split]
    exact (congrArg (read ++ ·) whole).trans (List.append_nil read)
  subst all
  rw [map_kept captures] at listed
  rw [listed]
  exact ⟨tiles, finishes.symm.trans (at_end.trans (origin.walk_eq_position text))⟩

/-- A check annotation with a string of two lines, and a comment behind it. -/
theorem annotation_tiles :
    Tiles ⟨7, some 3⟩ false []
        [⟨.checkOpen, ⟨7, some 3⟩, some "%ssa%"⟩, ⟨.string "a\n", ⟨7, some 9⟩, some "\"a\n\""⟩,
          ⟨.checkClose, ⟨8, some 2⟩, some ". "⟩]
        "%ssa% \"a\n\". % b".toList ∧
      ⟨8, some 7⟩ = Location.position ⟨7, some 3⟩ "%ssa% \"a\n\". % b".toList := by
  have scanned : scanText ⟨default, true, true⟩ ⟨7, some 3⟩ "%ssa% \"a\n\". % b".toList =
      .ok (#[⟨.checkOpen, ⟨7, some 3⟩, some "%ssa%"⟩,
        ⟨.string "a\n", ⟨7, some 9⟩, some "\"a\n\""⟩, ⟨.checkClose, ⟨8, some 2⟩, some ". "⟩],
        ⟨8, some 7⟩) := by decide +kernel
  exact scanText_tiles rfl scanned

end ErlangLexer
