import ErlangLexer.Proofs.Readings
import ErlangLexer.Proofs.TripleQuotedText
import ErlangLexer.Proofs.Unterminated

/-!
# The quotes that close a triple-quoted string

A literal that three or more quotes open ends at the first run of exactly as many that has nothing
but blanks in front of it on its line, and that line is not the opening one:

* `OwnLine`, `Closes`: where such a run is, told from the text alone;
* `TripleQuotedDraft.mayClose_reading`: a literal may close where the text is on its own line;
* `State.run_inLiteral`: up to the first run that closes, a scan reads on within the literal;
* `State.Reached.seen`: with some of the text only, a scan waits or does what it does in all of it;
* `triple_quotes_close_exactly`: a scan reads to the closing quotes and no further, whatever the
  chunks, and where there are none it comes to the end of the source.
-/

namespace ErlangLexer

/-! ## Runs of quotes that close -/

/-- A line has ended and there is nothing but blanks behind it. -/
def OwnLine (front : List Char) : Prop :=
  ∃ above indent, front = above ++ '\n' :: indent ∧ ∀ c ∈ indent, isInlineBlank c = true

/-- Behind `front` the text goes on with a run of exactly so many quotes, alone on a line behind
the first one. -/
structure Closes (quotes : Nat) (text front behind : List Char) : Prop where
  split : text = front ++ (List.replicate quotes '"' ++ behind)
  maximal : behind.head? ≠ some '"'
  alone : OwnLine front

/-- The same for one character after the other. -/
def ownLine (front : List Char) : Bool :=
  front.foldl (fun own c => c == '\n' || own && isInlineBlank c) false

theorem ownLine_concat (front : List Char) (c : Char) :
    ownLine (front ++ [c]) = (c == '\n' || ownLine front && isInlineBlank c) := by
  simp [ownLine]

theorem ownLine_iff (front : List Char) : ownLine front = true ↔ OwnLine front := by
  induction front using List.reverseRecOn with
  | nil => simp [ownLine, OwnLine]
  | append_singleton front c ih =>
    rw [ownLine_concat, Bool.or_eq_true, Bool.and_eq_true, beq_iff_eq, ih]
    constructor
    · rintro (rfl | ⟨⟨above, indent, rfl, blank⟩, blank_c⟩)
      · exact ⟨front, [], rfl, by simp⟩
      · refine ⟨above, indent ++ [c], by simp, ?_⟩
        rw [List.forall_mem_append]
        exact ⟨blank, List.forall_mem_singleton.mpr blank_c⟩
    · rintro ⟨above, indent, split, blank⟩
      rcases List.eq_nil_or_concat' indent with rfl | ⟨indent, d, rfl⟩
      · exact .inl (List.singleton_inj.mp (List.append_inj' split rfl).2)
      · rw [← List.cons_append, ← List.append_assoc] at split
        obtain ⟨rfl, same⟩ := List.append_inj' split rfl
        obtain rfl := List.singleton_inj.mp same
        rw [List.forall_mem_append, List.forall_mem_singleton] at blank
        exact .inr ⟨⟨above, indent, rfl, blank.1⟩, blank.2⟩

theorem OwnLine.ne_nil {front : List Char} (alone : OwnLine front) : front ≠ [] := by
  obtain ⟨above, indent, rfl, -⟩ := alone
  simp

theorem OwnLine.getLast?_ne_quote {front : List Char} (alone : OwnLine front) :
    front.getLast? ≠ some '"' := by
  obtain ⟨above, indent, rfl, blank⟩ := alone
  intro last
  rcases List.eq_nil_or_concat' indent with rfl | ⟨indent, c, rfl⟩
  · simp at last
  · rw [← List.cons_append, ← List.append_assoc, List.getLast?_concat] at last
    have blank_c := blank c (by simp)
    rw [Option.some.inj last] at blank_c
    exact absurd blank_c (by decide)

/-- A run of quotes within a piece ends there, if it does not go on behind the piece. -/
theorem runLength_le_of_parted {piece tail : List Char} (something : piece ≠ [])
    (parted : piece.getLast? = some '"' → tail.head? ≠ some '"') :
    runLength '"' (piece ++ tail) ≤ piece.length := by
  cases quotes : isRun '"' piece with
  | false =>
    rw [runLength_append tail quotes]
    exact runLength_le '"' piece
  | true =>
    have all : piece = List.replicate piece.length '"' := by
      rw [List.eq_replicate_iff]
      exact ⟨rfl, by simpa [isRun] using quotes⟩
    have last : piece.getLast? = some '"' := by
      rw [all, List.getLast?_replicate, if_neg (by simpa using something)]
    rw [all, State.runLength_quotes _ (parted last), ← all]

/-- Whether a run of quotes behind so many characters closes. -/
def closesAt (quotes : Nat) (text : List Char) (offset : Nat) : Bool :=
  ownLine (text.take offset) && runLength '"' (text.drop offset) == quotes

namespace Closes

variable {quotes : Nat} {text front behind : List Char}

theorem of_runLength {rest : List Char} (alone : OwnLine front)
    (exact_length : runLength '"' rest = quotes) :
    Closes quotes (front ++ rest) front (rest.drop quotes) := by
  subst exact_length
  refine ⟨?_, head?_drop_runLength '"' rest, alone⟩
  rw [← take_runLength, List.take_append_drop]

theorem closesAt (closes : Closes quotes text front behind) :
    closesAt quotes text front.length = true := by
  obtain ⟨rfl, maximal, alone⟩ := closes
  rw [ErlangLexer.closesAt, List.take_left, List.drop_left, (ownLine_iff front).mpr alone,
    State.runLength_quotes quotes maximal]
  simp

theorem of_append {whole tail : List Char} (closes : Closes quotes (whole ++ tail) front behind)
    (short : front.length < whole.length) (last : whole.getLast? ≠ some '"') (more : List Char) :
    ∃ left, Closes quotes (whole ++ more) front left := by
  obtain ⟨split, maximal, alone⟩ := closes
  obtain ⟨mid, rfl⟩ : front <+: whole :=
    List.prefix_of_prefix_length_le ⟨_, split.symm⟩ (List.prefix_append whole tail)
      (Nat.le_of_lt short)
  rw [List.append_assoc, List.append_cancel_left_eq] at split
  have something : mid ≠ [] := by
    rintro rfl
    simp at short
  rw [List.getLast?_append_of_ne_nil _ something] at last
  rcases List.append_eq_append_iff.mp split with ⟨others, quote, -⟩ | ⟨left, rfl, rfl⟩
  · have all : ∀ c ∈ mid, c = '"' := fun c listed =>
      List.eq_of_mem_replicate (quote ▸ List.mem_append_left others listed)
    exact absurd (List.getLast?_eq_some_getLast something ▸
      congrArg some (all _ (List.getLast_mem something))) last
  · refine ⟨left ++ more, by simp, ?_, alone⟩
    cases left with
    | nil =>
      rw [List.append_nil] at something last
      have positive : quotes ≠ 0 := fun none => something (by rw [none, List.replicate_zero])
      exact absurd (by rw [List.getLast?_replicate, if_neg positive]) last
    | cons c left => exact maximal

end Closes

/-! ## Literals being read -/

namespace TripleQuotedDraft

variable (start : Location) (sigil : Option Sigil) (quotes : Nat)

/-- A literal whose opening quotes are read, and so much of the text behind them. -/
def reading (front : List Char) : TripleQuotedDraft :=
  front.foldl push (.ofOpening start sigil quotes [])

theorem reading_append (front more : List Char) :
    reading start sigil quotes (front ++ more) =
      more.foldl push (reading start sigil quotes front) :=
  List.foldl_append

theorem quotes_reading (front : List Char) :
    (reading start sigil quotes front).quotes = quotes := by
  induction front using List.reverseRecOn with
  | nil => rfl
  | append_singleton front c ih =>
    rw [reading_append, List.foldl_cons, List.foldl_nil, quotes_push, ih]

theorem sigil_reading (front : List Char) : (reading start sigil quotes front).sigil = sigil := by
  induction front using List.reverseRecOn with
  | nil => rfl
  | append_singleton front c ih =>
    rw [reading_append, List.foldl_cons, List.foldl_nil, sigil_push, ih]

theorem lexeme_reading (front : List Char) :
    (reading start sigil quotes front).lexeme =
      ⟨start, String.ofList (List.replicate quotes '"' ++ front)⟩ := by
  induction front using List.reverseRecOn with
  | nil => rfl
  | append_singleton front c ih =>
    rw [reading_append, List.foldl_cons, List.foldl_nil, lexeme_push, ih, ofList_push,
      List.append_assoc]

theorem made_reading (front : List Char) : (reading start sigil quotes front).Made := by
  induction front using List.reverseRecOn with
  | nil => exact made_ofOpening start sigil quotes (by simp)
  | append_singleton front c ih =>
    rw [reading_append]
    exact made_push ih c

theorem begun_reading {quotes : Nat} (enough : 3 ≤ quotes) (front : List Char) :
    (Mode.tripleQuoted (reading start sigil quotes front)).Begun := by
  induction front using List.reverseRecOn with
  | nil => exact ⟨enough, by simp [reading, ofOpening]⟩
  | append_singleton front c ih =>
    rw [reading_append]
    exact begun_push ih c

theorem mayClose_push (draft : TripleQuotedDraft) (c : Char) :
    (draft.push c).mayClose = (c == '\n' || draft.mayClose && isInlineBlank c) := by
  obtain ⟨lexeme, quotes, sigil, opening, body⟩ := draft
  by_cases ends : c = '\n'
  · cases body <;> simp [push, mayClose, TripleQuotedBody.push, TripleQuotedBody.empty, ends]
  · cases body <;> simp [push, mayClose, TripleQuotedBody.push, ends]

/-- A literal may close where the text is on its own line. -/
theorem mayClose_reading (front : List Char) :
    (reading start sigil quotes front).mayClose = ownLine front := by
  induction front using List.reverseRecOn with
  | nil => rfl
  | append_singleton front c ih =>
    rw [reading_append, List.foldl_cons, List.foldl_nil, mayClose_push, ih, ownLine_concat]

theorem reading_cases (front : List Char) :
    reading start sigil quotes front = ofOpening start sigil quotes front ∨
      ∃ layout : Layout, layout.quotes = quotes ∧
        layout.source = List.replicate quotes '"' ++ front ∧
        reading start sigil quotes front = ofLayout start sigil layout := by
  induction front using List.reverseRecOn with
  | nil => exact .inl rfl
  | append_singleton front c ih =>
    rw [reading_append, List.foldl_cons, List.foldl_nil]
    rcases ih with opening | ⟨layout, rfl, source, same⟩
    · rw [opening]
      by_cases ends : c = '\n'
      · subst ends
        refine .inr ⟨⟨quotes, front, [], []⟩, rfl, ?_, push_lineBreak_ofOpening ..⟩
        simp [Layout.source]
      · exact .inl (push_ofOpening start sigil quotes front ends)
    · refine .inr ⟨layout.push c, ?_, ?_, ?_⟩
      · unfold Layout.push
        split <;> rfl
      · rw [layout.source_push, source, List.append_assoc]
      · rw [same, push_ofLayout]

end TripleQuotedDraft

namespace State

variable {options : Options} {extent : Extent} {state : State} {sigil : Option Sigil}
  {quotes : Nat}

/-- A string may open here: between tokens, or behind the name of a sigil. -/
def OpensString (state : State) : Option Sigil → Prop
  | none => state.mode = .between
  | some sigil => state.mode = .sigil sigil

theorem OpensString.move (opens : state.OpensString sigil) (ended : Bool) (text : List Char) :
    state.move options ended ('"' :: text) =
      QuoteRun.move state.location sigil ('"' :: text) ended := by
  cases sigil with
  | none =>
    have between : state.mode = .between := opens
    rw [State.move, between]
    rfl
  | some sigil =>
    have behind_sigil : state.mode = .sigil sigil := opens
    simp only [State.move, behind_sigil, Sigil.move, ↓reduceIte]

/-- Within a literal that starts where the state is, when so much is read of the text behind its
opening quotes. -/
def inLiteral (state : State) (sigil : Option Sigil) (quotes : Nat) (front : List Char) : State :=
  { state with
    location := state.location.walk (List.replicate quotes '"' ++ front)
    mode := .tripleQuoted (.reading state.location sigil quotes front) }

theorem read_inLiteral (front text : List Char) (width : Nat) :
    (state.inLiteral sigil quotes front).read text width
        (.tripleQuoted ((TripleQuotedDraft.reading state.location sigil quotes front).pushFront
          text width)) =
      state.inLiteral sigil quotes (front ++ text.take width) := by
  simp only [inLiteral, read, TripleQuotedDraft.pushFront, TripleQuotedDraft.reading_append,
    ← List.append_assoc, Location.walk_append]

theorem run_opens {text : List Char} (opens : state.OpensString sigil) (enough : 3 ≤ quotes)
    (maximal : text.head? ≠ some '"') :
    state.run options extent true (List.replicate quotes '"' ++ text) =
      (state.inLiteral sigil quotes []).run options extent true text := by
  have later : state.read (List.replicate quotes '"' ++ text) quotes
      (.tripleQuoted (.ofOpening state.location sigil quotes [])) =
        state.inLiteral sigil quotes [] := by
    simp [read, inLiteral, TripleQuotedDraft.reading]
  have behind : (List.replicate quotes '"' ++ text).drop quotes = text := by simp
  rw [run_eq, move_opening enough maximal (opens.move true)]
  simp only [later, behind]

theorem step_inLiteral (front : List Char) {c : Char} {piece : List Char} (tail : List Char)
    (text : isText c = true) (parted : (c :: piece).getLast? = some '"' → tail.head? ≠ some '"')
    (goes_on : ∀ behind, ¬Closes quotes (front ++ (c :: piece ++ tail)) front behind) :
    ∃ width, 0 < width ∧ width ≤ (c :: piece).length ∧
      (state.inLiteral sigil quotes front).run options extent true (c :: piece ++ tail) =
        (state.inLiteral sigil quotes (front ++ (c :: piece).take width)).run options extent true
          ((c :: piece).drop width ++ tail) := by
  have mode : (state.inLiteral sigil quotes front).mode =
      .tripleQuoted (.reading state.location sigil quotes front) := rfl
  have mayClose := TripleQuotedDraft.mayClose_reading state.location sigil quotes front
  have counted := TripleQuotedDraft.quotes_reading state.location sigil quotes front
  by_cases closing : c = '"' ∧ ownLine front = true
  · obtain ⟨rfl, own⟩ := closing
    have within := runLength_le_of_parted (List.cons_ne_nil '"' piece) parted
    have other : runLength '"' ('"' :: piece ++ tail) ≠ quotes := fun same =>
      goes_on _ (.of_runLength ((ownLine_iff front).mp own) same)
    refine ⟨runLength '"' ('"' :: piece ++ tail), runLength_pos '"' _, within, ?_⟩
    rw [List.cons_append, run_content_quotes mode (mayClose.trans own) (counted.symm ▸ other),
      read_inLiteral, ← List.cons_append, List.take_append_of_le_length within,
      List.drop_append_of_le_length within]
  · refine ⟨1, Nat.one_pos, by simp, ?_⟩
    have not_closing (quote : c = '"') :
        (TripleQuotedDraft.reading state.location sigil quotes front).mayClose = false := by
      rw [mayClose, Bool.eq_false_iff]
      exact fun own => closing ⟨quote, own⟩
    have later : (state.inLiteral sigil quotes front).read (c :: (piece ++ tail)) 1
        (.tripleQuoted ((TripleQuotedDraft.reading state.location sigil quotes front).push c)) =
          state.inLiteral sigil quotes (front ++ [c]) := read_inLiteral front _ 1
    rw [List.cons_append, run_content (piece ++ tail) mode text not_closing]
    exact congrArg (run options extent true · (piece ++ tail)) later

/-- Up to the first run of quotes that closes it, a literal is read on. -/
theorem run_inLiteral (front : List Char) {piece : List Char} (tail : List Char)
    (text : ∀ c ∈ piece, isText c = true)
    (parted : piece.getLast? = some '"' → tail.head? ≠ some '"')
    (later : ∀ other behind, Closes quotes (front ++ (piece ++ tail)) other behind →
      (front ++ piece).length ≤ other.length) :
    (state.inLiteral sigil quotes front).run options extent true (piece ++ tail) =
      (state.inLiteral sigil quotes (front ++ piece)).run options extent true tail := by
  generalize length : piece.length = n
  induction n using Nat.strongRecOn generalizing front piece with
  | ind n ih =>
    cases piece with
    | nil => rw [List.nil_append, List.append_nil]
    | cons c piece =>
      have goes_on (behind : List Char) :
          ¬Closes quotes (front ++ (c :: piece ++ tail)) front behind := by
        intro closes
        have too_early := later _ _ closes
        simp only [List.length_append, List.length_cons] at too_early
        omega
      obtain ⟨width, positive, within, step⟩ :=
        step_inLiteral front tail (text c List.mem_cons_self) parted goes_on
      have whole := List.take_append_drop width (c :: piece)
      have shorter : ((c :: piece).drop width).length < n := by
        rw [List.length_drop]
        omega
      rw [step, ih _ shorter, List.append_assoc, whole]
      · exact fun d listed => text d (List.mem_of_mem_drop listed)
      · intro last
        rw [List.getLast?_drop] at last
        split at last
        · cases last
        · exact parted last
      · rwa [List.append_assoc, ← List.append_assoc _ _ tail, whole, List.append_assoc, whole]
      · rfl

/-- How a scan goes on behind a literal that is read to its closing quotes: with its string, or
with the error that is found in it. -/
def pastLiteral (options : Options) (extent : Extent) (state : State) (sigil : Option Sigil)
    (literal behind : List Char) : Except (LexicalError × Location) String → Halt
  | .ok value =>
    (state.beyond options (.string value) literal
      (modeBehind (state.location.walk literal) sigil)).run options extent true behind
  | .error (error, finish) => .stopped (.error error finish) behind

theorem run_closes {front behind : List Char} (alone : OwnLine front) (positive : 0 < quotes)
    (maximal : behind.head? ≠ some '"') :
    ∃ result, (∀ error finish, result = .error (error, finish) →
        error.cause.isUnterminated = false) ∧
      ∀ extent, (state.inLiteral sigil quotes front).run options extent true
          (List.replicate quotes '"' ++ behind) =
        state.pastLiteral options extent sigil
          (List.replicate quotes '"' ++ (front ++ List.replicate quotes '"')) behind result := by
  have mayClose := TripleQuotedDraft.mayClose_reading state.location sigil quotes front
  rw [(ownLine_iff front).mpr alone] at mayClose
  rcases TripleQuotedDraft.reading_cases state.location sigil quotes front with
    opening | ⟨layout, rfl, source, same⟩
  · rw [opening] at mayClose
    cases mayClose
  · have made := TripleQuotedDraft.made_reading state.location sigil layout.quotes front
    rw [same] at mayClose made
    have blank : layout.indent.all isInlineBlank = true := mayClose
    have literal : List.replicate layout.quotes '"' ++
        (front ++ List.replicate layout.quotes '"') = layout.literal := by
      rw [Layout.literal, source, List.append_assoc]
    have here : state.inLiteral sigil layout.quotes front = state.within sigil layout := by
      rw [inLiteral, same, ← source, within]
    rw [here, literal]
    cases laid : layout.value (sigil.all (·.verbatim)) with
    | ok value =>
      refine ⟨.ok (String.ofList value), ?_, fun extent => run_closing blank positive laid maximal⟩
      intro error finish wrong
      cases wrong
    | error fault =>
      let place := state.location.walk (layout.source.take fault.offset)
      refine ⟨.error (⟨place, fault.cause⟩, place.shift fault.width), ?_,
        fun extent => run_fault made blank positive laid maximal⟩
      intro error finish found
      obtain ⟨rfl, -⟩ := Prod.mk.inj (Except.error.inj found)
      exact Layout.isUnterminated_fault laid

/-- The error of a literal that no quotes close. -/
def openEnd (state : State) (sigil : Option Sigil) (quotes : Nat) (text : List Char) :
    LexicalError :=
  let behind := behindLine (List.replicate quotes '"' ++ text)
  ⟨state.location, Sigil.unclosed (String.ofList (behind.take 16)) sigil⟩

theorem run_openEnd (enough : 3 ≤ quotes) (front : List Char) :
    (state.inLiteral sigil quotes front).run options extent true [] =
      .stopped (.error (state.openEnd sigil quotes front)
        (state.location.walk (List.replicate quotes '"' ++ front))) [] := by
  have content := TripleQuotedDraft.behindLine_source
    (TripleQuotedDraft.made_reading state.location sigil quotes front)
    (TripleQuotedDraft.begun_reading state.location sigil enough front)
  rw [TripleQuotedDraft.lexeme_reading, String.toList_ofList] at content
  have step : (state.inLiteral sigil quotes front).move options true [] =
      .fail 0 (state.openEnd sigil quotes front) := by
    rw [openEnd, content]
    refine (TripleQuotedDraft.unterminated_eq _).trans ?_
    rw [TripleQuotedDraft.lexeme_reading, TripleQuotedDraft.sigil_reading, errorHead_eq]
  rw [run_eq, step]
  rfl

/-! ## Whole literals -/

section Whole

variable {text front behind : List Char} (opens : state.OpensString sigil) (enough : 3 ≤ quotes)
  (maximal : text.head? ≠ some '"') (valid : ∀ c ∈ text, isText c = true)
include opens enough maximal valid

theorem run_to_quotes (closes : Closes quotes text front behind)
    (first : ∀ other left, Closes quotes text other left → front.length ≤ other.length) :
    state.run options extent true (List.replicate quotes '"' ++ text) =
      (state.inLiteral sigil quotes front).run options extent true
        (List.replicate quotes '"' ++ behind) := by
  obtain ⟨rfl, ends, alone⟩ := closes
  rw [run_opens opens enough maximal]
  exact run_inLiteral [] _ (fun c listed => valid c (List.mem_append_left _ listed))
    (fun last => absurd last alone.getLast?_ne_quote) first

theorem run_of_not_closes (never : ∀ front behind, ¬Closes quotes text front behind) :
    state.run options extent true (List.replicate quotes '"' ++ text) =
      .stopped (.error (state.openEnd sigil quotes text)
        (state.location.walk (List.replicate quotes '"' ++ text))) [] := by
  have reads : (state.inLiteral sigil quotes []).run options extent true (text ++ []) =
      (state.inLiteral sigil quotes text).run options extent true [] :=
    run_inLiteral [] [] valid (fun _ => nofun) fun other left closes =>
      absurd (List.append_nil text ▸ closes) (never other left)
  rw [List.append_nil] at reads
  rw [run_opens opens enough maximal, reads, run_openEnd enough]

theorem run_overlong (closes : Closes quotes text front behind)
    (first : ∀ other left, Closes quotes text other left → front.length ≤ other.length) :
    state.run options extent true
        (List.replicate quotes '"' ++ (front ++ List.replicate (quotes + 1) '"')) =
      .stopped (.error (state.openEnd sigil quotes (front ++ List.replicate (quotes + 1) '"'))
        (state.location.walk
          (List.replicate quotes '"' ++ (front ++ List.replicate (quotes + 1) '"')))) [] := by
  obtain ⟨rfl, ends, alone⟩ := closes
  have something : front ≠ [] := alone.ne_nil
  rw [List.head?_append_of_ne_nil _ something] at maximal
  have opening : (front ++ List.replicate (quotes + 1) '"').head? ≠ some '"' := by
    rwa [List.head?_append_of_ne_nil _ something]
  have later : ∀ other left,
      Closes quotes ([] ++ (front ++ List.replicate (quotes + 1) '"')) other left →
        ([] ++ front).length ≤ other.length := by
    intro other left (closes : Closes quotes (front ++ List.replicate (quotes + 1) '"') other left)
    by_contra early
    have short : other.length < front.length := Nat.lt_of_not_le early
    obtain ⟨left, early_close⟩ := closes.of_append short alone.getLast?_ne_quote
      (List.replicate quotes '"' ++ behind)
    exact early (first other left early_close)
  have length : runLength '"' ('"' :: List.replicate quotes '"') = quotes + 1 := by
    have nothing : ([] : List Char).head? ≠ some '"' := nofun
    have run := runLength_quotes (quotes + 1) nothing
    rwa [List.append_nil, List.replicate_succ] at run
  have mayClose := TripleQuotedDraft.mayClose_reading state.location sigil quotes front
  rw [(ownLine_iff front).mpr alone] at mayClose
  have overlong : runLength '"' ('"' :: List.replicate quotes '"') ≠
      (TripleQuotedDraft.reading state.location sigil quotes front).quotes := by
    rw [length, TripleQuotedDraft.quotes_reading]
    exact Nat.succ_ne_self quotes
  rw [run_opens opens enough opening,
    run_inLiteral [] _ (fun c listed => valid c (List.mem_append_left _ listed))
      (fun last => absurd last alone.getLast?_ne_quote) later,
    List.nil_append, List.replicate_succ, run_content_quotes rfl mayClose overlong, read_inLiteral,
    length, ← List.replicate_succ]
  simp only [List.take_replicate, List.drop_replicate, Nat.min_self, Nat.sub_self,
    List.replicate_zero]
  exact run_openEnd enough _

end Whole

end State

/-! ## Some of the text -/

namespace State

variable {options : Options} {extent : Extent} {ended : Bool} {origin : Location}
  {source rest text more : List Char} {state : State}

/-- A scan that is given the text is left suspended. -/
def Waits (options : Options) (extent : Extent) (state : State) (text : List Char) : Prop :=
  ∃ later left, state.run options extent false text = .suspended later left

theorem Waits.of_append (waits : state.Waits options extent (text ++ more)) :
    state.Waits options extent text := by
  obtain ⟨later, left, suspends⟩ := waits
  rw [run_append] at suspends
  cases halt : state.run options extent false text with
  | suspended later left => exact ⟨later, left, halt⟩
  | stopped outcome left =>
    rw [halt] at suspends
    cases suspends

/-- With some of the text only, a scan waits or its move is the same. -/
theorem Waits.or_moves {seen unseen : List Char} {move : Move}
    (step : state.move options ended (seen ++ unseen) = move) :
    state.Waits options extent seen ∨ state.move options false seen = move := by
  rcases move_seen step with waits | moves
  · refine .inl ⟨state, seen, ?_⟩
    rw [run_eq, waits]
  · exact .inr moves

theorem take_append_seen {width : Nat} {seen unseen : List Char}
    (split : rest.drop width = seen ++ unseen) : rest = (rest.take width ++ seen) ++ unseen := by
  rw [List.append_assoc, ← split, List.take_append_drop]

/-- A scan that is given some of the text only waits, or goes on from the states that it passes
when it is given all of it. -/
theorem Reached.seen (reached : Reached options extent ended origin source state rest)
    {seen unseen : List Char} (split : rest = seen ++ unseen) :
    ∃ before, source = before ++ rest ∧
      ((fresh origin).Waits options extent (before ++ seen) ∨
        (fresh origin).run options extent false (before ++ seen) =
          state.run options extent false seen) := by
  induction reached generalizing seen with
  | start => exact ⟨[], rfl, .inr rfl⟩
  | @read state rest width next earlier step ih =>
    have front := take_append_seen split
    have short := List.length_take_of_le (fits_of_move step).1
    obtain ⟨before, whole, known⟩ := ih front
    refine ⟨before ++ rest.take width, by rwa [List.append_assoc, List.take_append_drop], ?_⟩
    rw [List.append_assoc]
    refine known.elim .inl fun runs => ?_
    rw [front] at step
    rw [Waits, runs]
    refine (Waits.or_moves step).imp_right fun moves => ?_
    rw [State.run_eq, moves]
    simp only [State.read, List.take_left' short, List.drop_left' short]
  | @emit state rest width kind lexeme next earlier step goes_on ih =>
    have front := take_append_seen split
    have short := List.length_take_of_le (fits_of_move step).1
    obtain ⟨before, whole, known⟩ := ih front
    refine ⟨before ++ rest.take width, by rwa [List.append_assoc, List.take_append_drop], ?_⟩
    rw [List.append_assoc]
    refine known.elim .inl fun runs => ?_
    rw [front] at step
    rw [Waits, runs]
    refine (Waits.or_moves step).imp_right fun moves => ?_
    rw [State.run_eq, moves]
    simp only [if_neg goes_on, State.read, List.take_left' short, List.drop_left' short]

/-- Nothing but the end of the source shows that a literal is not closed. -/
theorem Waits.of_unterminated {error : LexicalError} {finish : Location} {left : List Char}
    (stops : (fresh origin).run options extent true (text ++ more) =
      .stopped (.error error finish) left)
    (unterminated : error.cause.isUnterminated = true) :
    (fresh origin).Waits options extent text := by
  rw [run_append] at stops
  cases halt : (fresh origin).run options extent false text with
  | suspended later rest => exact ⟨later, rest, halt⟩
  | stopped outcome rest =>
    rw [halt] at stops
    obtain ⟨rfl, -⟩ := Halt.stopped.inj stops
    obtain ⟨wrong, -⟩ := unterminated_of_stopped halt unterminated
    cases wrong

variable {sigil : Option Sigil} {quotes : Nat} {front behind : List Char}

/-- The quotes that close a literal may go on as long as nothing is behind them. -/
theorem Reached.waits_for_quotes
    (reached : Reached options extent true origin source state (List.replicate quotes '"' ++ text))
    (opens : state.OpensString sigil) (enough : 3 ≤ quotes) (maximal : text.head? ≠ some '"')
    (valid : ∀ c ∈ text, isText c = true) (closes : Closes quotes text front behind)
    (first : ∀ other left, Closes quotes text other left → front.length ≤ other.length)
    {seen unseen : List Char} (split : source = seen ++ unseen)
    (short : behind.length ≤ unseen.length) : (fresh origin).Waits options extent seen := by
  let literal := List.replicate quotes '"' ++ (front ++ List.replicate quotes '"')
  have text_split : List.replicate quotes '"' ++ text = literal ++ behind := by
    rw [closes.split]
    simp only [literal, List.append_assoc]
  have longer : literal ++ ['"'] =
      List.replicate quotes '"' ++ (front ++ List.replicate (quotes + 1) '"') := by
    simp only [literal, List.append_assoc, ← List.replicate_succ']
  obtain ⟨before, whole, known⟩ := reached.seen text_split
  have waits : (fresh origin).Waits options extent (before ++ literal) := by
    refine known.elim id fun runs => ?_
    rw [Waits, runs]
    have goes_on := state.run_append options extent true literal ['"']
    rw [longer, run_overlong opens enough maximal valid closes first] at goes_on
    cases halt : state.run options extent false literal with
    | suspended later left => exact ⟨later, left, rfl⟩
    | stopped outcome left =>
      rw [halt] at goes_on
      obtain ⟨-, nothing⟩ := Halt.stopped.inj goes_on
      simp at nothing
  rw [text_split, ← List.append_assoc] at whole
  obtain ⟨missing, whole_literal⟩ : seen <+: before ++ literal := by
    refine List.prefix_of_prefix_length_le ⟨unseen, split.symm⟩ ⟨behind, whole.symm⟩ ?_
    have lengths := congrArg List.length (split.symm.trans whole)
    simp only [List.length_append] at lengths ⊢
    omega
  exact Waits.of_append (whole_literal ▸ waits)

end State

/-! ## Chunks -/

namespace Suspension

/-- As long as so many characters of the source are still to come, a scan is left suspended by
every chunk. -/
def WaitsInFront (options : Options) (origin : Location) (source : List Char) (left : Nat) : Prop :=
  ∀ (fed chunk unseen : List Char) (scan : Suspension), Fed options origin fed scan →
    source = fed ++ (chunk ++ unseen) → left ≤ unseen.length →
      ∃ later, scan.resume (.chunk chunk) = .suspended later

theorem waitsInFront_of_waits {options : Options} {origin : Location} {source : List Char}
    {left : Nat} (waits : ∀ seen unseen, source = seen ++ unseen → left ≤ unseen.length →
      (State.fresh origin).Waits options .form seen) :
    WaitsInFront options origin source left := by
  intro fed chunk unseen scan given split short
  rw [← List.append_assoc] at split
  obtain ⟨later, rest, suspends⟩ := waits _ _ split short
  rw [given.run_eq] at suspends
  refine ⟨{ scan with state := later, pending := rest }, ?_⟩
  simp only [resume, Input.isEnd, Input.text, suspends]

/-- What is found behind a literal that is read to its closing quotes. -/
def foundPastLiteral (options : Options) (state : State) (sigil : Option Sigil)
    (literal behind : List Char) : Except (LexicalError × Location) String → List Outcome
  | .ok value =>
    goOn options (state.beyond options (.string value) literal
      (State.modeBehind (state.location.walk literal) sigil)) behind
  | .error (error, finish) => .error error finish :: (start options finish).found [behind]

theorem found_of_pastLiteral {scan : Suspension} {queue : List (List Char)} {state : State}
    {sigil : Option Sigil} {literal behind : List Char}
    {result : Except (LexicalError × Location) String}
    (ahead : scan.ahead queue =
      state.pastLiteral scan.options .form sigil literal behind result) :
    scan.found queue = foundPastLiteral scan.options state sigil literal behind result := by
  cases result with
  | ok value => exact found_of_run_state ahead
  | error wrong => exact found_of_stopped ahead rfl

end Suspension

/-- **The quotes that close a triple-quoted string are told exactly.** Where a scan comes to a run
of three quotes or more that opens a string, with or without a sigil, and nothing but text is
behind it, the first run of exactly as many quotes that is alone on a line behind the opening one
closes the literal. The scan reads on right behind that run, with the string as a token or with an
error that is found in it. So it is in whatever chunks the source comes, and as long as nothing
behind the run has come, every chunk leaves the scan suspended. If there is no such run, every
chunk does, and the end of the source shows that the literal is not closed. -/
theorem triple_quotes_close_exactly {options : Options} {extent : Extent} {origin : Location}
    {source text : List Char} {state : State} {sigil : Option Sigil} {quotes : Nat}
    (reached : State.Reached options extent true origin source state
      (List.replicate quotes '"' ++ text))
    (opens : state.OpensString sigil) (enough : 3 ≤ quotes) (maximal : text.head? ≠ some '"')
    (valid : ∀ c ∈ text, isText c = true) :
    (∀ front behind, Closes quotes text front behind →
      (∀ other left, Closes quotes text other left → front.length ≤ other.length) →
      let literal := List.replicate quotes '"' ++ (front ++ List.replicate quotes '"')
      ∃ result, (∀ error finish, result = .error (error, finish) →
          error.cause.isUnterminated = false) ∧
        (State.fresh origin).run options extent true source =
          state.pastLiteral options extent sigil literal behind result ∧
        (extent = .form →
          (∀ queue, queue.flatten = source →
            (Suspension.start options origin).found queue =
              Suspension.foundPastLiteral options state sigil literal behind result) ∧
          Suspension.WaitsInFront options origin source behind.length)) ∧
    ((∀ front behind, ¬Closes quotes text front behind) →
      let outcome := Outcome.error (state.openEnd sigil quotes text) (origin.walk source)
      (State.fresh origin).run options extent true source = .stopped outcome [] ∧
      (extent = .form →
        Suspension.WaitsInFront options origin source 0 ∧
        ∀ scan, Suspension.Fed options origin source scan →
          scan.resume .ended = .finished outcome none)) := by
  constructor
  · intro front behind closes first literal
    obtain ⟨result, sound, runs⟩ := State.run_closes closes.alone
      (show 0 < quotes by omega) closes.maximal
    have whole : (State.fresh origin).run options extent true source =
        state.pastLiteral options extent sigil literal behind result := by
      rw [reached.run_eq, State.run_to_quotes opens enough maximal valid closes first]
      exact runs extent
    refine ⟨result, sound, whole, ?_⟩
    rintro rfl
    refine ⟨?_, Suspension.waitsInFront_of_waits fun seen unseen split short =>
      reached.waits_for_quotes opens enough maximal valid closes first split short⟩
    rintro queue rfl
    exact Suspension.found_of_pastLiteral whole
  · intro never outcome
    have stops : (State.fresh origin).run options extent true source = .stopped outcome [] := by
      obtain ⟨before, rfl, located⟩ := reached.walked
      rw [reached.run_eq, State.run_of_not_closes opens enough maximal valid never, located,
        ← Location.walk_append]
    refine ⟨stops, ?_⟩
    rintro rfl
    refine ⟨Suspension.waitsInFront_of_waits ?_, ?_⟩
    · rintro seen unseen rfl -
      exact State.Waits.of_unterminated stops (by cases sigil <;> rfl)
    · intro scan given
      refine Suspension.finished_of_run_ended scan ?_
      have same := given.run_eq true []
      rw [List.append_nil, List.append_nil] at same
      exact same.symm.trans stops

/-- Four quotes, and three behind other text on their line, are content; the three quotes that
are alone on their line close, though a chunk ends within them. Where the last quotes are four,
the literal is not closed. -/
theorem triple_quotes_close_exactly_alone_on_line :
    (∃ result, (Suspension.start default .start).found
        ["\"\"".toList, "\"\n \"\"\"\"\n a\"\"\"\n \"\"".toList, "\" b".toList] =
      Suspension.foundPastLiteral default (.fresh .start) none
        "\"\"\"\n \"\"\"\"\n a\"\"\"\n \"\"\"".toList [' ', 'b'] result) ∧
    (State.fresh .start).run default .form true "\"\"\"a\n\"\"\"\"".toList =
      .stopped (.error ⟨.start, .unterminatedTripleQuoted "\"\"\"\""⟩ ⟨2, none⟩) [] := by
  constructor
  · let front := "\n \"\"\"\"\n a\"\"\"\n ".toList
    let text := front ++ "\"\"\" b".toList
    have reached : State.Reached default .form true .start (List.replicate 3 '"' ++ text)
        (.fresh .start) (List.replicate 3 '"' ++ text) := .start
    have opens : (State.fresh .start).OpensString none := rfl
    have closes : Closes 3 text front [' ', 'b'] :=
      ⟨by decide, by decide, (ownLine_iff front).mp (by decide)⟩
    have first : ∀ other left, Closes 3 text other left → front.length ≤ other.length := by
      intro other left closes
      by_contra early
      have nowhere : ∀ offset < front.length, ¬closesAt 3 text offset := by decide
      exact nowhere _ (Nat.lt_of_not_le early) closes.closesAt
    obtain ⟨result, -, -, chunks⟩ := (triple_quotes_close_exactly reached opens
      (Nat.le_refl 3) (by decide) (List.all_eq_true.mp rfl)).1 front _ closes first
    exact ⟨result, (chunks rfl).1 _ rfl⟩
  · let text := "a\n\"\"\"\"".toList
    have reached : State.Reached default .form true .start (List.replicate 3 '"' ++ text)
        (.fresh .start) (List.replicate 3 '"' ++ text) := .start
    have opens : (State.fresh .start).OpensString none := rfl
    have never : ∀ front behind, ¬Closes 3 text front behind := by
      intro front behind closes
      have nowhere : ∀ offset ≤ text.length, ¬closesAt 3 text offset := by decide
      refine nowhere front.length ?_ closes.closesAt
      rw [closes.split, List.length_append]
      exact Nat.le_add_right _ _
    exact ((triple_quotes_close_exactly reached opens (Nat.le_refl 3) (by decide)
      (List.all_eq_true.mp rfl)).2 never).1

end ErlangLexer
