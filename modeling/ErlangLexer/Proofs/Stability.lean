import ErlangLexer.Scan
import Mathlib.Data.List.Find

/-!
# Stable moves

A scan that does not wait has seen enough: the move it makes in front of a text is the
move it makes however that text goes on.

* `isPrefixOf_append_of_not_breaksOff`: a text that does not break off within a word
  starts with it or never will;
* `Escape.read_append`: an escape that is complete, or hopeless, stays so;
* `State.move_stable`: the same for every move in every mode.
-/

namespace ErlangLexer

/-! ## The front of a longer text -/

theorem runLength_append {c : Char} {text : List Char} (more : List Char)
    (ends : isRun c text = false) : runLength c (text ++ more) = runLength c text := by
  induction text with
  | nil => simp [isRun] at ends
  | cons d text ih =>
    by_cases same : d = c
    · subst same
      have := ih (by simpa [isRun] using ends)
      simp only [runLength] at this ⊢
      simp [this]
    · simp [runLength, same]

theorem isRun_append {c : Char} {text : List Char} (more : List Char)
    (ends : isRun c text = false) : isRun c (text ++ more) = false := by
  simp only [isRun, List.all_append, Bool.and_eq_false_iff] at ends ⊢
  exact .inl ends

/-- The longer text starts with the word only if the shorter one does. -/
theorem isPrefixOf_append_of_not_breaksOff {text word : List Char} (more : List Char)
    (whole : breaksOffWithin text word = false) :
    word.isPrefixOf (text ++ more) = word.isPrefixOf text := by
  rw [Bool.eq_iff_iff, List.isPrefixOf_iff_prefix, List.isPrefixOf_iff_prefix]
  constructor
  · intro longer
    rcases List.prefix_or_prefix_of_prefix longer (List.prefix_append text more) with h | h
    · exact h
    · have same : text = word := by simpa [breaksOffWithin, h] using whole
      exact same ▸ List.prefix_refl _
  · exact fun h => h.trans (List.prefix_append text more)

theorem breaksOffWithin_append {text word : List Char} (more : List Char)
    (whole : breaksOffWithin text word = false) :
    breaksOffWithin (text ++ more) word = false := by
  rw [Bool.eq_false_iff]
  intro broken
  simp only [breaksOffWithin, Bool.and_eq_true, List.isPrefixOf_iff_prefix, bne_iff_ne]
    at broken
  have start : text <+: word := (List.prefix_append text more).trans broken.1
  have same : text = word := by simpa [breaksOffWithin, start] using whole
  subst same
  exact broken.2 (broken.1.eq_of_length_le (by simp))

namespace Lexeme

theorem front_append (start : Location) {text : List Char} (more : List Char) {width : Nat}
    (short : width ≤ text.length) : front start (text ++ more) width = front start text width := by
  simp [front, List.take_append_of_le_length short]

theorem extend_append (lexeme : Lexeme) {text : List Char} (more : List Char) {width : Nat}
    (short : width ≤ text.length) :
    lexeme.extend (text ++ more) width = lexeme.extend text width := by
  simp [extend, List.take_append_of_le_length short]

end Lexeme

/-! ## Escapes -/

theorem takeWhile_append_of_stops {p : Char → Bool} {text : List Char} (more : List Char)
    (stops : text.drop (text.takeWhile p).length ≠ []) :
    (text ++ more).takeWhile p = text.takeWhile p := by
  rw [ne_eq, List.drop_eq_nil_iff] at stops
  rw [List.takeWhile_append, if_neg (by omega)]

namespace Escape

/-- The octal digits at the front are all there are, or three. -/
def OctalEnds (text : List Char) : Prop :=
  ((text.take 3).takeWhile isOctal).length = 3 ∨
    ((text.take 3).takeWhile isOctal).length < text.length

theorem octalEnds_of_complete {text : List Char} (complete : readOctal text false ≠ .incomplete) :
    OctalEnds text := by
  have short : ((text.take 3).takeWhile isOctal).length ≤ (text.take 3).length :=
    (List.takeWhile_sublist _).length_le
  rw [List.length_take] at short
  by_cases full : ((text.take 3).takeWhile isOctal).length = 3
  · exact .inl full
  · have few : ((text.take 3).takeWhile isOctal).length < 3 := by omega
    have rest : text.drop ((text.take 3).takeWhile isOctal).length ≠ [] := by
      intro none
      apply complete
      simp only [readOctal, none, few, List.isEmpty_nil, decide_true, Bool.and_self,
        Bool.not_false, ↓reduceIte]
    rw [ne_eq, List.drop_eq_nil_iff] at rest
    exact .inr (by omega)

theorem readOctal_eq_ofCode {text : List Char} (ended : Bool) (ends : OctalEnds text) :
    readOctal text ended = ofCode (digitsValue 8 ((text.take 3).takeWhile isOctal))
      ((text.take 3).takeWhile isOctal).length := by
  unfold readOctal
  dsimp only
  rw [if_neg]
  simp only [Bool.and_eq_true, decide_eq_true_eq, List.isEmpty_iff, List.drop_eq_nil_iff]
  unfold OctalEnds at ends
  omega

theorem octal_append {text : List Char} (more : List Char) (ends : OctalEnds text) :
    ((text ++ more).take 3).takeWhile isOctal = (text.take 3).takeWhile isOctal := by
  rw [List.take_append, List.takeWhile_append, List.length_take]
  split
  · have none : 3 - text.length = 0 := by unfold OctalEnds at ends; omega
    have all : (text.take 3).takeWhile isOctal = text.take 3 :=
      (List.takeWhile_prefix _).eq_of_length_le (by rw [List.length_take]; omega)
    simp [none, all]
  · rfl

theorem readOctal_append {text : List Char} (more : List Char) (ended : Bool)
    (complete : readOctal text false ≠ .incomplete) :
    readOctal (text ++ more) ended = readOctal text false := by
  have ends := octalEnds_of_complete complete
  have later : OctalEnds (text ++ more) := by
    unfold OctalEnds at ends ⊢
    rw [octal_append more ends, List.length_append]
    omega
  rw [readOctal_eq_ofCode false ends, readOctal_eq_ofCode ended later, octal_append more ends]

theorem readBraced_append {text : List Char} (more : List Char)
    (complete : readBraced text ≠ .incomplete) :
    readBraced (text ++ more) = readBraced text := by
  unfold readBraced at complete ⊢
  dsimp only at complete ⊢
  cases rest : text.drop (text.takeWhile fun c => (digitValue? 16 c).isSome).length with
  | nil => simp [rest] at complete
  | cons c behind =>
    have stops := takeWhile_append_of_stops more (rest ▸ List.cons_ne_nil c behind)
    have short : (text.takeWhile fun c => (digitValue? 16 c).isSome).length ≤ text.length :=
      (List.takeWhile_sublist _).length_le
    rw [stops, List.drop_append_of_le_length short, rest]
    rfl

theorem readHex_append {text : List Char} (more : List Char)
    (complete : readHex text ≠ .incomplete) : readHex (text ++ more) = readHex text := by
  cases text with
  | nil => simp [readHex] at complete
  | cons c text =>
    by_cases brace : c = '\x7b'
    · subst brace
      exact readBraced_append more complete
    · simp only [List.cons_append, readHex] at complete ⊢
      cases high : digitValue? 16 c with
      | none => rfl
      | some value =>
        cases text with
        | nil => simp [high] at complete
        | cons d text => rfl

/-- An escape that does not wait for more text is the same whatever comes. -/
theorem read_append {text : List Char} (more : List Char) (ended : Bool)
    (complete : read text false ≠ .incomplete) :
    read (text ++ more) ended = read text false := by
  cases text with
  | nil => simp [read] at complete
  | cons c rest =>
    simp only [List.cons_append, read] at complete ⊢
    by_cases octal : isOctal c = true
    · simp only [octal, ↓reduceIte] at complete ⊢
      exact readOctal_append more ended complete
    · simp only [octal, Bool.false_eq_true, ↓reduceIte] at complete ⊢
      by_cases hex : c = 'x'
      · simp only [hex, ↓reduceIte] at complete ⊢
        exact readHex_append more complete
      · simp only [hex, ↓reduceIte] at complete ⊢
        cases rest with
        | nil => by_cases caret : c = '^' <;> simp_all
        | cons d rest => rfl

end Escape

/-! ## Moves -/

/-- A move made early is made late as well, unless it was to wait. -/
def Move.Settles (early late : Move) : Prop :=
  early ≠ .wait → late = early

theorem Move.Settles.refl (move : Move) : move.Settles move :=
  fun _ => rfl

theorem Move.Settles.ite {p : Prop} [Decidable p] {a b a' b' : Move}
    (yes : p → a.Settles a') (no : ¬p → b.Settles b') :
    (if p then a else b).Settles (if p then a' else b') := by
  split
  · exact yes ‹_›
  · exact no ‹_›

/-- What is decided while more text may come is decided for good. -/
def Stable (decide : List Char → Bool → Move) : Prop :=
  ∀ (text more : List Char) (ended : Bool),
    (decide text false).Settles (decide (text ++ more) ended)

theorem Comment.move_stable : Stable Comment.move := by
  intro text more ended decided
  cases text with
  | nil => simp [move] at decided
  | cons c text => rfl

theorem Comment.openMove_stable (options : Options) (checking : Bool) (here : Location) :
    Stable (openMove options checking here) := by
  intro text more ended decided
  cases checks : options.checkComments with
  | false => simp [openMove, checks]
  | true =>
    by_cases marked : marker.isPrefixOf text = true
    · have long : 5 ≤ text.length := (List.isPrefixOf_iff_prefix.mp marked).length_le
      have still : marker.isPrefixOf (text ++ more) = true :=
        List.isPrefixOf_iff_prefix.mpr
          ((List.isPrefixOf_iff_prefix.mp marked).trans (List.prefix_append text more))
      simp [openMove, checks, marked, still, Lexeme.front_append here more long]
    · have whole : breaksOffWithin text marker = false := by
        rw [Bool.eq_false_iff]
        intro broken
        simp [openMove, checks, marked, broken] at decided
      simp [openMove, checks, isPrefixOf_append_of_not_breaksOff more whole, marked, whole,
        breaksOffWithin_append more whole]

theorem NameDraft.move_stable (options : Options) (draft : NameDraft) :
    Stable (draft.move options) := by
  intro text more ended decided
  cases text with
  | nil => simp [move] at decided
  | cons c text => rfl

theorem AfterString.move_stable (here : Location) : Stable (AfterString.move here) := by
  intro text more ended decided
  cases text with
  | nil => simp [move] at decided
  | cons c text => rfl

theorem CharLiteral.move_stable (here : Location) : Stable (CharLiteral.move here) := by
  intro rest more ended decided
  cases rest with
  | nil => simp [move] at decided
  | cons c behind =>
    by_cases escape : c = '\\'
    · subst escape
      have complete : Escape.read behind false ≠ .incomplete := by
        intro waiting
        simp [move, waiting] at decided
      have within := Escape.read_within behind false
      have front (width : Nat) (short : width ≤ behind.length) :
          Lexeme.front here ('$' :: '\\' :: behind ++ more) (2 + width) =
            Lexeme.front here ('$' :: '\\' :: behind) (2 + width) :=
        Lexeme.front_append here more (by simp only [List.length_cons]; omega)
      simp only [List.cons_append, move, ↓reduceIte, Escape.read_append more ended complete]
      cases read : Escape.read behind false with
      | char value width =>
        rw [read] at within
        simp only [← List.cons_append, front width within.2]
      | lineBreak =>
        rw [read] at within
        have := front 1 (List.length_pos_iff.mpr within)
        simp only [← List.cons_append, this]
      | incomplete => exact absurd read complete
      | malformed width => rfl
    · simp [move, escape, Lexeme.front, List.take]

namespace QuotedDraft

theorem readValue_append (draft : QuotedDraft) {text : List Char} (more : List Char)
    {width : Nat} (value : Char) (short : width ≤ text.length) :
    draft.readValue (text ++ more) width value = draft.readValue text width value := by
  rw [readValue, readValue, Lexeme.extend_append draft.lexeme more short]

theorem escape_append (draft : QuotedDraft) (here : Location) (c : Char) (rest more : List Char)
    (ended : Bool) :
    (draft.escape here (c :: rest) rest false).Settles
      (draft.escape here (c :: rest ++ more) (rest ++ more) ended) := by
  intro decided
  have complete : Escape.read rest false ≠ .incomplete := by
    intro waiting
    simp [escape, waiting] at decided
  have within := Escape.read_within rest false
  simp only [escape, Escape.read_append more ended complete]
  cases read : Escape.read rest false with
  | char value width =>
    rw [read] at within
    have short : 1 + width ≤ (c :: rest).length := by
      have := within.2
      simp only [List.length_cons]
      omega
    exact draft.readValue_append more value short
  | lineBreak =>
    rw [read] at within
    have := List.length_pos_iff.mpr within
    exact draft.readValue_append more '\n' (by simp only [List.length_cons]; omega)
  | incomplete => exact absurd read complete
  | malformed width => rfl

theorem move_stable (draft : QuotedDraft) (here : Location) : Stable (draft.move here) := by
  intro text more ended
  cases text with
  | nil => exact fun decided => absurd rfl decided
  | cons c rest =>
    exact .ite (fun _ => .refl _) fun _ =>
      .ite (fun _ => draft.escape_append here c rest more ended) fun _ => .refl _

end QuotedDraft

namespace NumberDraft

theorem readTo_append (draft : NumberDraft) {text : List Char} (more : List Char) {width : Nat}
    (part : NumberPart) (short : width ≤ text.length) :
    draft.readTo (text ++ more) width part = draft.readTo text width part := by
  rw [readTo, readTo, Lexeme.extend_append draft.lexeme more short]

theorem underscores_append (draft : NumberDraft) (c : Char) (rest more : List Char)
    (ended : Bool) :
    (draft.underscores (c :: rest) false).Settles
      (draft.underscores (c :: rest ++ more) ended) := by
  intro decided
  cases rest with
  | nil => simp [underscores] at decided
  | cons d rest =>
    have two : 2 ≤ (c :: d :: rest).length := by simp
    simp only [List.cons_append, underscores] at decided ⊢
    cases digit : draft.part.digit? d with
    | some part => exact draft.readTo_append more part two
    | none =>
      have ends : isRun '_' (c :: d :: rest) = false := by
        rw [Bool.eq_false_iff]
        intro run
        simp [digit, run] at decided
      have later := isRun_append more ends
      have length := runLength_append more ends
      simp only [List.cons_append] at later length
      simp [ends, later, length]

theorem point_append (draft : NumberDraft) (value : Nat) (c : Char) (rest more : List Char)
    (ended : Bool) :
    (draft.point value (c :: rest) false).Settles
      (draft.point value (c :: rest ++ more) ended) := by
  intro decided
  cases rest with
  | nil => simp [point] at decided
  | cons d rest =>
    have two : 2 ≤ (c :: d :: rest).length := by simp
    simp only [List.cons_append, point, List.drop_succ_cons, List.drop_zero]
    cases (NumberPart.fraction value 0).digit? d with
    | some part => exact draft.readTo_append more part two
    | none => rfl

theorem mark_append (draft : NumberDraft) (c : Char) (rest more : List Char) (ended : Bool) :
    (draft.mark c (c :: rest) false).Settles (draft.mark c (c :: rest ++ more) ended) := by
  unfold mark
  cases draft.part with
  | whole value =>
    exact .ite (fun _ => draft.point_append value c rest more ended) fun _ => .refl _
  | based | fraction | sign | exponent => exact .refl _

theorem move_stable (draft : NumberDraft) : Stable draft.move := by
  intro text more ended
  cases text with
  | nil => exact fun decided => absurd rfl decided
  | cons c rest =>
    have one : 1 ≤ (c :: rest).length := by simp
    simp only [List.cons_append, move]
    cases draft.part.digit? c with
    | some part => exact fun _ => draft.readTo_append more part one
    | none =>
      exact .ite (fun _ => draft.underscores_append c rest more ended)
        fun _ => draft.mark_append c rest more ended

end NumberDraft

/-! ## Moves on punctuation and quotes -/

theorem Operator.longest?_append {text : List Char} (more : List Char)
    (whole : mayGrow text = false) : longest? (text ++ more) = longest? text := by
  rw [mayGrow, List.any_eq_false] at whole
  apply List.find?_congr
  intro op listed
  exact isPrefixOf_append_of_not_breaksOff more (by simpa using whole op listed)

theorem Operator.mayGrow_append {text : List Char} (more : List Char)
    (whole : mayGrow text = false) : mayGrow (text ++ more) = false := by
  rw [mayGrow, List.any_eq_false] at whole ⊢
  intro op listed
  simpa using breaksOffWithin_append more (by simpa using whole op listed)

namespace Punctuation

theorem rest_ne_nil_of_dot {c : Char} {rest : List Char}
    (whole : Operator.mayGrow (c :: rest) = false)
    (found : Operator.longest? (c :: rest) = some .dot) : rest ≠ [] := by
  rintro rfl
  have fits := List.find?_some found
  have dot : '.' = c := by simpa [Operator.spelling] using fits
  subst dot
  exact absurd whole (by decide)

theorem move_stable (checking : Bool) (here : Location) (c : Char) :
    Stable (move checking here c) := by
  intro rest more ended decided
  have whole : Operator.mayGrow (c :: rest) = false := by
    rw [Bool.eq_false_iff]
    intro grows
    simp [move, grows] at decided
  have later := Operator.mayGrow_append more whole
  have same := Operator.longest?_append more whole
  simp only [List.cons_append] at later same
  simp only [move, whole, later, same]
  cases found : Operator.longest? (c :: rest) with
  | none => simp [Lexeme.front]
  | some op =>
    have short := op.length_le_of_longest? found
    have front := Lexeme.front_append here more short
    by_cases dot : op = .dot
    · subst dot
      cases rest with
      | nil => exact absurd rfl (rest_ne_nil_of_dot whole found)
      | cons d rest =>
        have terminator : Lexeme.front here (c :: d :: rest ++ more) (terminatorWidth (d :: rest)) =
            Lexeme.front here (c :: d :: rest) (terminatorWidth (d :: rest)) :=
          Lexeme.front_append here more (terminatorWidth_le (d :: rest))
        simp only [List.cons_append, endsForm, terminatorWidth] at terminator front ⊢
        simp [terminator, front]
    · simp only [List.cons_append] at front
      simp [dot, front]

end Punctuation

namespace TripleQuotedDraft

theorem quoteRun_append (draft : TripleQuotedDraft) (here : Location) (text more : List Char)
    (ended : Bool) :
    (draft.quoteRun here text false).Settles (draft.quoteRun here (text ++ more) ended) := by
  intro decided
  have ends : isRun '"' text = false := by
    rw [Bool.eq_false_iff]
    intro run
    simp [quoteRun, run] at decided
  have short := runLength_le '"' text
  simp only [quoteRun, ends, isRun_append more ends, runLength_append more ends, Bool.and_false,
    Bool.false_eq_true, ↓reduceIte]
  split
  · rename_i closes
    rw [closes] at short
    simp only [complete, List.take_append_of_le_length short,
      Lexeme.extend_append draft.lexeme more short]
  · rw [pushFront, List.take_append_of_le_length short]
    rfl

theorem move_stable (draft : TripleQuotedDraft) (here : Location) : Stable (draft.move here) := by
  intro text more ended
  cases text with
  | nil => exact fun decided => absurd rfl decided
  | cons c rest =>
    exact .ite (fun _ => .refl _) fun _ =>
      .ite (fun _ => draft.quoteRun_append here (c :: rest) more ended) fun _ => .refl _

end TripleQuotedDraft

theorem QuoteRun.move_stable (here : Location) (sigil : Option Sigil) :
    Stable (move here sigil) := by
  intro text more ended decided
  have ends : isRun '"' text = false := by
    rw [Bool.eq_false_iff]
    intro run
    simp [move, run] at decided
  have short := runLength_le '"' text
  simp only [move, ends, isRun_append more ends, runLength_append more ends, Bool.and_false,
    Bool.false_eq_true, ↓reduceIte]
  split
  · rename_i one
    simp only [QuotedDraft.openMove, Lexeme.front_append here more (one ▸ short)]
  · split
    · rename_i two
      rw [two] at short
      rw [Lexeme.front_append here more short, List.take_append_of_le_length short]
    · simp only [TripleQuotedDraft.openMove, Lexeme.front_append here more short]

theorem Sigil.move_stable (sigil : Sigil) (here : Location) : Stable (sigil.move here) := by
  intro text more ended
  cases text with
  | nil => exact fun decided => absurd rfl decided
  | cons c rest =>
    refine .ite (fun _ => QuoteRun.move_stable here (some sigil) (c :: rest) more ended) fun _ => ?_
    cases closing? c with
    | some close => exact fun _ => by simp [QuotedDraft.openMove, Lexeme.front]
    | none => exact .refl _

theorem Between.move_stable (options : Options) (checking : Bool) (here : Location) :
    Stable (move options checking here) := by
  intro text more ended
  cases text with
  | nil => exact fun decided => absurd rfl decided
  | cons c rest =>
    refine .ite (fun _ => .refl _) fun _ => ?_
    refine .ite (fun _ => .refl _) fun _ => ?_
    refine .ite (fun _ => .refl _) fun _ => ?_
    refine .ite (fun _ => .refl _) fun _ => ?_
    refine .ite (fun _ => QuoteRun.move_stable here none (c :: rest) more ended) fun _ => ?_
    refine .ite (fun _ _ => by simp [QuotedDraft.openMove, Lexeme.front]) fun _ => ?_
    refine .ite (fun _ => CharLiteral.move_stable here rest more ended) fun _ => ?_
    refine .ite (fun _ => .refl _) fun _ => ?_
    exact .ite (fun _ => Comment.openMove_stable options checking here (c :: rest) more ended)
      fun _ => Punctuation.move_stable checking here c rest more ended

/-- A move that does not wait is the same however the text goes on. -/
theorem State.move_stable (options : Options) (state : State) :
    Stable fun text ended => state.move options ended text := by
  intro text more ended
  unfold move
  cases state.mode with
  | between => exact Between.move_stable options state.checking state.location text more ended
  | comment => exact Comment.move_stable text more ended
  | name draft => exact draft.move_stable options text more ended
  | number draft => exact draft.move_stable text more ended
  | quoted draft => exact draft.move_stable state.location text more ended
  | afterString => exact AfterString.move_stable state.location text more ended
  | sigil sigil => exact sigil.move_stable state.location text more ended
  | tripleQuoted draft => exact draft.move_stable state.location text more ended

end ErlangLexer
