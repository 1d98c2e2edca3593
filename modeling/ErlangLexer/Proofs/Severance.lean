import ErlangLexer.Proofs.Stability
import Mathlib.Data.List.TakeWhile

/-!
# Moves on a text that is cut off

A scan looks at more of a text than it reads: at the character that ends a run, a name or
an escape. Where the text ends instead, it makes the same move:

* `Move.SeenIn`: all that a move reads is in a text;
* `takeWhile_severed`: a run that is in the front of a text is the run of that front;
* `Escape.read_severed`: so is an escape;
* `State.move_severed`: and every move, but one on a dot, which would end a form there.
-/

namespace ErlangLexer

/-! ## The front of a text -/

theorem takeWhile_severed {p : Char → Bool} {text more : List Char}
    (short : ((text ++ more).takeWhile p).length ≤ text.length) :
    text.takeWhile p = (text ++ more).takeWhile p := by
  rw [List.takeWhile_append] at short ⊢
  split
  · rename_i all
    rw [if_pos all, List.length_append] at short
    have none : more.takeWhile p = [] := List.eq_nil_of_length_eq_zero (by omega)
    rw [none, List.append_nil]
    exact (List.takeWhile_prefix p).eq_of_length all
  · rfl

theorem runLength_severed {c : Char} {text more : List Char}
    (short : runLength c (text ++ more) ≤ text.length) :
    runLength c text = runLength c (text ++ more) :=
  congrArg List.length (takeWhile_severed short)

/-! ## Escapes -/

namespace Escape

/-- The escape is complete, and all of it is in the text. -/
def SeenIn (text : List Char) : Escape → Prop
  | .char _ width => width ≤ text.length
  | .lineBreak => text ≠ []
  | .incomplete | .malformed _ => False

theorem seenIn_ofCode {text : List Char} {code width : Nat}
    (seen : (ofCode code width).SeenIn text) : width ≤ text.length := by
  unfold ofCode at seen
  split at seen
  · exact seen
  · exact seen.elim

theorem readOctal_severed {text more : List Char}
    (seen : (readOctal (text ++ more) true).SeenIn text) :
    readOctal text true = readOctal (text ++ more) true := by
  have code (text : List Char) : readOctal text true =
      ofCode (digitsValue 8 ((text.take 3).takeWhile isOctal))
        ((text.take 3).takeWhile isOctal).length := by
    simp [readOctal]
  rw [code] at seen
  have short := seenIn_ofCode seen
  have few : (((text ++ more).take 3).takeWhile isOctal).length ≤ 3 :=
    (List.takeWhile_sublist _).length_le.trans (List.length_take_le _ _)
  have digits : (text.take 3).takeWhile isOctal = ((text ++ more).take 3).takeWhile isOctal := by
    rw [List.take_append] at short few ⊢
    exact takeWhile_severed (by rw [List.length_take]; omega)
  rw [code, code, digits]

/-- Digits that the closing brace is missing behind do not make an escape of their own. -/
theorem not_seenIn_of_braced {text : List Char} (more : List Char)
    (cut : readBraced text = .incomplete) :
    ¬(readBraced (text ++ more)).SeenIn ('x' :: '\x7b' :: text) := by
  have all : (text.takeWhile fun c => (digitValue? 16 c).isSome).length = text.length := by
    unfold readBraced at cut
    dsimp only at cut
    split at cut
    · rename_i none
      have short : (text.takeWhile fun c => (digitValue? 16 c).isSome).length ≤ text.length :=
        (List.takeWhile_sublist _).length_le
      have := List.drop_eq_nil_iff.mp none
      omega
    · unfold ofCode at cut
      repeat' split at cut
      all_goals cases cut
  have longer : text.length ≤
      ((text ++ more).takeWhile fun c => (digitValue? 16 c).isSome).length := by
    rw [List.takeWhile_append, if_pos all, List.length_append]
    omega
  intro seen
  unfold readBraced at seen
  dsimp only at seen
  split at seen
  · exact seen
  · split at seen
    · have short := seenIn_ofCode seen
      simp only [List.length_cons] at short
      omega
    · exact seen

theorem not_seenIn_of_hex {text : List Char} (more : List Char)
    (cut : readHex text = .incomplete) : ¬(readHex (text ++ more)).SeenIn ('x' :: text) := by
  intro seen
  cases text with
  | nil =>
    unfold readHex readBraced at seen
    dsimp only [List.nil_append] at seen
    repeat' split at seen
    all_goals first
      | exact seen
      | exact absurd (seenIn_ofCode seen) (by simp)
  | cons c rest =>
    by_cases brace : c = '\x7b'
    · subst brace
      exact not_seenIn_of_braced more cut seen
    · simp only [List.cons_append, readHex] at cut seen
      cases high : digitValue? 16 c with
      | none => simp [high] at cut
      | some value =>
        simp only [high] at cut seen
        cases rest with
        | nil =>
          cases more with
          | nil => exact seen
          | cons d more =>
            simp only [List.nil_append] at seen
            split at seen
            · exact seen
            · exact absurd (seenIn_ofCode seen) (by simp)
        | cons d rest =>
          cases low : digitValue? 16 d with
          | none => simp [low] at cut
          | some value =>
            simp only [low, ofCode] at cut
            split at cut <;> cases cut

/-- An escape that is in the front of a text is the escape of that front. -/
theorem read_severed {text more : List Char} (seen : (read (text ++ more) true).SeenIn text) :
    read text true = read (text ++ more) true := by
  by_cases cut : read text false = .incomplete
  · cases text with
    | nil =>
      have within := read_within more true
      rw [List.nil_append] at seen
      cases found : read more true with
      | char value width =>
        rw [found] at seen within
        exact absurd within.1 (Nat.not_lt.mpr seen)
      | _ =>
        rw [found] at seen
        first
          | exact absurd rfl seen
          | exact seen.elim
    | cons c rest =>
      simp only [List.cons_append, read] at cut seen ⊢
      by_cases octal : isOctal c = true
      · simp only [octal, ↓reduceIte] at seen ⊢
        exact readOctal_severed seen
      · simp only [octal, Bool.false_eq_true, ↓reduceIte] at cut seen ⊢
        by_cases hex : c = 'x'
        · subst hex
          exact absurd seen (not_seenIn_of_hex more cut)
        · simp only [hex, ↓reduceIte] at cut seen ⊢
          by_cases caret : c = '^'
          · simp only [caret, ↓reduceIte] at cut seen ⊢
            cases rest with
            | nil =>
              cases more with
              | nil => rfl
              | cons d more =>
                simp only [List.nil_append] at seen
                split at seen
                · exact absurd seen (by simp [SeenIn])
                · exact seen.elim
            | cons d rest => rfl
          · simp only [caret, ↓reduceIte]
  · have early := read_append [] true cut
    rw [List.append_nil] at early
    rw [early, read_append more true cut]

theorem char_severed {text more : List Char} {value : Char} {width : Nat}
    (found : read (text ++ more) true = .char value width) (short : width ≤ text.length) :
    read text true = .char value width := by
  have seen : (read (text ++ more) true).SeenIn text := by
    rw [found]
    exact short
  rw [read_severed seen, found]

theorem lineBreak_severed {text more : List Char}
    (found : read (text ++ more) true = .lineBreak) (short : 0 < text.length) :
    read text true = .lineBreak := by
  have seen : (read (text ++ more) true).SeenIn text := by
    rw [found]
    exact List.length_pos_iff.mp short
  rw [read_severed seen, found]

end Escape

/-! ## Moves -/

/-- The move goes on, and all that it reads is in the text. A single dot that ends no form
is left out: at the end of a text it would end one. -/
def Move.SeenIn (text : List Char) : Move → Prop
  | .read width _ => width ≤ text.length
  | .emit width kind _ _ => width ≤ text.length ∧ kind ≠ .operator .dot
  | _ => False

/-- Only a mode that may hand over to another makes a move that takes nothing. -/
theorem Move.Fits.rank_pos {text : List Char} {ended : Bool} {mode : Mode} {move : Move}
    (fits : move.Fits text ended mode) (seen : move.SeenIn []) : 0 < mode.rank := by
  cases move with
  | read width next =>
    have unread : width ≤ 0 := seen
    have less := fits.2
    omega
  | emit width kind lexeme next =>
    have unread : width ≤ 0 := seen.1
    have less := fits.2
    omega
  | _ => exact seen.elim

/-- A move that is in the front of a text is the move on that front. -/
def Severs (decide : List Char → Move) : Prop :=
  ∀ text more, (decide (text ++ more)).SeenIn text → decide text = decide (text ++ more)

theorem Comment.move_severs : Severs (Comment.move · true) := by
  intro text more seen
  cases text with
  | cons c text => rfl
  | nil =>
    cases more with
    | nil => rfl
    | cons c more =>
      by_cases skipped : skips c = true
      · simp [move, skipped, Move.SeenIn] at seen
      · simp [move, skipped]

theorem AfterString.move_severs (here : Location) : Severs (AfterString.move here · true) := by
  intro text more seen
  cases text with
  | cons c text => rfl
  | nil =>
    cases more with
    | nil => rfl
    | cons c more =>
      by_cases quote : c = '"'
      · simp [move, quote, Move.SeenIn] at seen
      · simp [move, quote]

theorem NameDraft.move_severs (options : Options) (draft : NameDraft) :
    Severs (draft.move options · true) := by
  intro text more seen
  cases text with
  | cons c text => rfl
  | nil =>
    cases more with
    | nil => rfl
    | cons c more =>
      by_cases continues : continuesName c = true
      · simp [move, continues, Move.SeenIn] at seen
      · simp [move, continues]

namespace NumberDraft

variable (draft : NumberDraft)

theorem underscores_severs (text more : List Char)
    (seen : (draft.underscores ('_' :: text ++ more) true).SeenIn ('_' :: text)) :
    draft.underscores ('_' :: text) true = draft.underscores ('_' :: text ++ more) true := by
  cases text with
  | cons d text =>
    simp only [List.cons_append, underscores] at seen ⊢
    cases digit : draft.part.digit? d with
    | some part => rfl
    | none => simp [digit, fault, Move.SeenIn] at seen
  | nil =>
    cases more with
    | nil => rfl
    | cons d more =>
      simp only [List.cons_append, List.nil_append, underscores] at seen
      cases digit : draft.part.digit? d with
      | some part => simp [digit, readTo, Move.SeenIn] at seen
      | none => simp [digit, fault, Move.SeenIn] at seen

theorem point_severs (value : Nat) (text more : List Char)
    (seen : (draft.point value ('.' :: text ++ more) true).SeenIn ('.' :: text)) :
    draft.point value ('.' :: text) true = draft.point value ('.' :: text ++ more) true := by
  cases text with
  | cons d text => rfl
  | nil =>
    cases more with
    | nil => rfl
    | cons d more =>
      simp only [List.cons_append, List.nil_append, point, List.drop_succ_cons, List.drop_zero]
        at seen ⊢
      cases digit : (NumberPart.fraction value 0).digit? d with
      | some part => simp [digit, readTo, Move.SeenIn] at seen
      | none => rfl

theorem not_unread (text : List Char) {width : Nat} (part : NumberPart) (positive : 0 < width) :
    ¬(draft.readTo text width part).SeenIn [] := by
  intro seen
  have none : width ≤ 0 := seen
  omega

theorem underscores_not_unread (c : Char) (rest : List Char) :
    ¬(draft.underscores (c :: rest) true).SeenIn [] := by
  intro seen
  cases rest with
  | nil => exact seen
  | cons d rest =>
    simp only [underscores] at seen
    split at seen
    · exact draft.not_unread _ _ (by decide) seen
    · exact seen

theorem point_of_unread {value : Nat} {c : Char} {rest : List Char}
    (seen : (draft.point value (c :: rest) true).SeenIn []) :
    draft.point value (c :: rest) true = draft.complete := by
  cases rest with
  | nil => rfl
  | cons d rest =>
    simp only [point, List.drop_succ_cons, List.drop_zero] at seen ⊢
    split at seen
    · exact absurd seen (draft.not_unread _ _ (by decide))
    · rfl

theorem mark_of_unread {c : Char} {rest : List Char}
    (seen : (draft.mark c (c :: rest) true).SeenIn []) :
    draft.mark c (c :: rest) true = draft.complete := by
  have read (part : NumberPart) : ¬(draft.readTo (c :: rest) 1 part).SeenIn [] :=
    draft.not_unread (c :: rest) part (by decide)
  revert seen
  simp only [mark, base]
  repeat' split
  all_goals intro seen
  · exact draft.point_of_unread seen
  · exact absurd seen (read _)
  · exact seen.elim
  · rfl
  · exact absurd seen (read _)
  · rfl
  · exact absurd seen (read _)
  · exact absurd seen (read _)
  · exact absurd seen (read _)
  · rfl
  · rfl
  · rfl

theorem move_of_unread {text : List Char} (seen : (draft.move text true).SeenIn []) :
    draft.move text true = draft.complete := by
  cases text with
  | nil => rfl
  | cons c rest =>
    revert seen
    simp only [move]
    repeat' split
    all_goals intro seen
    · exact absurd seen (draft.not_unread _ _ (by decide))
    · exact absurd seen (draft.underscores_not_unread c rest)
    · exact draft.mark_of_unread seen

theorem mark_severs (c : Char) (text more : List Char)
    (seen : (draft.mark c (c :: text ++ more) true).SeenIn (c :: text)) :
    draft.mark c (c :: text) true = draft.mark c (c :: text ++ more) true := by
  simp only [mark] at seen ⊢
  split
  · rename_i value whole
    simp only [whole] at seen
    by_cases dot : c = '.'
    · subst dot
      exact draft.point_severs value text more seen
    · simp only [dot, ↓reduceIte]
      rfl
  · rfl
  · rfl
  · rfl
  · rfl

theorem move_severs : Severs (draft.move · true) := by
  intro text more seen
  cases text with
  | nil => exact (draft.move_of_unread seen).symm
  | cons c text =>
    simp only [List.cons_append, move] at seen ⊢
    cases digit : draft.part.digit? c with
    | some part => rfl
    | none =>
      simp only [digit] at seen
      by_cases separator : (c = '_' && draft.part.hasDigit) = true
      · simp only [separator, ↓reduceIte] at seen ⊢
        obtain rfl : c = '_' := by
          simp only [Bool.and_eq_true, decide_eq_true_eq] at separator
          exact separator.1
        exact draft.underscores_severs text more seen
      · simp only [separator, Bool.false_eq_true, ↓reduceIte] at seen ⊢
        exact draft.mark_severs c text more seen

end NumberDraft

namespace QuotedDraft

variable (draft : QuotedDraft) (here : Location)

theorem readValue_severed {text more : List Char} {width : Nat} (value : Char)
    (short : width ≤ text.length) :
    draft.readValue text width value = draft.readValue (text ++ more) width value := by
  simp only [readValue, draft.lexeme.extend_append more short]

theorem escape_severs (rest more : List Char)
    (seen : (draft.escape here ('\\' :: rest ++ more) (rest ++ more) true).SeenIn ('\\' :: rest)) :
    draft.escape here ('\\' :: rest) rest true =
      draft.escape here ('\\' :: rest ++ more) (rest ++ more) true := by
  simp only [escape] at seen ⊢
  cases found : Escape.read (rest ++ more) true with
  | char value width =>
    have short : 1 + width ≤ ('\\' :: rest).length := by
      rw [found] at seen
      exact seen
    rw [Escape.char_severed found (by simp only [List.length_cons] at short; omega)]
    exact draft.readValue_severed value short
  | lineBreak =>
    have short : 2 ≤ ('\\' :: rest).length := by
      rw [found] at seen
      exact seen
    rw [Escape.lineBreak_severed found (Nat.le_of_succ_le_succ short)]
    exact draft.readValue_severed '\n' short
  | incomplete =>
    rw [found] at seen
    exact seen.elim
  | malformed width =>
    rw [found] at seen
    exact seen.elim

theorem not_unread (text : List Char) : ¬(draft.move here text true).SeenIn [] := by
  simp only [move, complete, escape, readValue, unterminated]
  repeat' split
  all_goals simp [Move.SeenIn]

theorem move_severs : Severs (draft.move here · true) := by
  intro text more seen
  cases text with
  | nil => exact absurd seen (draft.not_unread here more)
  | cons c rest =>
    simp only [List.cons_append, move] at seen ⊢
    by_cases closes : c = draft.close
    · simp only [closes, ↓reduceIte]
      rfl
    · simp only [closes, ↓reduceIte] at seen ⊢
      by_cases escapes : (c = '\\' && !draft.quotation.isVerbatim) = true
      · simp only [escapes, ↓reduceIte] at seen ⊢
        obtain rfl : c = '\\' := by
          simp only [Bool.and_eq_true, decide_eq_true_eq] at escapes
          exact escapes.1
        exact draft.escape_severs here rest more seen
      · simp only [escapes, Bool.false_eq_true, ↓reduceIte]
        rfl

end QuotedDraft

namespace TripleQuotedDraft

variable (draft : TripleQuotedDraft) (here : Location)

theorem complete_severed {text more : List Char} (short : draft.quotes ≤ text.length) :
    draft.complete here text = draft.complete here (text ++ more) := by
  simp only [complete, draft.lexeme.extend_append more short, List.take_append_of_le_length short]

theorem run_seenIn {text front : List Char}
    (seen : (draft.quoteRun here text true).SeenIn front) :
    runLength '"' text ≤ front.length := by
  simp only [quoteRun, Bool.not_true, Bool.false_and, Bool.false_eq_true, ↓reduceIte] at seen
  by_cases closes : runLength '"' text = draft.quotes
  · simp only [closes, ↓reduceIte, complete] at seen ⊢
    split at seen
    · exact seen.1
    · exact seen.elim
  · simp only [closes, ↓reduceIte] at seen
    exact seen

theorem quoteRun_severs (text more : List Char)
    (seen : (draft.quoteRun here (text ++ more) true).SeenIn text) :
    draft.quoteRun here text true = draft.quoteRun here (text ++ more) true := by
  have short := draft.run_seenIn here seen
  have run := runLength_severed short
  simp only [quoteRun, run, Bool.not_true, Bool.false_and, Bool.false_eq_true, ↓reduceIte]
  split
  · rename_i closes
    exact draft.complete_severed here (closes ▸ short)
  · simp only [pushFront, List.take_append_of_le_length short]

theorem not_unread (text : List Char) : ¬(draft.move here text true).SeenIn [] := by
  intro seen
  cases text with
  | nil => exact seen
  | cons c rest =>
    simp only [move] at seen
    repeat' split at seen
    · exact seen
    · rename_i quote
      simp only [Bool.and_eq_true, beq_iff_eq] at quote
      obtain ⟨rfl, _⟩ := quote
      exact absurd (draft.run_seenIn here seen) (Nat.not_le.mpr (runLength_pos '"' rest))
    · exact absurd seen (by simp [Move.SeenIn])

theorem move_severs : Severs (draft.move here · true) := by
  intro text more seen
  cases text with
  | nil => exact absurd seen (draft.not_unread here more)
  | cons c rest =>
    simp only [List.cons_append, move] at seen ⊢
    by_cases foreign : (!isText c) = true
    · simp only [foreign, ↓reduceIte]
    · simp only [foreign, Bool.false_eq_true, ↓reduceIte] at seen ⊢
      by_cases quote : (c == '"' && draft.mayClose) = true
      · simp only [quote, ↓reduceIte] at seen ⊢
        exact draft.quoteRun_severs here (c :: rest) more seen
      · simp only [quote, Bool.false_eq_true, ↓reduceIte]

end TripleQuotedDraft

namespace QuoteRun

variable (here : Location) (sigil : Option Sigil)

theorem run_seenIn {text front : List Char} (seen : (move here sigil text true).SeenIn front) :
    runLength '"' text ≤ front.length := by
  simp only [move, Bool.not_true, Bool.false_and, Bool.false_eq_true, ↓reduceIte] at seen
  split at seen
  · rename_i one
    exact one ▸ seen
  · split at seen
    · rename_i two
      exact two ▸ seen.1
    · exact seen

theorem move_severs : Severs (move here sigil · true) := by
  intro text more seen
  have short := run_seenIn here sigil seen
  have run := runLength_severed short
  simp only [move, run, Bool.not_true, Bool.false_and, Bool.false_eq_true, ↓reduceIte]
  split
  · rename_i one
    simp only [QuotedDraft.openMove, Lexeme.front_append here more (one ▸ short)]
  · split
    · rename_i two
      simp only [Lexeme.front_append here more (two ▸ short),
        List.take_append_of_le_length (two ▸ short)]
    · simp only [TripleQuotedDraft.openMove, Lexeme.front_append here more short]

end QuoteRun

theorem Sigil.move_severs (sigil : Sigil) (here : Location) :
    Severs (sigil.move here · true) := by
  intro text more seen
  cases text with
  | nil =>
    cases more with
    | nil => rfl
    | cons c more =>
      simp only [List.nil_append, move] at seen
      split at seen
      · subst_vars
        exact absurd (QuoteRun.run_seenIn here _ seen) (Nat.not_le.mpr (runLength_pos '"' more))
      · split at seen
        · exact absurd seen (by simp [QuotedDraft.openMove, Move.SeenIn])
        · exact seen.elim
  | cons c rest =>
    simp only [List.cons_append, move] at seen ⊢
    by_cases quote : c = '"'
    · simp only [quote, ↓reduceIte] at seen ⊢
      exact QuoteRun.move_severs here (some sigil) ('"' :: rest) more seen
    · simp only [quote, ↓reduceIte]
      rfl

theorem Operator.longest?_severed (text more : List Char)
    (short : ∀ op, longest? (text ++ more) = some op → op.spelling.length ≤ text.length) :
    longest? text = longest? (text ++ more) := by
  have longer (op : Operator) (fits : op.spelling.isPrefixOf text = true) :
      op.spelling.isPrefixOf (text ++ more) = true := by
    rw [List.isPrefixOf_iff_prefix] at fits ⊢
    exact fits.trans (List.prefix_append text more)
  cases found : longest? (text ++ more) with
  | none =>
    rw [longest?, List.find?_eq_none] at found ⊢
    intro op listed fits
    exact found op listed (longer op fits)
  | some op =>
    have whole := short op found
    rw [longest?, List.find?_eq_some_iff_append] at found ⊢
    obtain ⟨fits, before, behind, table, none⟩ := found
    refine ⟨?_, before, behind, table, ?_⟩
    · rw [List.isPrefixOf_iff_prefix] at fits ⊢
      exact List.prefix_of_prefix_length_le fits (List.prefix_append text more) whole
    · intro other earlier
      have unfit := none other earlier
      by_contra fits
      simp only [Bool.not_eq_true', Bool.not_eq_false] at fits unfit
      rw [longer other fits] at unfit
      cases unfit

theorem Punctuation.move_severs (checking : Bool) (here : Location) (c : Char)
    (rest more : List Char)
    (seen : (move checking here c (rest ++ more) true).SeenIn (c :: rest)) :
    move checking here c rest true = move checking here c (rest ++ more) true := by
  simp only [move, Bool.not_true, Bool.false_and, Bool.false_eq_true, ↓reduceIte] at seen ⊢
  cases found : Operator.longest? (c :: (rest ++ more)) with
  | none =>
    have none : Operator.longest? (c :: rest) = none := by
      rw [Operator.longest?_severed (c :: rest) more, List.cons_append, found]
      intro op other
      rw [List.cons_append, found] at other
      cases other
    rw [none]
    rfl
  | some op =>
    have severed (short : op.spelling.length ≤ (c :: rest).length) :
        Operator.longest? (c :: rest) = some op := by
      rw [Operator.longest?_severed (c :: rest) more, List.cons_append, found]
      intro other same
      rw [List.cons_append, found] at same
      obtain rfl := Option.some.inj same
      exact short
    simp only [found] at seen
    by_cases ends : op = .dot ∧ endsForm (rest ++ more) = true
    · obtain ⟨rfl, ends⟩ := ends
      simp only [ends, and_self, ↓reduceIte] at seen ⊢
      rw [severed (by simp [Operator.spelling])]
      have same : endsForm rest = true ∧ terminatorWidth rest = terminatorWidth (rest ++ more) := by
        cases rest with
        | cons d rest => exact ⟨ends, rfl⟩
        | nil =>
          have one : terminatorWidth more ≤ 1 := seen.1
          have positive := terminatorWidth_pos more
          exact ⟨rfl, Nat.le_antisymm positive one⟩
      rw [← same.2] at seen ⊢
      simp only [same.1, and_self, ↓reduceIte]
      rw [← List.cons_append, Lexeme.front_append here more seen.1]
    · simp only [ends, ↓reduceIte] at seen ⊢
      have other : op ≠ .dot := by
        rintro rfl
        exact seen.2 rfl
      simp only [severed seen.1, other, false_and, ↓reduceIte]
      rw [← List.cons_append, Lexeme.front_append here more seen.1]

theorem CharLiteral.move_severs (here : Location) (rest more : List Char)
    (seen : (move here (rest ++ more) true).SeenIn ('$' :: rest)) :
    move here rest true = move here (rest ++ more) true := by
  cases rest with
  | nil =>
    cases more with
    | nil => rfl
    | cons c more =>
      simp only [List.nil_append, move] at seen
      repeat' split at seen
      all_goals simp only [Move.SeenIn, List.length_singleton] at seen
      all_goals omega
  | cons c behind =>
    simp only [List.cons_append, move] at seen ⊢
    by_cases escapes : c = '\\'
    · simp only [escapes, ↓reduceIte] at seen ⊢
      cases found : Escape.read (behind ++ more) true with
      | char value width =>
        have short : 2 + width ≤ ('$' :: '\\' :: behind).length := by
          rw [found] at seen
          exact seen.1
        rw [Escape.char_severed found (by simp only [List.length_cons] at short; omega)]
        simp only [← List.cons_append, Lexeme.front_append here more short]
      | lineBreak =>
        have short : 3 ≤ ('$' :: '\\' :: behind).length := by
          rw [found] at seen
          exact seen.1
        rw [Escape.lineBreak_severed found (by simp only [List.length_cons] at short; omega)]
        simp only [← List.cons_append, Lexeme.front_append here more short]
      | incomplete =>
        rw [found] at seen
        exact seen.elim
      | malformed width =>
        rw [found] at seen
        exact seen.elim
    · simp only [escapes, ↓reduceIte]
      rfl

theorem Comment.openMove_severs (options : Options) (checking : Bool) (here : Location) :
    Severs (openMove options checking here · true) := by
  intro text more seen
  simp only [openMove, Bool.not_true, Bool.and_false, Bool.false_and, Bool.false_eq_true,
    ↓reduceIte] at seen ⊢
  by_cases marked : (options.checkComments && marker.isPrefixOf (text ++ more)) = true
  · have short : 5 ≤ text.length := by
      simp only [marked, ↓reduceIte] at seen
      split at seen
      · exact seen
      · exact seen.1
    have front : (options.checkComments && marker.isPrefixOf text) = true := by
      simp only [Bool.and_eq_true, List.isPrefixOf_iff_prefix] at marked ⊢
      exact ⟨marked.1,
        List.prefix_of_prefix_length_le marked.2 (List.prefix_append text more) short⟩
    simp only [marked, front, ↓reduceIte, Lexeme.front_append here more short]
  · have front : ¬(options.checkComments && marker.isPrefixOf text) = true := by
      intro front
      simp only [Bool.and_eq_true, List.isPrefixOf_iff_prefix] at marked front
      exact marked ⟨front.1, front.2.trans (List.prefix_append text more)⟩
    simp only [marked, front, Bool.false_eq_true, ↓reduceIte]

theorem Between.move_severs (options : Options) (checking : Bool) (here : Location) :
    Severs (move options checking here · true) := by
  intro text more seen
  cases text with
  | nil =>
    have rank := (move_fits options checking here more true).rank_pos seen
    exact absurd rank (by decide)
  | cons c rest =>
    have quotes := QuoteRun.move_severs here none (c :: rest) more
    have comments := Comment.openMove_severs options checking here (c :: rest) more
    revert seen
    simp only [List.cons_append, move] at quotes comments ⊢
    repeat' split
    all_goals intro seen
    · rfl
    · rfl
    · rfl
    · rfl
    · exact quotes seen
    · rfl
    · subst_vars
      exact CharLiteral.move_severs here rest more seen
    · rfl
    · exact comments seen
    · exact Punctuation.move_severs checking here c rest more seen

/-- **What is read does not hang on what is not.** On a text that is cut off behind all that a
move reads, the scan makes the same move. -/
theorem State.move_severed (options : Options) (state : State) (text more : List Char)
    (seen : (state.move options true (text ++ more)).SeenIn text) :
    state.move options true text = state.move options true (text ++ more) := by
  obtain ⟨location, tokens, checking, mode⟩ := state
  cases mode with
  | between => exact Between.move_severs options checking location text more seen
  | comment => exact Comment.move_severs text more seen
  | name draft => exact draft.move_severs options text more seen
  | number draft => exact draft.move_severs text more seen
  | quoted draft => exact draft.move_severs location text more seen
  | afterString => exact AfterString.move_severs location text more seen
  | sigil sigil => exact sigil.move_severs location text more seen
  | tripleQuoted draft => exact draft.move_severs location text more seen

end ErlangLexer
