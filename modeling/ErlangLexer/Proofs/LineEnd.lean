import ErlangLexer.Proofs.LooseEnds
import ErlangLexer.Proofs.Severance

/-!
# The end of a line

No lexeme that is not between delimiters goes on over a line break or a comment:

* `Bars`: a line break or a percent sign;
* `NameDraft.move_barred`, `NumberDraft.move_barred`: a name and a number are complete in front of
  one;
* `QuoteRun.move_barred`, `TripleQuotedDraft.move_barred`: a run of quotes is as long as it is at
  the end of the text;
* `CharLiteral.move_barred`: so is an octal escape;
* `Between.move_barred`: so is an operator, but for a single dot, which takes a line break with it.
-/

namespace ErlangLexer

/-- With this character a line ends: its line break, or the comment in front of that. -/
def Bars (c : Char) : Prop :=
  c = '\n' ∨ c = '%'

variable {c : Char}

theorem continuesName_of_bars (bars : Bars c) : continuesName c = false := by
  rcases bars with rfl | rfl
  · decide
  · decide

theorem digitValue?_of_bars (bars : Bars c) (base : Nat) : digitValue? base c = none := by
  rcases bars with rfl | rfl
  · simp [digitValue?, isDigit]
  · simp [digitValue?, isDigit]

theorem isOctal_of_bars (bars : Bars c) : Escape.isOctal c = false := by
  rcases bars with rfl | rfl
  · decide
  · decide

theorem Bars.ne {d : Char} (bars : Bars c) (line : d ≠ '\n') (percent : d ≠ '%') : c ≠ d := by
  rintro rfl
  rcases bars with same | same
  · exact line same
  · exact percent same

theorem runLength_append_cons {c d : Char} (text more : List Char) (other : d ≠ c) :
    runLength c (text ++ d :: more) = runLength c text := by
  induction text with
  | nil => simp [runLength, other]
  | cons first text ih =>
    by_cases same : first = c
    · simp only [runLength, List.cons_append, List.takeWhile_cons, same, beq_self_eq_true,
        ↓reduceIte, List.length_cons] at ih ⊢
      rw [ih]
    · simp [runLength, same]

theorem NameDraft.move_barred (options : Options) (draft : NameDraft) (bars : Bars c)
    (more : List Char) : draft.move options (c :: more) true = draft.complete options := by
  simp [move, continuesName_of_bars bars]

theorem NumberPart.digit?_of_bars (part : NumberPart) (bars : Bars c) : part.digit? c = none := by
  cases part <;> simp [digit?, digitValue?_of_bars bars]

theorem NumberDraft.move_barred (draft : NumberDraft) (bars : Bars c) (more : List Char) :
    draft.move (c :: more) true = draft.complete := by
  have underscore : c ≠ '_' := bars.ne (by decide) (by decide)
  have point : c ≠ '.' := bars.ne (by decide) (by decide)
  have hash : c ≠ '#' := bars.ne (by decide) (by decide)
  have small : c ≠ 'e' := bars.ne (by decide) (by decide)
  have large : c ≠ 'E' := bars.ne (by decide) (by decide)
  have plus : c ≠ '+' := bars.ne (by decide) (by decide)
  have minus : c ≠ '-' := bars.ne (by decide) (by decide)
  obtain ⟨lexeme, part⟩ := draft
  simp only [move, part.digit?_of_bars bars, underscore, decide_false, Bool.false_and,
    Bool.false_eq_true, ↓reduceIte]
  cases part with
  | whole value => simp [mark, point, hash]
  | based base value => rfl
  | fraction mantissa places => simp [mark, small, large]
  | sign mantissa places => simp [mark, plus, minus, NumberPart.digit?_of_bars _ bars]
  | exponent mantissa places negative value => rfl

/-- An integer is complete in front of a dot with the end of a line behind it. -/
theorem NumberDraft.move_of_point_barred (draft : NumberDraft) {value : Nat}
    (part : draft.part = .whole value) (bars : Bars c) (more : List Char) :
    draft.move ('.' :: c :: more) true = .emit 0 (.integer value) draft.lexeme .between := by
  have no_digit : (NumberPart.whole value).digit? '.' = none := by
    simp [NumberPart.digit?, digitValue?, isDigit]
  have no_fraction := NumberPart.digit?_of_bars (.fraction value 0) bars
  simp [move, part, no_digit, mark, point, no_fraction, complete, NumberPart.kind?]

theorem AfterString.move_barred (here : Location) (bars : Bars c) (more : List Char) :
    move here (c :: more) true = .read 0 .between := by
  have quote : c ≠ '"' := bars.ne (by decide) (by decide)
  simp [move, quote]

/-! ## Quotes -/

theorem QuoteRun.move_barred (here : Location) (sigil : Option Sigil) {text : List Char}
    (run : isRun '"' text = true) (some_text : text ≠ []) (bars : Bars c) (more : List Char) :
    move here sigil (text ++ c :: more) true = move here sigil text true := by
  have quote : c ≠ '"' := bars.ne (by decide) (by decide)
  have length : runLength '"' (text ++ c :: more) = text.length :=
    (runLength_append_cons text more quote).trans (runLength_of_isRun run)
  have positive := List.length_pos_iff.mpr some_text
  -- The move reads the run and nothing else, so what is behind the run is not looked at.
  refine (move_severs here sigil text (c :: more) ?_).symm
  simp only [move, length, Bool.not_true, Bool.false_and, Bool.false_eq_true, ↓reduceIte]
  split
  · exact positive
  · split
    · rename_i two
      exact ⟨Nat.le_of_eq two.symm, by simp⟩
    · exact Nat.le_refl _

theorem Sigil.move_barred (sigil : Sigil) (here : Location) {text : List Char}
    (run : isRun '"' text = true) (some_text : text ≠ []) (bars : Bars c) (more : List Char) :
    sigil.move here (text ++ c :: more) true = sigil.move here text true := by
  have same := QuoteRun.move_barred here (some sigil) run some_text bars more
  cases text with
  | nil => exact absurd rfl some_text
  | cons d rest =>
    obtain rfl := head_of_isRun run
    exact same

theorem TripleQuotedDraft.move_barred {draft : TripleQuotedDraft} (here : Location)
    {text : List Char} (blank : draft.mayClose = true) (run : isRun '"' text = true)
    (some_text : text ≠ []) (bars : Bars c) (more : List Char) :
    draft.move here (text ++ c :: more) true = draft.move here text true := by
  have quote : c ≠ '"' := bars.ne (by decide) (by decide)
  have length : runLength '"' (text ++ c :: more) = runLength '"' text :=
    runLength_append_cons text more quote
  have short := runLength_le '"' text
  have quotes : draft.quoteRun here (text ++ c :: more) true = draft.quoteRun here text true := by
    simp only [quoteRun, length, Bool.not_true, Bool.false_and, Bool.false_eq_true, ↓reduceIte]
    by_cases closes : runLength '"' text = draft.quotes
    · simp only [closes, ↓reduceIte]
      exact (draft.complete_severed here (closes ▸ short)).symm
    · simp only [closes, ↓reduceIte, pushFront, List.take_append_of_le_length short]
  cases text with
  | nil => exact absurd rfl some_text
  | cons d rest =>
    obtain rfl := head_of_isRun run
    have known : isText '"' = true := by decide
    simp only [List.cons_append] at quotes
    simp [move, known, blank, quotes]

/-! ## Escapes -/

theorem Escape.width_le_of_char {text : List Char} {ended : Bool} {value : Char} {width : Nat}
    (spelled : read text ended = .char value width) : width ≤ text.length := by
  have within := read_within text ended
  rw [spelled] at within
  exact within.2

/-- An octal escape that the end of the text completes is complete in front of another
character. -/
theorem Escape.read_barred {text : List Char} {value : Char} {width : Nat}
    (cut : read text false = .incomplete) (complete : read text true = .char value width)
    (bars : Bars c) (more : List Char) : read (text ++ c :: more) true = .char value width := by
  cases text with
  | nil => cases complete
  | cons d rest =>
    by_cases octal : isOctal d = true
    · simp only [read, List.cons_append, octal, ↓reduceIte] at cut complete ⊢
      obtain ⟨all, short⟩ := octal_of_incomplete cut
      have every : ∀ x ∈ d :: rest, isOctal x = true := by
        intro x listed
        rw [← all] at listed
        exact List.mem_takeWhile_imp listed
      have front : ((d :: (rest ++ c :: more)).take 3).takeWhile isOctal = d :: rest := by
        obtain ⟨room, enough⟩ : ∃ room, 3 - (d :: rest).length = room + 1 :=
          ⟨2 - (d :: rest).length, by omega⟩
        rw [← List.cons_append, List.take_append, List.take_of_length_le (Nat.le_of_lt short),
          List.takeWhile_append_of_pos every, enough, List.take_succ_cons, List.takeWhile_cons,
          isOctal_of_bars bars]
        exact List.append_nil _
      unfold readOctal at complete ⊢
      dsimp only at complete ⊢
      rw [front]
      rw [all] at complete
      simpa using complete
    · simp only [read, octal, Bool.false_eq_true, ↓reduceIte] at cut complete
      rw [cut] at complete
      cases complete

theorem Escape.read_ne_lineBreak_of_incomplete {text : List Char}
    (cut : read text false = .incomplete) : read text true ≠ .lineBreak := by
  rcases read_ended_of_incomplete cut with read | read
  · simp [read]
  · rcases ofCode_cases (digitsValue 8 text) text.length with code | code
    · simp [read, code]
    · simp [read, code]

/-- A character literal that the end of the text completes is complete in front of another
character. -/
theorem CharLiteral.move_barred (here : Location) {behind : List Char} {value : Char}
    {width : Nat} (cut : Escape.read behind false = .incomplete)
    (complete : Escape.read behind true = .char value width) (bars : Bars c) (more : List Char) :
    move here ('\\' :: behind ++ c :: more) true = move here ('\\' :: behind) true := by
  have read := Escape.read_barred cut complete bars more
  have short := Escape.width_le_of_char complete
  have inside_text : 2 + width ≤ ('$' :: '\\' :: behind).length := by
    simp only [List.length_cons]
    omega
  have front : Lexeme.front here ('$' :: '\\' :: behind ++ c :: more) (2 + width) =
      .front here ('$' :: '\\' :: behind) (2 + width) :=
    Lexeme.front_append here (c :: more) inside_text
  simp only [List.cons_append] at front
  simp only [move, List.cons_append, ↓reduceIte, read, complete, front]

theorem QuotedDraft.move_barred {draft : QuotedDraft} (here : Location) {behind : List Char}
    {value : Char} {width : Nat} (inside : draft.close ≠ '\\')
    (escapes : draft.quotation.isVerbatim = false) (cut : Escape.read behind false = .incomplete)
    (complete : Escape.read behind true = .char value width) (bars : Bars c) (more : List Char) :
    draft.move here ('\\' :: behind ++ c :: more) true = draft.move here ('\\' :: behind) true := by
  have read := Escape.read_barred cut complete bars more
  have short := Escape.width_le_of_char complete
  have inside_text : 1 + width ≤ ('\\' :: behind).length := by
    simp only [List.length_cons]
    omega
  have front : draft.readValue ('\\' :: (behind ++ c :: more)) (1 + width) value =
      draft.readValue ('\\' :: behind) (1 + width) value :=
    draft.readValue_append (c :: more) value inside_text
  simp only [move, List.cons_append, inside.symm, escapes, escape, read, complete, front,
    ↓reduceIte, Bool.not_false, decide_true, Bool.and_self]

/-! ## Operators -/

/-- The beginning of an operator, but for a single dot, is in front of the end of a line what it
is at the end of the text. -/
theorem Between.move_barred (options : Options) (checking : Bool) (here : Location) {d : Char}
    {rest : List Char} (grows : Operator.mayGrow (d :: rest) = true) (no_dot : d :: rest ≠ ['.'])
    (bars : Bars c) (more : List Char) :
    move options checking here (d :: rest ++ c :: more) true =
      move options checking here (d :: rest) true := by
  have listed := Operator.mem_beginnings grows
  simp only [Operator.beginnings, List.mem_cons, List.not_mem_nil, or_false, List.cons.injEq,
    reduceCtorEq, false_or] at listed
  rcases listed with ⟨rfl, rfl⟩ | ⟨rfl, rfl⟩ | ⟨rfl, rfl⟩ | ⟨rfl, rfl⟩ | ⟨rfl, rfl⟩ | ⟨rfl, rfl⟩ |
    ⟨rfl, rfl⟩ | ⟨rfl, rfl⟩ | ⟨rfl, rfl⟩ | ⟨rfl, rfl⟩ | ⟨rfl, rfl⟩ | ⟨rfl, rfl⟩ | ⟨rfl, rfl⟩
  case inl => exact absurd rfl no_dot
  all_goals
    rcases bars with rfl | rfl
    · rfl
    · rfl

end ErlangLexer
