import ErlangLexer.Proofs.EscapeSpelling

/-!
# When an escape is decided

An escape is read in front of a text that may go on, and again when more of the text is there. It
is decided neither too early nor too late:

* `Escape.read_append`: what is decided stays so, whatever comes and wherever the text ends;
* `Escape.Open`: a text behind which an escape may still become one thing or another;
* `Escape.CutOff.isOpen`: nothing else is left undecided, so no caller waits in vain;
* `CharLiteral.move_eq_wait_iff`, `QuotedDraft.move_eq_wait_iff`: a literal waits for its escape
  only while more text may come;
* `Escape.decided_in_time`: together, with the number of characters that an escape takes.
-/

namespace ErlangLexer

theorem DigitRow.push_zero {base : Nat} (positive : 0 < base) (small : base ≤ 16)
    {digits : List Char} {code : Nat} (row : DigitRow base digits code) :
    DigitRow base (digits ++ ['0']) (code * base) := by
  obtain ⟨all, value⟩ := (digitRow_iff small).mp row
  have zero : digitValue? base '0' = some 0 :=
    (digitValue?_of_le small).mpr ⟨positive, by decide⟩
  refine (digitRow_iff small).mpr ⟨?_, ?_⟩
  · intro c listed
    rcases List.mem_append.mp listed with digit | last
    · exact all c digit
    · rw [List.mem_singleton.mp last, zero]
      rfl
  · simp only [digitsValue] at value ⊢
    rw [List.foldl_append, value, List.foldl_cons, zero]
    rfl

namespace Escape

/-- How many characters behind the backslash an escape takes, with the one that rules it out. -/
def width : Escape → Nat
  | .char _ width | .malformed width => width
  | .lineBreak => 1
  | .incomplete => 0

/-- The escape may become one thing, and it may become another. -/
def Open (text : List Char) : Prop :=
  ∃ one other, read (text ++ one) false ≠ .incomplete ∧ read (text ++ other) false ≠ .incomplete ∧
    read (text ++ one) false ≠ read (text ++ other) false

theorem Open.of_reads {text : List Char} (one other : List Char) {here there : Escape}
    (first : read (text ++ one) false = here) (second : read (text ++ other) false = there)
    (decided : here ≠ .incomplete ∧ there ≠ .incomplete) (differ : here ≠ there) : Open text := by
  refine ⟨one, other, ?_, ?_, ?_⟩
  · exact first ▸ decided.1
  · exact second ▸ decided.2
  · rw [first, second]
    exact differ

theorem read_of_octal {digits rest : List Char} {code : Nat} {ended : Bool}
    (octal : OctalSpelling digits code) (ends : DigitsEnd digits rest ended) :
    read (digits ++ rest) ended = .char (Char.ofNat code) digits.length := by
  have small := digitsValue_octal_lt octal.few
  rw [octal.value] at small
  have inText : isTextCode code = true := by
    simp only [isTextCode, Bool.or_eq_true, decide_eq_true_eq]
    omega
  refine read_of_spelling (.octal ?_) ends
  rwa [toNat_ofNat_of_isTextCode inText]

theorem read_of_unclosed {digits : List Char} {code : Nat} (row : DigitRow 16 digits code) :
    read ('x' :: '\x7b' :: (digits ++ ['g'])) false = .malformed (digits.length + 3) := by
  have all := ((digitRow_iff (by decide)).mp row).1
  have other : (digitValue? 16 'g').isSome = false := by decide
  exact (Reads.braced all other).eq

/-- What cuts off a spelling leaves the escape open. -/
theorem CutOff.isOpen {text : List Char} (cut : CutOff text) : Open text := by
  cases cut with
  | nothing => exact ⟨['a'], ['c'], by decide, by decide, by decide⟩
  | hex => exact ⟨['0', '0'], ['g'], by decide, by decide, by decide⟩
  | caret => exact ⟨['A'], ['1'], by decide, by decide, by decide⟩
  | octal octal few =>
    have ends (spelling : List Char) : DigitsEnd spelling [' '] false :=
      fun _ _ => .inr ⟨' ', [], rfl, by decide⟩
    have longer : OctalSpelling (text ++ ['0']) _ :=
      ⟨by simp, by rw [List.length_append]; exact few,
        octal.row.push_zero (by decide) (by decide)⟩
    have ended := read_of_octal octal (ends text)
    have goes_on := read_of_octal longer (ends (text ++ ['0']))
    rw [List.append_assoc] at goes_on
    exact .of_reads [' '] _ ended goes_on (by simp) (by simp)
  | @oneDigit c value digit =>
    have high : digitValue? 16 c = some value := digitValue?_sixteen_iff.mpr digit
    have low : digitValue? 16 '0' = some 0 := by decide
    have none : digitValue? 16 'g' = none := by decide
    have below := digitValue?_lt high
    have spelled : read ['x', c, '0'] false = ofCode (value * 16 + 0) 3 :=
      (Reads.twoDigits high low).eq
    rw [ofCode_of_small (by omega)] at spelled
    exact .of_reads ['0'] ['g'] spelled (Reads.noSecond high none).eq (by simp) (by simp)
  | openBrace row =>
    have later := read_of_unclosed (row.push_zero (by decide) (by decide))
    rw [List.append_assoc] at later
    exact .of_reads ['g'] ['0', 'g'] (read_of_unclosed row) later (by simp) (by simp)

/-- A decided escape takes some of the text, and no more than all of it. -/
theorem width_of_read {text : List Char} {ended : Bool} (decided : read text ended ≠ .incomplete) :
    0 < (read text ended).width ∧ (read text ended).width ≤ text.length := by
  have within := read_within text ended
  cases escape : read text ended with
  | char | malformed =>
    rw [escape] at within
    exact within
  | lineBreak =>
    rw [escape] at within
    exact ⟨Nat.one_pos, List.length_pos_iff.mpr within⟩
  | incomplete => exact absurd escape decided

end Escape

/-! ## Waiting for an escape -/

/-- A character literal waits for its escape only while more text may come. -/
theorem CharLiteral.move_eq_wait_iff (here : Location) (text : List Char) (ended : Bool) :
    move here ('\\' :: text) ended = .wait ↔
      ended = false ∧ Escape.read text false = .incomplete := by
  cases ended with
  | true =>
    simp only [move, ↓reduceIte]
    split <;> simp
  | false =>
    simp only [move, ↓reduceIte]
    split <;> simp [*]

/-- So does a text between delimiters in which backslashes escape. -/
theorem QuotedDraft.move_eq_wait_iff {draft : QuotedDraft} (inside : draft.close ≠ '\\')
    (escapes : draft.quotation.isVerbatim = false) (here : Location) (text : List Char)
    (ended : Bool) :
    draft.move here ('\\' :: text) ended = .wait ↔
      ended = false ∧ Escape.read text false = .incomplete := by
  simp only [move, if_neg inside.symm, escapes, decide_true, Bool.not_false, Bool.and_self,
    ↓reduceIte]
  cases ended with
  | true =>
    simp only [escape, readValue, unterminated, ↓reduceIte]
    split <;> simp
  | false =>
    simp only [escape, readValue, Bool.false_eq_true, ↓reduceIte]
    split <;> simp [*]

/-- **An escape is decided in time.** Once it is decided while more text may come, it is the same
whatever comes and wherever the text ends. While it is not, some text makes it one thing and some
text another. At the end of the text it takes at least one of the characters in front, and no more
than there are, unless the text ends within it; and then no literal waits for more of it. -/
theorem Escape.decided_in_time (text : List Char) :
    (read text false ≠ .incomplete →
      ∀ more ended, read (text ++ more) ended = read text false) ∧
    (read text false = .incomplete →
      ∃ one other, read (text ++ one) false ≠ .incomplete ∧
        read (text ++ other) false ≠ .incomplete ∧
        read (text ++ one) false ≠ read (text ++ other) false) ∧
    (read text true ≠ .incomplete →
      0 < (read text true).width ∧ (read text true).width ≤ text.length) ∧
    ∀ (here : Location) (ended : Bool),
      (CharLiteral.move here ('\\' :: text) ended = .wait ↔
        ended = false ∧ read text false = .incomplete) ∧
      ∀ draft : QuotedDraft, draft.close ≠ '\\' → draft.quotation.isVerbatim = false →
        (draft.move here ('\\' :: text) ended = .wait ↔
          ended = false ∧ read text false = .incomplete) := by
  refine ⟨?_, ?_, width_of_read, ?_⟩
  · intro decided more ended
    exact read_append more ended decided
  · intro waits
    exact (read_eq_incomplete_iff.mp waits).isOpen
  · intro here ended
    refine ⟨CharLiteral.move_eq_wait_iff here text ended, ?_⟩
    intro draft inside escapes
    exact QuotedDraft.move_eq_wait_iff inside escapes here text ended

/-- Digits in braces may go on until something else comes, and then they are decided: these are
too many for a character. In a string they are waited for, but not at the end of the text. -/
theorem Escape.decided_in_time_within_braces :
    let digits := ['x', '\x7b', 'f', 'f', 'f', 'f', 'f', 'f']
    let draft : QuotedDraft := ⟨⟨.start, "\""⟩, .string, '"', ""⟩
    (read digits false = .incomplete ∧
      ∃ one other, read (digits ++ one) false ≠ .incomplete ∧
        read (digits ++ other) false ≠ .incomplete ∧
        read (digits ++ one) false ≠ read (digits ++ other) false) ∧
    (read (digits ++ ['\x7d']) false = .malformed 9 ∧
      ∀ more ended, read (digits ++ ['\x7d'] ++ more) ended = .malformed 9) ∧
    (0 < (read (digits ++ ['\x7d']) true).width ∧
      (read (digits ++ ['\x7d']) true).width ≤ (digits ++ ['\x7d']).length) ∧
    draft.close ≠ '\\' ∧ draft.quotation.isVerbatim = false ∧
    draft.move .start ('\\' :: digits) false = .wait ∧
    draft.move .start ('\\' :: digits) true ≠ .wait := by
  intro digits draft
  have waits : read digits false = .incomplete := by decide
  have decided : read (digits ++ ['\x7d']) false = .malformed 9 := by decide
  have last : read (digits ++ ['\x7d']) true ≠ .incomplete := by decide
  obtain ⟨-, forks, -, waiting⟩ := decided_in_time digits
  obtain ⟨stays, -, takes, -⟩ := decided_in_time (digits ++ ['\x7d'])
  refine ⟨⟨waits, forks waits⟩, ⟨decided, ?_⟩, takes last, by decide, rfl, ?_, ?_⟩
  · intro more ended
    rw [← decided]
    exact stays (by simp [decided]) more ended
  · exact ((waiting .start false).2 draft (by decide) rfl).mpr ⟨rfl, waits⟩
  · intro wrong
    exact absurd (((waiting .start true).2 draft (by decide) rfl).mp wrong).1 (by decide)

end ErlangLexer
