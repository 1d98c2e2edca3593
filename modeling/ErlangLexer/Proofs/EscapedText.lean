import ErlangLexer.Proofs.LooseEnds
import ErlangLexer.Proofs.Stability
import Mathlib.Algebra.Ring.Nat

/-!
# Text with escapes

A text with escapes stands for a value, one character at a time, and an escape tells by itself
where it ends or what rules it out:

* `Escape.Reads`: what an escape can be, in one table (`Escape.reads`, `Escape.Reads.eq`);
* `Escape.Offends`: the character that rules an escape out, the last one that is looked at;
* `Escape.read_ne_incomplete`: behind a line break no escape is waited for;
* `Escape.Decodes`: what a text stands for up to some place in it;
* `Escape.decodeFrom_of_decodes`, `Escape.decodes_cases`: decoding finds what a text stands for,
  or comes to the first escape that is none;
* `Escape.Decodes.append`, `Escape.Decodes.trans`: whole lines are decoded one by one.
-/

namespace ErlangLexer

theorem digitValue?_lt {base value : Nat} {c : Char} (digit : digitValue? base c = some value) :
    value < base := by
  obtain ⟨less, same⟩ := Option.ite_none_right_eq_some.mp digit
  exact Option.some.inj same ▸ less

theorem digitsValue_lt {base : Nat} (positive : 0 < base) (digits : List Char) :
    digitsValue base digits < base ^ digits.length := by
  induction digits using List.reverseRec with
  | nil => exact Nat.one_pos
  | append_singleton digits c ih =>
    have digit : (digitValue? base c).getD 0 < base := by
      cases found : digitValue? base c with
      | none => exact positive
      | some value => exact digitValue?_lt found
    have step : digitsValue base (digits ++ [c]) =
        digitsValue base digits * base + (digitValue? base c).getD 0 := by
      simp [digitsValue]
    have room : (digitsValue base digits + 1) * base ≤ base ^ digits.length * base :=
      Nat.mul_le_mul_right base ih
    rw [step, List.length_append, List.length_singleton, Nat.pow_succ]
    rw [Nat.add_mul, Nat.one_mul] at room
    omega

theorem all_or_first {α : Type} (p : α → Prop) (list : List α) :
    (∀ a ∈ list, p a) ∨
      ∃ front a behind, list = front ++ a :: behind ∧ (∀ b ∈ front, p b) ∧ ¬p a := by
  induction list with
  | nil => exact .inl fun a listed => absurd listed List.not_mem_nil
  | cons a list ih =>
    by_cases here : p a
    · rcases ih with all | ⟨front, b, behind, rfl, before, other⟩
      · exact .inl (List.forall_mem_cons.mpr ⟨here, all⟩)
      · exact .inr ⟨a :: front, b, behind, rfl, List.forall_mem_cons.mpr ⟨here, before⟩, other⟩
    · exact .inr ⟨[], a, list, rfl, fun b listed => absurd listed List.not_mem_nil, here⟩

/-- The text is made of whole lines, with their line breaks. -/
def WholeLines (text : List Char) : Prop :=
  text = [] ∨ text.getLast? = some '\n'

namespace WholeLines

theorem drop {text : List Char} (whole : WholeLines text) (n : Nat) :
    WholeLines (text.drop n) := by
  by_cases all : text.length ≤ n
  · exact .inl (List.drop_eq_nil_of_le all)
  · refine .inr ?_
    rw [List.getLast?_drop, if_neg all]
    refine whole.resolve_left ?_
    rintro rfl
    exact all (Nat.zero_le n)

theorem tail {c : Char} {text : List Char} (whole : WholeLines (c :: text)) : WholeLines text :=
  whole.drop 1

theorem mem_tail {c : Char} {text : List Char} (whole : WholeLines (c :: text)) (other : c ≠ '\n') :
    '\n' ∈ text := by
  have last := List.mem_of_getLast? (whole.resolve_left (List.cons_ne_nil _ _))
  exact (List.mem_cons.mp last).resolve_left other.symm

theorem concat (text : List Char) : WholeLines (text ++ ['\n']) :=
  .inr (by simp)

end WholeLines

namespace Escape

/-! ## What an escape can be -/

theorem ofCode_of_small {code : Nat} (small : code ≤ 0xd7ff) (width : Nat) :
    ofCode code width = .char (Char.ofNat code) width := by
  have text : isTextCode code = true := by simp [isTextCode, small]
  rw [ofCode, if_pos text]

theorem ofCode_ne_incomplete (code width : Nat) : ofCode code width ≠ .incomplete := by
  unfold ofCode
  split <;> simp

theorem readOctal_ne_malformed (text : List Char) (ended : Bool) (width : Nat) :
    readOctal text ended ≠ .malformed width := by
  have few : ((text.take 3).takeWhile isOctal).length ≤ 3 :=
    (List.takeWhile_sublist _).length_le.trans (List.length_take_le 3 text)
  have bound := digitsValue_lt (show 0 < 8 by decide) ((text.take 3).takeWhile isOctal)
  have small : 8 ^ ((text.take 3).takeWhile isOctal).length ≤ 8 ^ 3 :=
    Nat.pow_le_pow_right (by decide) few
  unfold readOctal
  dsimp only
  split
  · simp
  · rw [ofCode_of_small (by omega)]
    simp

/-- Digits in braces are read as they are, and what stands behind them decides. -/
theorem readBraced_digits {digits : List Char} {c : Char}
    (all : ∀ d ∈ digits, (digitValue? 16 d).isSome = true)
    (other : (digitValue? 16 c).isSome = false) (rest : List Char) :
    readBraced (digits ++ c :: rest) =
      if c = '\x7d' && !digits.isEmpty then ofCode (digitsValue 16 digits) (digits.length + 3)
      else .malformed (digits.length + 3) := by
  have front : (digits ++ c :: rest).takeWhile (fun c => (digitValue? 16 c).isSome) = digits := by
    rw [List.takeWhile_append_of_pos all, List.takeWhile_cons_of_neg (by simp [other]),
      List.append_nil]
  simp only [readBraced, front, List.drop_left]

theorem readBraced_of_digits {digits : List Char}
    (all : ∀ c ∈ digits, (digitValue? 16 c).isSome = true) : readBraced digits = .incomplete := by
  have whole : digits.takeWhile (fun c => (digitValue? 16 c).isSome) = digits := by
    have front : (digits ++ []).takeWhile (fun c => (digitValue? 16 c).isSome) = digits ++ [] :=
      List.takeWhile_append_of_pos all
    rwa [List.append_nil] at front
  simp only [readBraced, whole, List.drop_length]

/-- What the text behind a backslash amounts to, by the characters that decide it. -/
inductive Reads (ended : Bool) : List Char → Escape → Prop where
  | nothing : Reads ended [] .incomplete
  | octal {c : Char} {rest : List Char} (octal : isOctal c = true) :
      Reads ended (c :: rest) (readOctal (c :: rest) ended)
  | hex : Reads ended ['x'] .incomplete
  | openBrace {digits : List Char} (all : ∀ d ∈ digits, (digitValue? 16 d).isSome = true) :
      Reads ended ('x' :: '\x7b' :: digits) .incomplete
  /-- Only a brace behind some digits closes them. -/
  | braced {digits rest : List Char} {c : Char}
      (all : ∀ d ∈ digits, (digitValue? 16 d).isSome = true)
      (other : (digitValue? 16 c).isSome = false) :
      Reads ended ('x' :: '\x7b' :: (digits ++ c :: rest))
        (if c = '\x7d' && !digits.isEmpty then ofCode (digitsValue 16 digits) (digits.length + 3)
        else .malformed (digits.length + 3))
  | noDigit {c : Char} {rest : List Char} (brace : c ≠ '\x7b') (none : digitValue? 16 c = none) :
      Reads ended ('x' :: c :: rest) (.malformed 2)
  | oneDigit {c : Char} {high : Nat} (digit : digitValue? 16 c = some high) :
      Reads ended ['x', c] .incomplete
  | noSecond {c d : Char} {rest : List Char} {high : Nat} (digit : digitValue? 16 c = some high)
      (none : digitValue? 16 d = none) : Reads ended ('x' :: c :: d :: rest) (.malformed 3)
  | twoDigits {c d : Char} {rest : List Char} {high low : Nat}
      (first : digitValue? 16 c = some high) (second : digitValue? 16 d = some low) :
      Reads ended ('x' :: c :: d :: rest) (ofCode (high * 16 + low) 3)
  | caret : Reads ended ['^'] .incomplete
  | control {d value : Char} {rest : List Char} (control : control? d = some value) :
      Reads ended ('^' :: d :: rest) (.char value 2)
  | noControl {d : Char} {rest : List Char} (none : control? d = none) :
      Reads ended ('^' :: d :: rest) (.malformed 2)
  | lineBreak {rest : List Char} : Reads ended ('\n' :: rest) .lineBreak
  | plain {c : Char} {rest : List Char} (octal : isOctal c = false) (hex : c ≠ 'x')
      (caret : c ≠ '^') (inline : c ≠ '\n') (text : isText c = true) :
      Reads ended (c :: rest) (.char (named c) 1)
  | foreign {c : Char} {rest : List Char} (octal : isOctal c = false) (hex : c ≠ 'x')
      (caret : c ≠ '^') (inline : c ≠ '\n') (foreign : isText c = false) :
      Reads ended (c :: rest) (.malformed 1)

theorem ne_brace_of_digit {c : Char} {value : Nat} (digit : digitValue? 16 c = some value) :
    c ≠ '\x7b' := by
  rintro rfl
  have none : digitValue? 16 '\x7b' = none := by simp [digitValue?, isDigit]
  rw [none] at digit
  cases digit

theorem readHex_reads (rest : List Char) (ended : Bool) :
    Reads ended ('x' :: rest) (readHex rest) := by
  cases rest with
  | nil => exact .hex
  | cons c rest =>
    by_cases brace : c = '\x7b'
    · subst brace
      change Reads ended _ (readBraced rest)
      rcases all_or_first (fun c => (digitValue? 16 c).isSome = true) rest with
        all | ⟨digits, c, behind, rfl, all, other⟩
      · rw [readBraced_of_digits all]
        exact .openBrace all
      · rw [readBraced_digits all (Bool.eq_false_iff.mpr other)]
        exact .braced all (Bool.eq_false_iff.mpr other)
    · cases high : digitValue? 16 c with
      | none =>
        simp only [readHex, high]
        exact .noDigit brace high
      | some first =>
        cases rest with
        | nil =>
          simp only [readHex, high]
          exact .oneDigit high
        | cons d rest =>
          cases low : digitValue? 16 d with
          | none =>
            simp only [readHex, high, low]
            exact .noSecond high low
          | some second =>
            simp only [readHex, high, low]
            exact .twoDigits high low

/-- There is nothing else that an escape can be. -/
theorem reads (text : List Char) (ended : Bool) : Reads ended text (read text ended) := by
  cases text with
  | nil => exact .nothing
  | cons c rest =>
    simp only [read]
    split
    · exact .octal ‹_›
    · rename_i octal
      split
      · subst_vars
        exact readHex_reads rest ended
      · split
        · subst_vars
          cases rest with
          | nil => exact .caret
          | cons d rest =>
            cases control : control? d with
            | some value =>
              simp only [control]
              exact .control control
            | none =>
              simp only [control]
              exact .noControl control
        · split
          · subst_vars
            exact .lineBreak
          · split
            · exact .plain (Bool.eq_false_iff.mpr octal) ‹_› ‹_› ‹_› ‹_›
            · exact .foreign (Bool.eq_false_iff.mpr octal) ‹_› ‹_› ‹_› (Bool.eq_false_iff.mpr ‹_›)

theorem Reads.eq {text : List Char} {ended : Bool} {escape : Escape}
    (reads : Reads ended text escape) : read text ended = escape := by
  cases reads with
  | nothing | hex | caret | lineBreak => rfl
  | octal octal => exact if_pos octal
  | openBrace all => exact readBraced_of_digits all
  | braced all other => exact readBraced_digits all other _
  | @noDigit c rest brace none =>
    change readHex (c :: rest) = _
    simp only [readHex, none]
  | @oneDigit c high digit =>
    have brace := ne_brace_of_digit digit
    change readHex [c] = _
    simp only [readHex, digit]
  | @noSecond c d rest high digit none =>
    have brace := ne_brace_of_digit digit
    change readHex (c :: d :: rest) = _
    simp only [readHex, digit, none]
  | @twoDigits c d rest high low first second =>
    have brace := ne_brace_of_digit first
    change readHex (c :: d :: rest) = _
    simp only [readHex, first, second]
  | control control =>
    have caret : isOctal '^' = false := by decide
    simp [read, caret, control]
  | noControl none =>
    have caret : isOctal '^' = false := by decide
    simp [read, caret, none]
  | plain octal hex caret inline text => simp [read, octal, hex, caret, inline, text]
  | foreign octal hex caret inline foreign => simp [read, octal, hex, caret, inline, foreign]

/-! ## What rules an escape out -/

/-- The escape is none, and the last of `width` characters rules it out: with this character it
is ruled out whatever comes, and before it everything was open. -/
structure Offends (text : List Char) (width : Nat) : Prop where
  positive : 0 < width
  short : width ≤ text.length
  ruled_out : ∀ more ended, read (text.take width ++ more) ended = .malformed width
  open_before : ∀ k, k < width → read (text.take k) false = .incomplete

/-- What stands behind the character that rules the escape out does not matter. -/
theorem Offends.append {text : List Char} {width : Nat} (offends : Offends text width)
    (more : List Char) : Offends (text ++ more) width := by
  have front (k : Nat) (within : k ≤ width) : (text ++ more).take k = text.take k :=
    List.take_append_of_le_length (Nat.le_trans within offends.short)
  refine ⟨offends.positive, ?_, ?_, ?_⟩
  · rw [List.length_append]
    exact Nat.le_trans offends.short (Nat.le_add_right _ _)
  · intro behind ended
    rw [front width (Nat.le_refl _)]
    exact offends.ruled_out behind ended
  · intro k before
    rw [front k (Nat.le_of_lt before)]
    exact offends.open_before k before

theorem offends_of_front (front rest : List Char) {c : Char}
    (ruled_out : ∀ more ended, read (front ++ c :: more) ended = .malformed (front.length + 1))
    (open_before : ∀ k, read (front.take k) false = .incomplete) :
    Offends (front ++ c :: rest) (front.length + 1) := by
  have taken : (front ++ c :: rest).take (front.length + 1) = front ++ [c] := by
    rw [List.take_append]
    simp
  refine ⟨Nat.succ_pos _, ?_, ?_, ?_⟩
  · simp only [List.length_append, List.length_cons]
    omega
  · intro more ended
    rw [taken, List.append_assoc]
    exact ruled_out more ended
  · intro k before
    rw [List.take_append_of_le_length (Nat.le_of_lt_succ before)]
    exact open_before k

theorem read_take_one {c : Char} (alone : read [c] false = .incomplete) (k : Nat) :
    read ([c].take k) false = .incomplete := by
  cases k with
  | zero => rfl
  | succ k =>
    rw [List.take_succ_cons, List.take_nil]
    exact alone

/-- What is no escape is ruled out by the last of the characters that it takes. -/
theorem offends_of_malformed {text : List Char} {ended : Bool} {width : Nat}
    (wrong : read text ended = .malformed width) : Offends text width := by
  have reads := reads text ended
  generalize read text ended = escape at reads wrong
  cases reads with
  | nothing | hex | openBrace | oneDigit | caret | control | lineBreak | plain => cases wrong
  | octal => exact absurd wrong (readOctal_ne_malformed _ _ _)
  | @braced digits rest c all other =>
    have three : width = digits.length + 3 := by
      split at wrong
      · rcases ofCode_cases (digitsValue 16 digits) (digits.length + 3) with code | code
        · rw [code] at wrong
          cases wrong
        · rw [code] at wrong
          exact (Escape.malformed.inj wrong).symm
      · exact (Escape.malformed.inj wrong).symm
    subst three
    refine offends_of_front ('x' :: '\x7b' :: digits) rest ?_ ?_
    · intro more ended
      exact (Reads.braced all other).eq.trans wrong
    · intro k
      rcases k with _ | _ | k
      · rfl
      · rfl
      · exact (Reads.openBrace fun d listed => all d (List.mem_of_mem_take listed)).eq
  | @noDigit c rest brace none =>
    obtain rfl := Escape.malformed.inj wrong
    exact offends_of_front ['x'] rest (fun more ended => (Reads.noDigit brace none).eq)
      (read_take_one rfl)
  | @noSecond c d rest high digit none =>
    obtain rfl := Escape.malformed.inj wrong
    refine offends_of_front ['x', c] rest (fun more ended => (Reads.noSecond digit none).eq) ?_
    intro k
    rcases k with _ | _ | k
    · rfl
    · rfl
    · rw [List.take_succ_cons, List.take_succ_cons, List.take_nil]
      exact (Reads.oneDigit digit).eq
  | @twoDigits c d rest high low first second =>
    have one := digitValue?_lt first
    have two := digitValue?_lt second
    rw [ofCode_of_small (by omega)] at wrong
    cases wrong
  | @noControl d rest none =>
    obtain rfl := Escape.malformed.inj wrong
    exact offends_of_front ['^'] rest (fun more ended => (Reads.noControl none).eq)
      (read_take_one rfl)
  | @foreign c rest octal hex caret inline foreign =>
    obtain rfl := Escape.malformed.inj wrong
    refine offends_of_front [] rest ?_ fun k => by rw [List.take_nil]; rfl
    intro more ended
    exact (Reads.foreign octal hex caret inline foreign).eq

/-! ## Line breaks -/

theorem not_digit_lineBreak : digitValue? 16 '\n' = none := by
  simp [digitValue?, isDigit]

theorem ne_lineBreak_of_digit {c : Char} (digit : (digitValue? 16 c).isSome = true) :
    c ≠ '\n' := by
  rintro rfl
  rw [not_digit_lineBreak] at digit
  cases digit

theorem readOctal_ne_incomplete {text : List Char} (broken : '\n' ∈ text) (ended : Bool) :
    readOctal text ended ≠ .incomplete := by
  cases ended with
  | true => simp [readOctal, ofCode_ne_incomplete]
  | false =>
    intro cut
    rw [← (octal_of_incomplete cut).1] at broken
    exact absurd (List.mem_takeWhile_imp broken) (by decide)

/-- No escape is waited for behind a line break. -/
theorem read_ne_incomplete {text : List Char} (broken : '\n' ∈ text) (ended : Bool) :
    read text ended ≠ .incomplete := by
  intro cut
  have reads := reads text ended
  generalize read text ended = escape at reads cut
  cases reads with
  | nothing | hex | caret => simp at broken
  | octal => exact readOctal_ne_incomplete broken ended cut
  | @openBrace digits all =>
    have listed : '\n' ∈ digits := by simpa using broken
    exact ne_lineBreak_of_digit (all _ listed) rfl
  | braced =>
    split at cut
    · exact ofCode_ne_incomplete _ _ cut
    · cases cut
  | @oneDigit c high digit =>
    have same : '\n' = c := by simpa using broken
    rw [← same, not_digit_lineBreak] at digit
    cases digit
  | twoDigits => exact ofCode_ne_incomplete _ _ cut
  | noDigit | noSecond | control | noControl | lineBreak | plain | foreign => cases cut

/-- Only the character that rules an escape out may be a line break. -/
theorem Offends.inline {text : List Char} {width : Nat} (offends : Offends text width)
    (no_break : text[width - 1]? ≠ some '\n') : '\n' ∉ text.take width := by
  have positive := offends.positive
  have short := offends.short
  have open_before := offends.open_before (width - 1) (by omega)
  have last : text.take width = text.take (width - 1) ++ text[width - 1]?.toList := by
    rw [← List.take_add_one, Nat.sub_add_cancel positive]
  rw [last, List.mem_append, not_or]
  refine ⟨fun broken => read_ne_incomplete broken false open_before, ?_⟩
  intro listed
  exact no_break (Option.mem_toList.mp listed)

theorem read_append_of_broken {text : List Char} (broken : '\n' ∈ text) (more : List Char) :
    read (text ++ more) true = read text true := by
  have complete := read_ne_incomplete broken false
  have alone := read_append [] true complete
  rw [List.append_nil] at alone
  rw [read_append more true complete, alone]

/-- An escape for a character, other than the line break that stands for itself, is spelled within
a line. -/
def InLine (text : List Char) : Escape → Prop
  | .char _ width => '\n' ∉ text.take width
  | _ => True

theorem ofCode_inLine {text : List Char} {width : Nat} (code : Nat)
    (spelled : '\n' ∉ text.take width) : (ofCode code width).InLine text := by
  unfold ofCode
  split
  · exact spelled
  · trivial

theorem readOctal_inLine (text : List Char) (ended : Bool) :
    (readOctal text ended).InLine text := by
  unfold readOctal
  dsimp only
  split
  · trivial
  · have spelled := List.prefix_iff_eq_take.mp
      ((List.takeWhile_prefix isOctal).trans (List.take_prefix 3 text))
    apply ofCode_inLine
    rw [← spelled]
    intro broken
    exact absurd (List.mem_takeWhile_imp broken) (by decide)

theorem read_inLine (text : List Char) (ended : Bool) : (read text ended).InLine text := by
  have reads := reads text ended
  generalize read text ended = escape at reads
  cases reads with
  | nothing | hex | openBrace | noDigit | oneDigit | noSecond | caret | noControl | lineBreak
  | foreign => trivial
  | octal => exact readOctal_inLine _ ended
  | @braced digits rest c all other =>
    split
    · rename_i closed
      obtain ⟨rfl, -⟩ : c = '\x7d' ∧ _ := by
        simpa only [Bool.and_eq_true, decide_eq_true_eq] using closed
      have inline : '\n' ∉ digits := fun broken => ne_lineBreak_of_digit (all _ broken) rfl
      apply ofCode_inLine
      simp [List.take_append, List.take_of_length_le, inline]
    · trivial
  | twoDigits first second =>
    have one := ne_lineBreak_of_digit (Option.isSome_of_eq_some first)
    have two := ne_lineBreak_of_digit (Option.isSome_of_eq_some second)
    apply ofCode_inLine
    simp [one.symm, two.symm]
  | @control d value rest control =>
    have inline : d ≠ '\n' := by
      rintro rfl
      cases control
    simp [InLine, inline.symm]
  | plain _ _ _ inline _ => simpa [InLine] using Ne.symm inline

/-! ## What a text stands for -/

/-- The character that an escape stands for, and how many characters spell it. -/
def value? : Escape → Option (Char × Nat)
  | .char c width => some (c, width)
  | .lineBreak => some ('\n', 1)
  | _ => none

theorem value?_cases (escape : Escape) :
    (∃ c width, escape.value? = some (c, width)) ∨ escape = .incomplete ∨
      ∃ width, escape = .malformed width := by
  cases escape with
  | char c width => exact .inl ⟨c, width, rfl⟩
  | lineBreak => exact .inl ⟨'\n', 1, rfl⟩
  | incomplete => exact .inr (.inl rfl)
  | malformed width => exact .inr (.inr ⟨width, rfl⟩)

theorem of_value? {escape : Escape} {c : Char} {width : Nat}
    (stands : escape.value? = some (c, width)) :
    escape = .char c width ∨ escape = .lineBreak ∧ c = '\n' ∧ width = 1 := by
  cases escape with
  | char d w =>
    obtain ⟨rfl, rfl⟩ := Prod.mk.inj (Option.some.inj stands)
    exact .inl rfl
  | lineBreak =>
    obtain ⟨rfl, rfl⟩ := Prod.mk.inj (Option.some.inj stands)
    exact .inr ⟨rfl, rfl, rfl⟩
  | _ => cases stands

theorem within_of_value? {text : List Char} {ended : Bool} {c : Char} {width : Nat}
    (stands : (read text ended).value? = some (c, width)) : 0 < width ∧ width ≤ text.length := by
  have within := read_within text ended
  rcases of_value? stands with found | ⟨found, -, rfl⟩
  · rw [found] at within
    exact within
  · rw [found] at within
    exact ⟨Nat.one_pos, List.length_pos_iff.mpr within⟩

/-- Up to `rest` a text stands for a value: each character stands for itself, or belongs to an
escape. -/
inductive Decodes (rest : List Char) : List Char → List Char → Prop where
  | nothing : Decodes rest rest []
  | plain {c : Char} {text value : List Char} (plain : c ≠ '\\')
      (later : Decodes rest text value) : Decodes rest (c :: text) (c :: value)
  | escape {text value : List Char} {c : Char} {width : Nat}
      (stands : (read text true).value? = some (c, width))
      (later : Decodes rest (text.drop width) value) : Decodes rest ('\\' :: text) (c :: value)

namespace Decodes

variable {rest text value : List Char}

theorem suffix (decodes : Decodes rest text value) : rest <:+ text := by
  induction decodes with
  | nothing => exact List.suffix_rfl
  | plain plain later ih => exact ih.trans (List.suffix_cons _ _)
  | escape stands later ih => exact (ih.trans (List.drop_suffix _ _)).trans (List.suffix_cons _ _)

theorem trans {between more : List Char} (decodes : Decodes between text value)
    (later : Decodes rest between more) : Decodes rest text (value ++ more) := by
  induction decodes with
  | nothing => exact later
  | plain plain _ ih => exact .plain plain ih
  | escape stands _ ih => exact .escape stands ih

/-- What stands behind a line break does not change what the text before it stands for. -/
theorem append (decodes : Decodes rest text value) (whole : WholeLines text) (more : List Char) :
    Decodes (rest ++ more) (text ++ more) value := by
  induction decodes with
  | nothing => exact .nothing
  | plain plain later ih => exact .plain plain (ih whole.tail)
  | @escape text value c width stands later ih =>
    have same := read_append_of_broken (whole.mem_tail (by decide)) more
    have behind : (text ++ more).drop width = text.drop width ++ more :=
      List.drop_append_of_le_length (within_of_value? stands).2
    refine .escape (same ▸ stands) ?_
    rw [List.append_eq, behind]
    exact ih (whole.tail.drop width)

theorem wholeLines (decodes : Decodes [] text value) (whole : WholeLines text) :
    WholeLines value := by
  induction decodes with
  | nothing => exact .inl rfl
  | @plain c text value plain later ih =>
    rcases ih whole.tail with rfl | last
    · cases later with
      | nothing => exact whole
    · exact .inr (by rw [List.getLast?_cons, last]; rfl)
  | @escape text value c width stands later ih =>
    rcases ih (whole.tail.drop width) with rfl | last
    · have inLine := read_inLine text true
      have inside := whole.mem_tail (by decide)
      rcases of_value? stands with found | ⟨-, rfl, -⟩
      · rw [found] at inLine
        have all : text.drop width = [] := by
          generalize text.drop width = left at later
          cases later with
          | nothing => rfl
        rw [InLine, List.take_of_length_le (List.drop_eq_nil_iff.mp all)] at inLine
        exact absurd inside inLine
      · exact .inr rfl
    · exact .inr (by rw [List.getLast?_cons, last]; rfl)

end Decodes

theorem decodeFrom_plain {c : Char} (plain : c ≠ '\\') (offset : Nat) (rest : List Char) :
    decodeFrom offset (c :: rest) = (decodeFrom (offset + 1) rest).map (c :: ·) := by
  rw [decodeFrom, if_neg plain]

theorem decodeFrom_escape {rest : List Char} {c : Char} {width : Nat}
    (stands : (read rest true).value? = some (c, width)) (offset : Nat) :
    decodeFrom offset ('\\' :: rest) =
      (decodeFrom (offset + (1 + width)) (rest.drop width)).map (c :: ·) := by
  rw [decodeFrom, if_pos rfl]
  rcases of_value? stands with found | ⟨found, rfl, rfl⟩
  · simp only [found, Nat.add_assoc]
  · simp only [found]

theorem decodeFrom_malformed {rest : List Char} {width : Nat}
    (wrong : read rest true = .malformed width) (offset : Nat) :
    decodeFrom offset ('\\' :: rest) = .error ⟨offset, 1 + width⟩ := by
  rw [decodeFrom, if_pos rfl, wrong]

/-- Decoding goes on behind what a text stands for. -/
theorem decodeFrom_of_decodes {rest text value : List Char} (decodes : Decodes rest text value)
    (offset : Nat) : decodeFrom offset text =
      (decodeFrom (offset + (text.length - rest.length)) rest).map (value ++ ·) := by
  have map_map {f g : List Char → List Char} (result : Except Fault (List Char)) :
      (result.map f).map g = result.map (g ∘ f) := by
    cases result <;> rfl
  induction decodes generalizing offset with
  | nothing =>
    rw [Nat.sub_self, Nat.add_zero]
    cases decodeFrom offset rest <;> rfl
  | @plain c text value plain later ih =>
    have longer := later.suffix.length_le
    rw [decodeFrom_plain plain, ih, map_map, List.length_cons,
      show offset + 1 + (text.length - rest.length) =
        offset + (text.length + 1 - rest.length) by omega]
    rfl
  | @escape text value c width stands later ih =>
    have longer := later.suffix.length_le
    have short := (within_of_value? stands).2
    rw [List.length_drop] at longer
    rw [decodeFrom_escape stands, ih, map_map, List.length_cons, List.length_drop,
      show offset + (1 + width) + (text.length - width - rest.length) =
        offset + (text.length + 1 - rest.length) by omega]
    rfl

/-- Whole lines stand for a value, or do so up to an escape that is none. -/
theorem decodes_cases {text : List Char} (whole : WholeLines text) :
    (∃ value, Decodes [] text value) ∨
      ∃ behind value width, Decodes ('\\' :: behind) text value ∧
        read behind true = .malformed width := by
  generalize size : text.length = n
  induction n using Nat.strongRecOn generalizing text with
  | ind n ih =>
    cases text with
    | nil => exact .inl ⟨[], .nothing⟩
    | cons c text =>
      rw [List.length_cons] at size
      by_cases backslash : c = '\\'
      · subst backslash
        have complete := read_ne_incomplete (whole.mem_tail (by decide)) true
        rcases (read text true).value?_cases with ⟨c, width, stands⟩ | cut | ⟨width, wrong⟩
        · have shorter : (text.drop width).length < n := by
            rw [List.length_drop]
            omega
          rcases ih _ shorter (whole.tail.drop width) rfl with
            ⟨value, later⟩ | ⟨more, value, w, later, wrong⟩
          · exact .inl ⟨_, .escape stands later⟩
          · exact .inr ⟨more, _, w, .escape stands later, wrong⟩
        · exact absurd cut complete
        · exact .inr ⟨text, [], width, .nothing, wrong⟩
      · rcases ih _ (by omega) whole.tail rfl with
          ⟨value, later⟩ | ⟨more, value, w, later, wrong⟩
        · exact .inl ⟨_, .plain backslash later⟩
        · exact .inr ⟨more, _, w, .plain backslash later, wrong⟩

/-- A fault of whole lines is at the backslash of an escape that is none. -/
theorem decodeFrom_error {text : List Char} (whole : WholeLines text) {offset : Nat} {fault : Fault}
    (faulty : decodeFrom offset text = .error fault) :
    ∃ front behind width, text = front ++ '\\' :: behind ∧
      fault = ⟨offset + front.length, 1 + width⟩ ∧ Offends behind width := by
  rcases decodes_cases whole with ⟨value, decodes⟩ | ⟨behind, value, width, decodes, malformed⟩
  · rw [decodeFrom_of_decodes decodes, decodeFrom] at faulty
    cases faulty
  · obtain ⟨front, rfl⟩ := decodes.suffix
    have length : (front ++ '\\' :: behind).length - ('\\' :: behind).length = front.length := by
      rw [List.length_append]
      omega
    rw [decodeFrom_of_decodes decodes, decodeFrom_malformed malformed, length] at faulty
    exact ⟨front, behind, width, rfl, (Except.error.inj faulty).symm,
      offends_of_malformed malformed⟩

end Escape

end ErlangLexer
