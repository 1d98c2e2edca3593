import ErlangLexer.Proofs.AllText
import ErlangLexer.Proofs.EscapedText
import Mathlib.Data.List.Forall2
import Mathlib.Data.Nat.Digits.Defs

/-!
# How escapes spell characters

The grammar of escapes, told without reading one:

* `DigitRow`: a row of digits and the number it is in its base;
* `Escape.Spelling`: what a character may be spelled with behind a backslash;
* `Escape.CutOff`: the beginnings of spellings that more text may complete
  (`Escape.read_eq_incomplete_iff`);
* `Escape.reads_exactly_the_spellings`: an escape is read off a text exactly when the text starts
  with a spelling that ends there.
-/

namespace ErlangLexer

/-! ## Rows of digits -/

/-- The digits of the bases up to sixteen in the order of their values, with small letters. -/
def smallDigits : List Char :=
  ['0', '1', '2', '3', '4', '5', '6', '7', '8', '9', 'a', 'b', 'c', 'd', 'e', 'f']

/-- The same with capital letters. -/
def capitalDigits : List Char :=
  ['0', '1', '2', '3', '4', '5', '6', '7', '8', '9', 'A', 'B', 'C', 'D', 'E', 'F']

/-- The character is the digit with a value, in a base up to sixteen. -/
def IsDigitFor (base : Nat) (c : Char) (value : Nat) : Prop :=
  value < base ∧ (smallDigits[value]? = some c ∨ capitalDigits[value]? = some c)

/-- The digits, the most significant one first, are the number in a base up to sixteen. -/
def DigitRow (base : Nat) (digits : List Char) (code : Nat) : Prop :=
  ∃ values, List.Forall₂ (IsDigitFor base) digits values ∧ Nat.ofDigits base values.reverse = code

theorem toNat_lt_of_digit {base value : Nat} {c : Char} (digit : digitValue? base c = some value) :
    c.toNat < 128 := by
  unfold digitValue? at digit
  dsimp only at digit
  split at digit
  · rename_i decimal
    simp only [isDigit, Bool.and_eq_true, decide_eq_true_eq] at decimal
    exact Nat.lt_of_le_of_lt decimal.2 (by decide)
  · split at digit
    · rename_i letter
      simp only [Bool.and_eq_true, decide_eq_true_eq] at letter
      exact Nat.lt_of_le_of_lt letter.2 (by decide)
    · split at digit
      · rename_i letter
        simp only [Bool.and_eq_true, decide_eq_true_eq] at letter
        exact Nat.lt_of_le_of_lt letter.2 (by decide)
      · simp at digit

theorem digitValue?_sixteen_iff {c : Char} {value : Nat} :
    digitValue? 16 c = some value ↔ IsDigitFor 16 c value := by
  constructor
  · intro digit
    have listed : ∀ v ∈ digitValue? 16 c,
        smallDigits[v]? = some c ∨ capitalDigits[v]? = some c :=
      of_code_lt (p := fun c => ∀ v ∈ digitValue? 16 c,
        smallDigits[v]? = some c ∨ capitalDigits[v]? = some c) (by decide)
        (toNat_lt_of_digit digit)
    exact ⟨digitValue?_lt digit, listed value digit⟩
  · rintro ⟨within, listed⟩
    have small : ∀ n < 16, smallDigits[n]?.all (digitValue? 16 · == some n) = true := by decide
    have capital : ∀ n < 16, capitalDigits[n]?.all (digitValue? 16 · == some n) = true := by decide
    rcases listed with listed | listed
    · simpa [listed] using small value within
    · simpa [listed] using capital value within

theorem digitValue?_of_le {base more value : Nat} (le : base ≤ more) {c : Char} :
    digitValue? base c = some value ↔ value < base ∧ digitValue? more c = some value := by
  have first (n : Nat) : (if n < base then some n else none) = some value ↔
      value < base ∧ (if n < more then some n else none) = some value := by
    simp only [Option.ite_none_right_eq_some, Option.some.injEq]
    omega
  have none (b : Nat) : (if b < b then some b else none) = none := if_neg (Nat.lt_irrefl b)
  unfold digitValue?
  dsimp only
  by_cases decimal : isDigit c = true
  · simp only [decimal, ↓reduceIte]
    exact first _
  · by_cases small : ('a' ≤ c && c ≤ 'z') = true
    · simp only [decimal, small, Bool.false_eq_true, ↓reduceIte]
      exact first _
    · by_cases capital : ('A' ≤ c && c ≤ 'Z') = true
      · simp only [decimal, small, capital, Bool.false_eq_true, ↓reduceIte]
        exact first _
      · simp [decimal, small, capital]

theorem digitValue?_iff {base : Nat} (small : base ≤ 16) {c : Char} {value : Nat} :
    digitValue? base c = some value ↔ IsDigitFor base c value := by
  rw [digitValue?_of_le small, digitValue?_sixteen_iff]
  constructor
  · rintro ⟨within, -, listed⟩
    exact ⟨within, listed⟩
  · rintro ⟨within, listed⟩
    exact ⟨within, Nat.lt_of_lt_of_le within small, listed⟩

theorem digitsValue_of_forall₂ {base : Nat} {digits : List Char} {values : List Nat}
    (row : List.Forall₂ (fun c value => digitValue? base c = some value) digits values) :
    digitsValue base digits = Nat.ofDigits base values.reverse := by
  have folds (start : Nat) :
      digits.foldl (fun value c => value * base + (digitValue? base c).getD 0) start =
        values.foldl (fun value digit => digit + base * value) start := by
    induction row generalizing start with
    | nil => rfl
    | @cons c digit _ _ found row ih =>
      rw [List.foldl_cons, List.foldl_cons, found, Option.getD_some, ih,
        show start * base + digit = digit + base * start by ring]
  rw [Nat.ofDigits_eq_foldr, List.foldr_reverse]
  exact folds 0

theorem digitRow_iff {base : Nat} (small : base ≤ 16) {digits : List Char} {code : Nat} :
    DigitRow base digits code ↔
      (∀ c ∈ digits, (digitValue? base c).isSome = true) ∧ digitsValue base digits = code := by
  have same : IsDigitFor base = fun c value => digitValue? base c = some value := by
    funext c value
    exact propext (digitValue?_iff small).symm
  unfold DigitRow
  rw [same]
  constructor
  · rintro ⟨values, row, rfl⟩
    refine ⟨?_, digitsValue_of_forall₂ row⟩
    induction row with
    | nil => simp
    | cons found row ih => exact List.forall_mem_cons.mpr ⟨Option.isSome_of_eq_some found, ih⟩
  · rintro ⟨all, rfl⟩
    have row : List.Forall₂ (fun c value => digitValue? base c = some value) digits
        (digits.map fun c => (digitValue? base c).getD 0) := by
      rw [List.forall₂_map_right_iff, List.forall₂_same]
      intro c listed
      obtain ⟨value, found⟩ := Option.isSome_iff_exists.mp (all c listed)
      rw [found, Option.getD_some]
    exact ⟨_, row, (digitsValue_of_forall₂ row).symm⟩

namespace Escape

theorem isOctal_iff {c : Char} : isOctal c = true ↔ (digitValue? 8 c).isSome = true := by
  have same (below : c.toNat < 128) : isOctal c = (digitValue? 8 c).isSome :=
    of_code_lt (p := fun c => isOctal c = (digitValue? 8 c).isSome) (by decide) below
  constructor
  · intro octal
    have below : c.toNat < 128 := by
      simp only [isOctal, Bool.and_eq_true, decide_eq_true_eq] at octal
      exact Nat.lt_of_le_of_lt octal.2 (by decide)
    exact same below ▸ octal
  · intro digit
    obtain ⟨value, found⟩ := Option.isSome_iff_exists.mp digit
    exact same (toNat_lt_of_digit found) ▸ digit

/-! ## The grammar -/

/-- One to three octal digits. -/
structure OctalSpelling (digits : List Char) (code : Nat) : Prop where
  some : digits ≠ []
  few : digits.length ≤ 3
  row : DigitRow 8 digits code

/-- The letters that stand for control characters. -/
def controlLetters : List (Char × Char) :=
  [('n', '\n'), ('r', '\r'), ('t', '\t'), ('v', '\x0b'), ('b', '\x08'), ('f', '\x0c'),
   ('e', '\x1b'), ('s', ' '), ('d', '\x7f')]

/-- Behind a backslash the text spells the character. -/
inductive Spelling : List Char → Char → Prop where
  | octal {digits : List Char} {value : Char} (octal : OctalSpelling digits value.toNat) :
      Spelling digits value
  | hex {high low value : Char} (row : DigitRow 16 [high, low] value.toNat) :
      Spelling ['x', high, low] value
  /-- As many digits as there are, of a character that may stand in source text. -/
  | braced {digits : List Char} {value : Char} (some : digits ≠ [])
      (row : DigitRow 16 digits value.toNat) (text : isText value = true) :
      Spelling ('x' :: '\x7b' :: (digits ++ ['\x7d'])) value
  /-- A letter, or a neighbour of the capitals, has the five low bits of a control character. -/
  | control {c value : Char} (target : '@' ≤ c ∧ c ≤ '_' ∨ 'a' ≤ c ∧ c ≤ 'z')
      (bits : value.toNat = c.toNat % 32) : Spelling ['^', c] value
  | delete : Spelling ['^', '?'] '\x7f'
  | letter {c value : Char} (listed : (c, value) ∈ controlLetters) : Spelling [c] value
  | itself {c : Char} (text : isText c = true) (inline : c ≠ '\n') (octal : isOctal c = false)
      (hex : c ≠ 'x') (caret : c ≠ '^') (plain : ∀ value, (c, value) ∉ controlLetters) :
      Spelling [c] c

/-- Fewer than three octal digits end with the text, or in front of another character. -/
def DigitsEnd (spelling rest : List Char) (ended : Bool) : Prop :=
  (∃ code, OctalSpelling spelling code) → spelling.length < 3 →
    (rest = [] ∧ ended = true) ∨ ∃ c behind, rest = c :: behind ∧ isOctal c = false

/-- The text is a beginning of spellings that more of it may complete. -/
inductive CutOff : List Char → Prop where
  | nothing : CutOff []
  | octal {digits : List Char} {code : Nat} (octal : OctalSpelling digits code)
      (few : digits.length < 3) : CutOff digits
  | hex : CutOff ['x']
  | oneDigit {c : Char} {value : Nat} (digit : IsDigitFor 16 c value) : CutOff ['x', c]
  | openBrace {digits : List Char} {code : Nat} (row : DigitRow 16 digits code) :
      CutOff ('x' :: '\x7b' :: digits)
  | caret : CutOff ['^']

theorem octalSpelling_iff {digits : List Char} {code : Nat} :
    OctalSpelling digits code ↔ digits ≠ [] ∧ digits.length ≤ 3 ∧
      (∀ c ∈ digits, isOctal c = true) ∧ digitsValue 8 digits = code := by
  simp only [isOctal_iff]
  constructor
  · rintro ⟨some, few, row⟩
    exact ⟨some, few, (digitRow_iff (by decide)).mp row⟩
  · rintro ⟨some, few, row⟩
    exact ⟨some, few, (digitRow_iff (by decide)).mpr row⟩

theorem digitRow_pair {high low : Char} {code : Nat} :
    DigitRow 16 [high, low] code ↔ ∃ first second, digitValue? 16 high = some first ∧
      digitValue? 16 low = some second ∧ first * 16 + second = code := by
  rw [digitRow_iff (by decide)]
  simp only [List.forall_mem_cons, Option.isSome_iff_exists, digitsValue, List.foldl_cons,
    List.foldl_nil, Nat.zero_mul, Nat.zero_add]
  constructor
  · rintro ⟨⟨⟨first, one⟩, ⟨second, two⟩, -⟩, rfl⟩
    exact ⟨first, second, one, two, by simp [one, two]⟩
  · rintro ⟨first, second, one, two, rfl⟩
    exact ⟨⟨⟨first, one⟩, ⟨second, two⟩, by simp⟩, by simp [one, two]⟩

theorem ofCode_toNat {value : Char} (text : isText value = true) (width : Nat) :
    ofCode value.toNat width = .char value width := by
  have code : isTextCode value.toNat = true := text
  rw [ofCode, if_pos code, Char.ofNat_toNat]

theorem eq_of_ofCode {code width taken : Nat} {value : Char}
    (found : ofCode code width = .char value taken) :
    code = value.toNat ∧ width = taken ∧ isText value = true := by
  unfold ofCode at found
  split at found
  · rename_i text
    obtain ⟨rfl, rfl⟩ := Escape.char.inj found
    exact ⟨(toNat_ofNat_of_isTextCode text).symm, rfl, isText_ofNat text⟩
  · cases found

theorem OctalSpelling.all {digits : List Char} {code : Nat} (octal : OctalSpelling digits code) :
    ∀ c ∈ digits, isOctal c = true :=
  (octalSpelling_iff.mp octal).2.2.1

theorem OctalSpelling.value {digits : List Char} {code : Nat} (octal : OctalSpelling digits code) :
    digitsValue 8 digits = code :=
  (octalSpelling_iff.mp octal).2.2.2

theorem digitsValue_octal_lt {digits : List Char} (few : digits.length ≤ 3) :
    digitsValue 8 digits < 512 := by
  have bound := digitsValue_lt (show 0 < 8 by decide) digits
  have most : 8 ^ digits.length ≤ 8 ^ 3 := Nat.pow_le_pow_right (by decide) few
  omega

/-! ## What is spelled is read -/

theorem takeWhile_octal {digits rest : List Char} {code : Nat} {ended : Bool}
    (octal : OctalSpelling digits code) (ends : DigitsEnd digits rest ended) :
    ((digits ++ rest).take 3).takeWhile isOctal = digits := by
  by_cases full : digits.length = 3
  · rw [← full, List.take_left, List.takeWhile_eq_self_iff.mpr octal.all]
  · have few : digits.length < 3 := Nat.lt_of_le_of_ne octal.few full
    rw [List.take_append, List.take_of_length_le octal.few,
      List.takeWhile_append_of_pos octal.all]
    rcases ends ⟨code, octal⟩ few with ⟨rfl, -⟩ | ⟨c, behind, rfl, other⟩
    · simp
    · obtain ⟨n, more⟩ : ∃ n, 3 - digits.length = n + 1 := ⟨2 - digits.length, by omega⟩
      rw [more, List.take_succ_cons, List.takeWhile_cons_of_neg (by simp [other]), List.append_nil]

theorem readOctal_of_spelling {digits rest : List Char} {value : Char} {ended : Bool}
    (octal : OctalSpelling digits value.toNat) (ends : DigitsEnd digits rest ended) :
    readOctal (digits ++ rest) ended = .char value digits.length := by
  have small := digitsValue_octal_lt octal.few
  rw [octal.value] at small
  unfold readOctal
  dsimp only
  rw [takeWhile_octal octal ends, octal.value, if_neg, ofCode_of_small (by omega),
    Char.ofNat_toNat]
  intro waits
  simp only [List.drop_left, Bool.and_eq_true, decide_eq_true_eq, List.isEmpty_iff,
    Bool.not_eq_true'] at waits
  obtain ⟨⟨few, rfl⟩, open_end⟩ := waits
  rcases ends ⟨_, octal⟩ few with ⟨-, last⟩ | ⟨c, behind, wrong, -⟩
  · rw [open_end] at last
    cases last
  · cases wrong

theorem control?_of_target {c value : Char} (target : '@' ≤ c ∧ c ≤ '_' ∨ 'a' ≤ c ∧ c ≤ 'z')
    (bits : value.toNat = c.toNat % 32) : control? c = some value := by
  have other : c ≠ '?' := by
    rintro rfl
    revert target
    decide
  have listed : (('@' ≤ c && c ≤ '_') || ('a' ≤ c && c ≤ 'z')) = true := by
    simpa only [Bool.or_eq_true, Bool.and_eq_true, decide_eq_true_eq] using target
  rw [control?, if_neg other, if_pos listed, ← bits, Char.ofNat_toNat]

theorem named_of_listed : ∀ pair ∈ controlLetters,
    named pair.1 = pair.2 ∧ isOctal pair.1 = false ∧ pair.1 ≠ 'x' ∧ pair.1 ≠ '^' ∧
      pair.1 ≠ '\n' ∧ isText pair.1 = true := by
  decide

theorem named_cases (c : Char) :
    (c, named c) ∈ controlLetters ∨ named c = c ∧ ∀ value, (c, value) ∉ controlLetters := by
  by_cases listed : c ∈ controlLetters.map Prod.fst
  · left
    obtain ⟨pair, member, rfl⟩ := List.mem_map.mp listed
    rw [(named_of_listed pair member).1]
    exact member
  · right
    constructor
    · unfold named
      split
      all_goals first | rfl | exact absurd (by decide) listed
    · intro value member
      exact listed (List.mem_map_of_mem (f := Prod.fst) member)

theorem read_of_spelling {spelling rest : List Char} {value : Char} {ended : Bool}
    (spelled : Spelling spelling value) (ends : DigitsEnd spelling rest ended) :
    read (spelling ++ rest) ended = .char value spelling.length := by
  cases spelled with
  | octal octal =>
    have complete := readOctal_of_spelling octal ends
    obtain ⟨c, more, rfl⟩ := List.exists_cons_of_ne_nil octal.some
    rw [List.cons_append] at complete ⊢
    rw [(Reads.octal (octal.all c List.mem_cons_self)).eq, complete]
  | @hex high low _ row =>
    obtain ⟨first, second, one, two, code⟩ := digitRow_pair.mp row
    have below := digitValue?_lt one
    have below' := digitValue?_lt two
    rw [List.cons_append, List.cons_append, List.cons_append, (Reads.twoDigits one two).eq, code,
      ofCode_of_small (by omega), Char.ofNat_toNat]
    rfl
  | @braced digits _ some row text =>
    obtain ⟨all, code⟩ := (digitRow_iff (by decide)).mp row
    have close : (digitValue? 16 '\x7d').isSome = false := by decide
    rw [List.cons_append, List.cons_append, List.append_assoc, List.singleton_append,
      (Reads.braced all close).eq, if_pos (by simpa using some), code, ofCode_toNat text]
    simp
  | control target bits =>
    exact (Reads.control (control?_of_target target bits)).eq
  | delete => exact (Reads.control (by decide)).eq
  | @letter c _ listed =>
    obtain ⟨same, octal, hex, caret, inline, text⟩ := named_of_listed _ listed
    rw [List.singleton_append, (Reads.plain octal hex caret inline text).eq, same]
    rfl
  | itself text inline octal hex caret plain =>
    rw [List.singleton_append, (Reads.plain octal hex caret inline text).eq]
    rcases named_cases value with listed | ⟨same, -⟩
    · exact absurd listed (plain _)
    · rw [same]
      rfl

/-! ## What is read is spelled -/

theorem spelling_of_readOctal {c value : Char} {rest : List Char} {ended : Bool} {width : Nat}
    (octal : isOctal c = true) (found : readOctal (c :: rest) ended = .char value width) :
    OctalSpelling ((c :: rest).take width) value.toNat ∧ isText value = true ∧
      ∀ other code, other <+: c :: rest → OctalSpelling other code → other.length ≤ width := by
  unfold readOctal at found
  dsimp only at found
  have front : ((c :: rest).take 3).takeWhile isOctal <+: c :: rest :=
    (List.takeWhile_prefix isOctal).trans (List.take_prefix 3 _)
  have few : (((c :: rest).take 3).takeWhile isOctal).length ≤ 3 :=
    (List.takeWhile_sublist _).length_le.trans (List.length_take_le 3 _)
  have some : ((c :: rest).take 3).takeWhile isOctal ≠ [] := by simp [octal]
  have all : ∀ d ∈ ((c :: rest).take 3).takeWhile isOctal, isOctal d = true :=
    fun d listed => List.mem_takeWhile_imp listed
  have longest (other : List Char) (before : other <+: c :: rest) (short : other.length ≤ 3)
      (digits : ∀ d ∈ other, isOctal d = true) :
      other <+: ((c :: rest).take 3).takeWhile isOctal := by
    have taken : other <+: (c :: rest).take 3 := List.prefix_take_iff.mpr ⟨before, short⟩
    obtain ⟨more, same⟩ := taken
    rw [← same, List.takeWhile_append_of_pos digits]
    exact List.prefix_append _ _
  generalize ((c :: rest).take 3).takeWhile isOctal = digits at *
  split at found
  · cases found
  · obtain ⟨value, rfl, text⟩ := eq_of_ofCode found
    rw [← List.prefix_iff_eq_take.mp front]
    refine ⟨octalSpelling_iff.mpr ⟨some, few, all, value⟩, text, ?_⟩
    intro other code before octal
    exact (longest other before octal.few octal.all).length_le

theorem target_of_control? {c value : Char} (found : control? c = some value) :
    Spelling ['^', c] value := by
  unfold control? at found
  split at found
  · rename_i delete
    obtain rfl := Option.some.inj found
    subst delete
    exact .delete
  · split at found
    · rename_i target
      obtain rfl := Option.some.inj found
      have code : isTextCode (c.toNat % 32) = true := by
        simp only [isTextCode, Bool.or_eq_true, decide_eq_true_eq]
        omega
      refine .control ?_ (toNat_ofNat_of_isTextCode code)
      simpa only [Bool.or_eq_true, Bool.and_eq_true, decide_eq_true_eq] using target
    · cases found

theorem spelling_of_read {text : List Char} {ended : Bool} {value : Char} {width : Nat}
    (found : read text ended = .char value width) :
    Spelling (text.take width) value ∧ isText value = true := by
  have reads := reads text ended
  rw [found] at reads
  generalize same : Escape.char value width = escape at reads
  cases reads with
  | nothing | hex | openBrace | noDigit | oneDigit | noSecond | caret | noControl | lineBreak
  | foreign => cases same
  | octal octal =>
    obtain ⟨spelled, text, -⟩ := spelling_of_readOctal octal same.symm
    exact ⟨.octal spelled, text⟩
  | @braced digits rest c all other =>
    split at same
    · rename_i closed
      obtain ⟨rfl, some⟩ : c = '\x7d' ∧ digits ≠ [] := by simpa using closed
      obtain ⟨code, rfl, text⟩ := eq_of_ofCode same.symm
      have taken : ('x' :: '\x7b' :: (digits ++ '\x7d' :: rest)).take (digits.length + 3) =
          'x' :: '\x7b' :: (digits ++ ['\x7d']) := by
        rw [List.take_succ_cons, List.take_succ_cons, List.take_append]
        simp
      rw [taken]
      exact ⟨.braced some ((digitRow_iff (by decide)).mpr ⟨all, code⟩) text, text⟩
    · cases same
  | twoDigits first second =>
    obtain ⟨code, rfl, text⟩ := eq_of_ofCode same.symm
    exact ⟨.hex (digitRow_pair.mpr ⟨_, _, first, second, code⟩), text⟩
  | control control =>
    obtain ⟨rfl, rfl⟩ := Escape.char.inj same
    exact ⟨target_of_control? control, (isText_of_char found).1⟩
  | @plain c _ octal hex caret inline text =>
    obtain ⟨rfl, rfl⟩ := Escape.char.inj same
    refine ⟨?_, isText_named text⟩
    rcases named_cases c with listed | ⟨itself, plain⟩
    · exact .letter listed
    · rw [itself]
      exact .itself text inline octal hex caret plain

theorem longest_octal_of_read {text : List Char} {ended : Bool} {value : Char} {width code : Nat}
    (found : read text ended = .char value width) (octal : OctalSpelling (text.take width) code)
    {other : List Char} {more : Nat} (before : other <+: text)
    (spelled : OctalSpelling other more) : other.length ≤ width := by
  cases text with
  | nil => cases found
  | cons c rest =>
    obtain ⟨n, rfl⟩ : ∃ n, width = n + 1 := by
      cases width with
      | zero => exact absurd List.take_zero octal.some
      | succ n => exact ⟨n, rfl⟩
    have first : isOctal c = true := octal.all c (by simp)
    rw [(Reads.octal first).eq] at found
    exact (spelling_of_readOctal first found).2.2 other more before spelled

/-- Behind a backslash a character is read if and only if the text starts with a spelling of it
that ends there. What stands behind the spelling does not matter, except that octal digits are
read as far as they go. -/
theorem reads_exactly_the_spellings :
    (∀ spelling value rest ended, Spelling spelling value → DigitsEnd spelling rest ended →
      read (spelling ++ rest) ended = .char value spelling.length) ∧
    ∀ text ended value width, read text ended = .char value width →
      width ≤ text.length ∧ Spelling (text.take width) value ∧ isText value = true ∧
      ∀ code, OctalSpelling (text.take width) code →
        ∀ other more, other <+: text → OctalSpelling other more → other.length ≤ width := by
  constructor
  · intro spelling value rest ended spelled ends
    exact read_of_spelling spelled ends
  · intro text ended value width found
    have within := read_within text ended
    rw [found] at within
    obtain ⟨spelled, inText⟩ := spelling_of_read found
    refine ⟨within.2, spelled, inText, ?_⟩
    intro code octal other more before spelled
    exact longest_octal_of_read found octal before spelled

/-- Two octal digits end in front of an eight, and leading zeros in braces count for nothing. -/
theorem reads_digits_in_front_of_others :
    (read ['4', '1', '8'] false = .char '!' 2 ∧
      ∀ other more, other <+: ['4', '1', '8'] → OctalSpelling other more → other.length ≤ 2) ∧
    read ['x', '\x7b', '0', '2', '1', '\x7d', '1'] false = .char '!' 6 := by
  have two : OctalSpelling ['4', '1'] '!'.toNat :=
    octalSpelling_iff.mpr ⟨by decide, by decide, by simp [isOctal], by decide⟩
  have ends : DigitsEnd ['4', '1'] ['8'] false := by
    intro _ _
    exact .inr ⟨'8', [], rfl, by decide⟩
  have read_two : read ['4', '1', '8'] false = .char '!' 2 :=
    reads_exactly_the_spellings.1 ['4', '1'] '!' ['8'] false (.octal two) ends
  refine ⟨⟨read_two, ?_⟩, ?_⟩
  · exact (reads_exactly_the_spellings.2 _ _ _ _ read_two).2.2.2 _ two
  · have row : DigitRow 16 ['0', '2', '1'] '!'.toNat :=
      (digitRow_iff (by decide)).mpr ⟨by simp [digitValue?, isDigit], by decide⟩
    have braced := Spelling.braced (List.cons_ne_nil _ _) row (by decide)
    refine reads_exactly_the_spellings.1 _ '!' ['1'] false braced ?_
    rintro ⟨code, octal⟩
    exact absurd (octal.all 'x' List.mem_cons_self) (by decide)

/-! ## What more text may complete -/

theorem cutOff_of_incomplete {text : List Char} (waits : read text false = .incomplete) :
    CutOff text := by
  have reads := reads text false
  rw [waits] at reads
  generalize same : Escape.incomplete = escape at reads
  cases reads with
  | noDigit | noSecond | control | noControl | lineBreak | plain | foreign => cases same
  | nothing => exact .nothing
  | @octal c rest octal =>
    obtain ⟨digits, few⟩ := octal_of_incomplete same.symm
    have all : ∀ d ∈ c :: rest, isOctal d = true := by
      rw [← digits]
      exact fun d listed => List.mem_takeWhile_imp listed
    exact .octal (octalSpelling_iff.mpr ⟨List.cons_ne_nil _ _, by omega, all, rfl⟩) few
  | hex => exact .hex
  | openBrace all => exact .openBrace ((digitRow_iff (by decide)).mpr ⟨all, rfl⟩)
  | braced =>
    split at same
    · exact absurd same.symm (ofCode_ne_incomplete _ _)
    · cases same
  | oneDigit digit => exact .oneDigit ((digitValue?_iff (by decide)).mp digit)
  | twoDigits => exact absurd same.symm (ofCode_ne_incomplete _ _)
  | caret => exact .caret

theorem incomplete_of_cutOff {text : List Char} (cut : CutOff text) :
    read text false = .incomplete := by
  cases cut with
  | nothing | hex | caret => rfl
  | octal octal few =>
    obtain ⟨c, rest, rfl⟩ := List.exists_cons_of_ne_nil octal.some
    have whole : ((c :: rest).take 3).takeWhile isOctal = c :: rest := by
      rw [List.take_of_length_le octal.few, List.takeWhile_eq_self_iff.mpr octal.all]
    rw [(Reads.octal (octal.all c List.mem_cons_self)).eq]
    unfold readOctal
    dsimp only
    rw [whole, List.drop_length, if_pos (by simpa using few)]
  | oneDigit digit => exact (Reads.oneDigit ((digitValue?_iff (by decide)).mpr digit)).eq
  | openBrace row => exact (Reads.openBrace ((digitRow_iff (by decide)).mp row).1).eq

/-- An escape is waited for in front of what cuts off a spelling. -/
theorem read_eq_incomplete_iff {text : List Char} :
    read text false = .incomplete ↔ CutOff text :=
  ⟨cutOff_of_incomplete, incomplete_of_cutOff⟩

end Escape
end ErlangLexer
