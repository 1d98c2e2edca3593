import ErlangLexer.Binary64
import ErlangLexer.Digits
import ErlangLexer.LexicalError
import ErlangLexer.Token
import ErlangLexer.Text.Front
import Mathlib.Data.List.Infix

/-!
# Numbers as they are written

What a number in front of a text comes to, told without a scan:

* `Numeral` are the digits of a base with at most one underscore between neighbours, and
  `numeral` the longest of them in front of a text (`numeral_isLongest`);
* `Binary64.ofLiteral?` is the double of a decimal literal without underscores;
* `Reading.ofText` reads an integer, an integer of some base or a float off a text.
-/

namespace ErlangLexer

/-- The character is a digit of some base. -/
def isDigitOf (base : Nat) (c : Char) : Bool :=
  (digitValue? base c).isSome

/-! ## Numerals -/

/-- One or more digits, with at most one underscore between neighbours. -/
inductive Numeral (base : Nat) : List Char → Prop where
  | digit {d : Char} (digit : isDigitOf base d = true) : Numeral base [d]
  | next {d : Char} {later : List Char} (digit : isDigitOf base d = true)
      (numeral : Numeral base later) : Numeral base (d :: later)
  | separated {d : Char} {later : List Char} (digit : isDigitOf base d = true)
      (numeral : Numeral base later) : Numeral base (d :: '_' :: later)

/-- How a numeral goes on behind a digit. -/
def digitsBehind (base : Nat) : List Char → List Char
  | '_' :: d :: text =>
    if isDigitOf base d then '_' :: d :: digitsBehind base text else []
  | c :: text => if isDigitOf base c then c :: digitsBehind base text else []
  | [] => []

/-- The longest numeral in front of a text, or nothing if there is none. -/
def numeral (base : Nat) : List Char → List Char
  | c :: text => if isDigitOf base c then c :: digitsBehind base text else []
  | [] => []

/-- The longest numeral in front of a text, as a property. -/
structure IsLongestNumeral (base : Nat) (text digits : List Char) : Prop where
  front : digits <+: text
  numeral : digits = [] ∨ Numeral base digits
  longest : ∀ other, Numeral base other → other <+: text → other <+: digits

theorem not_isDigitOf_underscore (base : Nat) : isDigitOf base '_' = false := by
  simp [isDigitOf, digitValue?, isDigit]

/-- The decimal digits are those from `0` to `9`: letters count on from ten. -/
theorem isDigitOf_ten (c : Char) : isDigitOf 10 c = isDigit c := by
  cases decimal : isDigit c with
  | true =>
    have small : c.toNat ≤ 57 := by
      simp only [isDigit, Bool.and_eq_true, decide_eq_true_eq] at decimal
      exact decimal.2
    have less : c.toNat - '0'.toNat < 10 := by
      have : '0'.toNat = 48 := rfl
      omega
    simp only [isDigitOf, digitValue?, decimal, ↓reduceIte, less, Option.isSome_some]
  | false =>
    have letter (n : Nat) : ¬n + 10 < 10 := by omega
    simp only [isDigitOf, digitValue?, decimal, Bool.false_eq_true, ↓reduceIte]
    repeat' split
    all_goals simp_all only [Option.isSome_none]

section Digits

variable {base : Nat}

theorem Numeral.exists_cons {digits : List Char} (spelled : Numeral base digits) :
    ∃ d later, digits = d :: later ∧ isDigitOf base d = true := by
  cases spelled with
  | digit digit | next digit | separated digit => exact ⟨_, _, rfl, digit⟩

theorem ne_underscore_of_digit {c : Char} (digit : isDigitOf base c = true) : c ≠ '_' := by
  rintro rfl
  exact absurd digit (by simp [not_isDigitOf_underscore])

theorem digitsBehind_of_digit {c : Char} (digit : isDigitOf base c = true) (text : List Char) :
    digitsBehind base (c :: text) = c :: digitsBehind base text := by
  rw [digitsBehind.eq_2]
  · exact if_pos digit
  · intro d rest underscore
    exact absurd underscore (ne_underscore_of_digit digit)

theorem numeral_of_digit {c : Char} (digit : isDigitOf base c = true) (text : List Char) :
    numeral base (c :: text) = c :: digitsBehind base text :=
  if_pos digit

theorem numeral_ne_nil {c : Char} (digit : isDigitOf base c = true) (text : List Char) :
    numeral base (c :: text) ≠ [] := by
  rw [numeral_of_digit digit]
  exact List.cons_ne_nil c _

theorem numeral_cases (base : Nat) (text : List Char) :
    numeral base text = [] ∨ ∃ c rest, text = c :: rest ∧ isDigitOf base c = true ∧
      numeral base text = c :: digitsBehind base rest := by
  cases text with
  | nil => exact .inl rfl
  | cons c rest =>
    cases digit : isDigitOf base c with
    | false => exact .inl (if_neg (by simp [digit]))
    | true => exact .inr ⟨c, rest, rfl, digit, numeral_of_digit digit rest⟩

theorem digitsBehind_isPrefix (base : Nat) (text : List Char) :
    digitsBehind base text <+: text := by
  fun_induction digitsBehind base text with
  | case1 d text digit ih => exact ((List.prefix_cons_inj _).mpr ((List.prefix_cons_inj _).mpr ih))
  | case3 c text _ digit ih => exact (List.prefix_cons_inj _).mpr ih
  | case2 | case4 | case5 => exact List.nil_prefix

theorem numeral_isPrefix (base : Nat) (text : List Char) : numeral base text <+: text := by
  obtain none | ⟨c, rest, rfl, -, some⟩ := numeral_cases base text
  · exact none ▸ List.nil_prefix
  · exact some ▸ (List.prefix_cons_inj c).mpr (digitsBehind_isPrefix base rest)

theorem digitsBehind_drop (base : Nat) (text : List Char) :
    digitsBehind base (text.drop (digitsBehind base text).length) = [] := by
  fun_induction digitsBehind base text with
  | case1 d text digit ih => simpa using ih
  | case2 d text other =>
    simp [digitsBehind, other]
  | case3 c text _ digit ih => simpa using ih
  | case4 c text other_end other =>
    simp only [List.length_nil, List.drop_zero]
    rw [digitsBehind.eq_2 _ _ _ other_end]
    exact if_neg other
  | case5 => rfl

theorem numeral_drop (base : Nat) {text : List Char} (some : numeral base text ≠ []) :
    digitsBehind base (text.drop (numeral base text).length) = [] := by
  obtain none | ⟨c, rest, rfl, -, same⟩ := numeral_cases base text
  · exact absurd none some
  · rw [same]
    exact digitsBehind_drop base rest

theorem numeral_drop_drop {text : List Char} {width : Nat}
    (some : numeral base (text.drop width) ≠ []) :
    digitsBehind base (text.drop (width + (numeral base (text.drop width)).length)) = [] := by
  rw [← List.drop_drop]
  exact numeral_drop base some

theorem numeral_spelled {d : Char} (digit : isDigitOf base d = true) (text : List Char) :
    Numeral base (d :: digitsBehind base text) := by
  fun_induction digitsBehind base text generalizing d with
  | case1 e text next ih => exact .separated digit (ih next)
  | case3 c text _ next ih => exact .next digit (ih next)
  | case2 | case4 | case5 => exact .digit digit

theorem prefix_numeral {other text : List Char} (spelled : Numeral base other)
    (front : other <+: text) : other <+: numeral base text := by
  induction spelled generalizing text with
  | digit digit =>
    obtain ⟨rest, rfl⟩ := front
    rw [List.singleton_append, numeral_of_digit digit]
    exact List.prefix_append _ _
  | @next d later digit spelled ih =>
    obtain ⟨rest, rfl⟩ := front
    obtain ⟨e, behind, rfl, next⟩ := spelled.exists_cons
    have longest : e :: behind <+: numeral base (e :: behind ++ rest) :=
      ih (List.prefix_append _ _)
    rw [List.cons_append, numeral_of_digit next] at longest
    rw [List.cons_append, List.cons_append, numeral_of_digit digit, digitsBehind_of_digit next]
    exact (List.prefix_cons_inj d).mpr longest
  | @separated d later digit spelled ih =>
    obtain ⟨rest, rfl⟩ := front
    obtain ⟨e, behind, rfl, next⟩ := spelled.exists_cons
    have longest : e :: behind <+: numeral base (e :: behind ++ rest) :=
      ih (List.prefix_append _ _)
    rw [List.cons_append, numeral_of_digit next] at longest
    have separated : digitsBehind base ('_' :: e :: (behind ++ rest)) =
        '_' :: e :: digitsBehind base (behind ++ rest) := if_pos next
    rw [List.cons_append, List.cons_append, List.cons_append, numeral_of_digit digit, separated]
    exact (List.prefix_cons_inj d).mpr ((List.prefix_cons_inj '_').mpr longest)

theorem Numeral.mem {digits : List Char} (spelled : Numeral base digits) {c : Char}
    (listed : c ∈ digits) : c = '_' ∨ isDigitOf base c = true := by
  induction spelled with
  | digit digit =>
    obtain rfl := List.mem_singleton.mp listed
    exact .inr digit
  | next digit later ih =>
    rcases List.mem_cons.mp listed with rfl | listed
    · exact .inr digit
    · exact ih listed
  | separated digit later ih =>
    rcases List.mem_cons.mp listed with rfl | listed
    · exact .inr digit
    · rcases List.mem_cons.mp listed with rfl | listed
      · exact .inl rfl
      · exact ih listed

theorem numeral_isLongest (base : Nat) (text : List Char) :
    IsLongestNumeral base text (numeral base text) where
  front := numeral_isPrefix base text
  numeral := by
    obtain none | ⟨c, rest, -, digit, some⟩ := numeral_cases base text
    · exact .inl none
    · exact .inr (some ▸ numeral_spelled digit rest)
  longest _ spelled front := prefix_numeral spelled front

theorem mem_numeral {text : List Char} {c : Char} (listed : c ∈ numeral base text) :
    c = '_' ∨ isDigitOf base c = true := by
  rcases (numeral_isLongest base text).numeral with none | spelled
  · rw [none] at listed
    cases listed
  · exact spelled.mem listed

end Digits

/-! ## Values -/

/-- The characters of a number without the underscores. -/
def plain (digits : List Char) : List Char :=
  digits.filter (· != '_')

/-- The value of a numeral. -/
def numeralValue (base : Nat) (digits : List Char) : Nat :=
  digitsValue base (plain digits)

/-- An exponent: perhaps a sign, and decimal digits. -/
def exponentValue : List Char → Int
  | '-' :: digits => -(digitsValue 10 digits : Int)
  | '+' :: digits => digitsValue 10 digits
  | digits => digitsValue 10 digits

/-- The double nearest to a decimal literal: digits, a point, digits, and perhaps an `e` with
an exponent. Beyond the greatest double there is none. -/
def Binary64.ofLiteral? (literal : List Char) : Option Binary64 :=
  let whole := literal.takeWhile isDigit
  let behind := (literal.dropWhile isDigit).drop 1
  let fraction := behind.takeWhile isDigit
  let exponent := (behind.dropWhile isDigit).drop 1
  ofDecimal? (digitsValue 10 (whole ++ fraction)) (exponentValue exponent - fraction.length)

theorem plain_append (digits more : List Char) :
    plain (digits ++ more) = plain digits ++ plain more :=
  List.filter_append digits more

theorem isDigitOf_of_mem_plain {base : Nat} {text : List Char} {c : Char}
    (listed : c ∈ plain (numeral base text)) : isDigitOf base c = true := by
  obtain ⟨listed, other⟩ := List.mem_filter.mp listed
  exact (mem_numeral listed).resolve_left (by simpa using other)

theorem Binary64.ofLiteral?_append {whole fraction behind : List Char}
    (whole_digits : ∀ c ∈ whole, isDigit c = true)
    (fraction_digits : ∀ c ∈ fraction, isDigit c = true)
    (other : ∀ c, behind.head? = some c → isDigit c = false) :
    ofLiteral? (whole ++ '.' :: (fraction ++ behind)) =
      ofDecimal? (digitsValue 10 (whole ++ fraction))
        (exponentValue (behind.drop 1) - fraction.length) := by
  have front {digits rest : List Char} (digit : ∀ c ∈ digits, isDigit c = true)
      (ends : ∀ c, rest.head? = some c → isDigit c = false) :
      (digits ++ rest).takeWhile isDigit = digits ∧ (digits ++ rest).dropWhile isDigit = rest := by
    rw [List.takeWhile_append_of_pos digit, List.dropWhile_append_of_pos digit]
    cases rest with
    | nil => simp
    | cons c rest => simp [ends c rfl]
  have point := front whole_digits (show ∀ c, ('.' :: (fraction ++ behind)).head? = some c →
    isDigit c = false by simp [isDigit])
  have mark := front fraction_digits other
  simp only [ofLiteral?, point, List.drop_succ_cons, List.drop_zero, mark]

/-! ## Readings -/

/-- What a number in front of a text comes to, and how many characters it takes. -/
inductive Reading where
  | token (kind : Kind) (width : Nat)
  | wrong (cause : Cause) (width : Nat)
  deriving DecidableEq

namespace Reading

/-- An integer of some base. Its digits start at `start`, behind the `#`. -/
def based (text : List Char) (base start : Nat) : Reading :=
  let digits := numeral base (text.drop start)
  let stop := start + digits.length
  let loose := runLength '_' (text.drop stop)
  if digits = [] then .wrong (.illegal .integer) start
  else if 0 < loose then .wrong (.illegal .integer) (stop + loose)
  else .token (.integer (numeralValue base digits)) stop

/-- A float that ends at `stop`. -/
def float (text : List Char) (stop : Nat) : Reading :=
  match Binary64.ofLiteral? (plain (text.take stop)) with
  | some x => .token (.float x) stop
  | none => .wrong (.illegal .float) stop

/-- A float whose exponent starts at `start`, behind the `e` and its sign. -/
def exponent (text : List Char) (start : Nat) : Reading :=
  let digits := numeral 10 (text.drop start)
  let stop := start + digits.length
  let loose := runLength '_' (text.drop stop)
  if digits = [] then .wrong (.illegal .float) start
  else if 0 < loose then .wrong (.illegal .float) (stop + loose)
  else float text stop

/-- A float whose fraction stops at `stop`, where an `e` starts its exponent. -/
def behindFraction (text : List Char) (stop : Nat) : Reading :=
  match text.drop stop with
  | 'e' :: behind | 'E' :: behind =>
    if behind.head? = some '+' ∨ behind.head? = some '-' then exponent text (stop + 2)
    else exponent text (stop + 1)
  | _ => float text stop

/-- A float whose fraction starts at `start`, behind the point. -/
def fraction (text : List Char) (start : Nat) : Reading :=
  let stop := start + (numeral 10 (text.drop start)).length
  let loose := runLength '_' (text.drop stop)
  if 0 < loose then .wrong (.illegal .float) (stop + loose) else behindFraction text stop

/-- A number whose whole part stops at `stop`, behind which a `#` or a point and a digit may go
on with it. -/
def behindWhole (text : List Char) (value stop : Nat) : Reading :=
  match text.drop stop with
  | '#' :: _ =>
    if 2 ≤ value ∧ value ≤ 36 then based text value (stop + 1)
    else .wrong (.illegalBase (toString value)) stop
  | '.' :: d :: _ =>
    if isDigit d then fraction text (stop + 1) else .token (.integer value) stop
  | _ => .token (.integer value) stop

/-- The number that a text starts with. -/
def ofText (text : List Char) : Reading :=
  let whole := numeral 10 text
  let stop := whole.length
  let loose := runLength '_' (text.drop stop)
  if 0 < loose then .wrong (.illegal .integer) (stop + loose)
  else behindWhole text (numeralValue 10 whole) stop

end Reading

end ErlangLexer
