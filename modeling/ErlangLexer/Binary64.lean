/-!
# Finite doubles

A finite non-negative double is its bit pattern: eleven exponent bits over
fifty-two fraction bits, the exponent not all ones. Bit patterns order the numbers.

* `units` measures a number in multiples of 2⁻¹⁰⁷⁴, of which every double is a
  whole number;
* `ofQuotient?` and `ofDecimal?` give the double nearest to an exact value, of
  two equally near the one with an even pattern, and none beyond the greatest.
-/

namespace ErlangLexer

def powerOfTwo (exponent : Nat) : Nat := Nat.pow 2 exponent

def powerOfTen (exponent : Nat) : Nat := Nat.pow 10 exponent

/-- A finite non-negative double by its bit pattern. -/
structure Binary64 where
  bits : Nat
  finite : bits < 2047 * powerOfTwo 52
  deriving DecidableEq

namespace Binary64

def zero : Binary64 := ⟨0, by decide⟩

instance : Inhabited Binary64 := ⟨zero⟩

/-- The value as a multiple of 2⁻¹⁰⁷⁴. Without exponent bits the fraction stands
for itself, with them a leading bit is implied. -/
def units (x : Binary64) : Nat :=
  let exponent := x.bits / powerOfTwo 52
  let fraction := x.bits % powerOfTwo 52
  if exponent = 0 then fraction else (powerOfTwo 52 + fraction) * powerOfTwo (exponent - 1)

/-- The whole number nearest to a quotient, of two equally near the even one. -/
def roundHalfEven (num den : Nat) : Nat :=
  let low := num / den
  let rest := num % den
  if 2 * rest < den || (2 * rest == den && low % 2 == 0) then low else low + 1

/-- The double nearest to `num / den`. The shift leaves fifty-three bits to round;
a carry out of them moves on to the next exponent by itself. -/
def ofQuotient? (num den : Nat) : Option Binary64 :=
  let scaled := num * powerOfTwo 1074
  let shift := (scaled / den).log2 - 52
  let bits := shift * powerOfTwo 52 + roundHalfEven scaled (den * powerOfTwo shift)
  if h : bits < 2047 * powerOfTwo 52 then some ⟨bits, h⟩ else none

/-- The double nearest to `digits` times a power of ten. Exponents far out of
range are decided without computing the power. -/
def ofDecimal? (digits : Nat) (exponent : Int) : Option Binary64 :=
  if digits = 0 then some zero
  else if 400 < exponent then none
  else if exponent < -(digits.log2 + 400 : Int) then some zero
  else ofQuotient? (digits * powerOfTen exponent.toNat) (powerOfTen (-exponent).toNat)

end Binary64

end ErlangLexer
