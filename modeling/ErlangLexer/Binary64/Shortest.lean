import ErlangLexer.Binary64

/-!
# Shortest decimals

A double is written with the fewest digits that read back as the same double, and
of those the nearest to its value. Numbers from 10⁻⁴ up to 10¹⁶ are positional with
at least one digit behind the point, all others scientific without padding.
-/

namespace ErlangLexer

/-- A whole number times a power of ten. -/
structure Decimal where
  digits : Nat
  exponent : Int
  deriving DecidableEq

namespace Decimal

/-- The digits that count: no zeros at the end. -/
def significant (d : Decimal) : List Char :=
  ((Nat.toDigits 10 d.digits).reverse.dropWhile (· == '0')).reverse

/-- Where the decimal point stands, counted from the front of the digits. -/
def point (d : Decimal) : Int :=
  d.exponent + (Nat.toDigits 10 d.digits).length

def zeros (count : Int) : List Char :=
  List.replicate count.toNat '0'

def positional (digits : List Char) (point : Int) : List Char :=
  if point ≤ 0 then '0' :: '.' :: zeros (-point) ++ digits
  else if digits.length ≤ point then digits ++ zeros (point - digits.length) ++ ['.', '0']
  else digits.take point.toNat ++ '.' :: digits.drop point.toNat

def scientific (digits : List Char) (point : Int) : List Char :=
  let fraction := digits.drop 1
  digits.take 1 ++ (if fraction.isEmpty then [] else '.' :: fraction) ++
    'e' :: (toString (point - 1)).toList

/-- The decimal as text. -/
def render (d : Decimal) : String :=
  if d.digits = 0 then "0.0"
  else if -3 ≤ d.point ∧ d.point ≤ 16 then String.ofList (positional d.significant d.point)
  else String.ofList (scientific d.significant d.point)

end Decimal

namespace Binary64

/-- The power of ten at the leading digit. No positive double is below 10⁻³²⁴. -/
def magnitude (x : Binary64) : Int :=
  (Nat.toDigits 10 (x.units * powerOfTen 324 / powerOfTwo 1074)).length - 325

/-- The nearer of the two neighbours of `x` among the decimals of `count` digits
that reads back as `x`; halfway between them the greater one is tried first. -/
def atDigits? (x : Binary64) (count : Nat) : Option Decimal :=
  let exponent := x.magnitude + 1 - count
  let num := x.units * powerOfTen (-exponent).toNat
  let den := powerOfTwo 1074 * powerOfTen exponent.toNat
  let low := num / den
  let candidates := if den ≤ 2 * (num % den) then [low + 1, low] else [low, low + 1]
  (candidates.find? fun digits => ofDecimal? digits exponent == some x).map (⟨·, exponent⟩)

/-- The shortest decimal that reads back as `x`. Seventeen digits always do, so the
exact expansion behind them only makes the search total. -/
def shortest (x : Binary64) : Decimal :=
  if x.bits = 0 then ⟨0, 0⟩
  else ((List.range' 1 17).findSome? x.atDigits?).getD ⟨x.units * Nat.pow 5 1074, -1074⟩

/-- The double in its shortest form. -/
def render (x : Binary64) : String :=
  x.shortest.render

end Binary64

end ErlangLexer
