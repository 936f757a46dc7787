/-! # Decimal numerals

Exact positive fractions, rounding of a quotient to the nearest integer, and the
layout of a digit run with its decimal point.
-/
namespace Calculator.Number

def tens (n : Nat) : Nat := Nat.pow 10 n

structure Fraction where
  num : Nat
  den : Nat

namespace Fraction

def binary (m : Nat) (e : Int) : Fraction := ⟨m <<< e.toNat, 1 <<< (-e).toNat⟩

def shift (r : Fraction) (k : Int) : Fraction := ⟨r.num * tens k.toNat, r.den * tens (-k).toNat⟩

def floor (r : Fraction) : Nat := r.num / r.den

/-- The nearest integer; a half goes to the even neighbour. -/
def round (r : Fraction) : Nat :=
  let q := r.num / r.den
  let rest := r.num % r.den
  if 2 * rest < r.den ∨ (2 * rest = r.den ∧ q % 2 = 0) then q else q + 1

/-- The exponent of the leading decimal digit of a positive fraction:
`10 ^ r.magnitude ≤ r < 10 ^ (r.magnitude + 1)`. -/
def magnitude (r : Fraction) : Int :=
  if r.den ≤ r.num then ((Nat.toDigits 10 (r.num / r.den)).length : Int) - 1
  else -((Nat.toDigits 10 ((r.den - 1) / r.num)).length : Int)

end Fraction

def numeral (n : Nat) : List Char := Nat.toDigits 10 n

def intNumeral (n : Int) : List Char :=
  if n < 0 then '-' :: numeral n.natAbs else numeral n.natAbs

def dropZeros (cs : List Char) : List Char := (cs.reverse.dropWhile (· == '0')).reverse

def padded (width n : Nat) : List Char :=
  let ds := numeral n
  List.replicate (width - ds.length) '0' ++ ds

/-- The value `n / 10 ^ places`, without superfluous zeros or point. -/
def positional (n places : Nat) : List Char :=
  let whole := numeral (n / tens places)
  match dropZeros (padded places (n % tens places)) with
  | [] => whole
  | tail => whole ++ '.' :: tail

end Calculator.Number
