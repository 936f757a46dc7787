import Calculator.Number.Shortest

/-! # Displayed results

Results are shown with at most six decimal places, and in exponent notation with six places
after the leading digit when they are very large or very small.  Both round the exact binary
value, a half going to the even neighbour.
-/
namespace Calculator.Number
open Float.Model

def isExtreme (x : Float) : Bool := 1e10 < x.abs || (x.abs < 1e-5 && x != 0)

def fixed (r : Fraction) : List Char := positional (r.shift 6).round 6

/-- One digit, six places and the exponent; rounding up to ten moves the exponent. -/
def scientific (r : Fraction) : List Char :=
  let top := r.magnitude
  let n := (r.shift (6 - top)).round
  let (n, top) := if n = tens 7 then (tens 6, top + 1) else (n, top)
  numeral (n / tens 6) ++ '.' :: padded 6 (n % tens 6) ++ 'e' :: intNumeral top

/-- The text of a result on the screen; a zero has no sign. -/
def display (x : Float) : List Char :=
  match x.toModel.unpack with
  | .finite s m e _ =>
    let r := Fraction.binary m e
    signText s ++ if isExtreme x then scientific r else fixed r
  | .zero _ => ['0']
  | _ => text x

end Calculator.Number
