import Calculator.Number.Decimal

/-! # Shortest decimal text

The text of a number is the shortest decimal that reads back as it, and of those the
nearest, always written without an exponent.  A finite number `m · 2 ^ e` owns the interval
of reals that round to it; the digits are sought on decimal grids from coarse to fine, and
on each grid only the two neighbours of the value can lie in the interval.
-/
namespace Calculator.Number
open Float.Model

/-- The reals that round to `value`; the ends belong to it when `closed`. -/
structure Basin where
  low : Fraction
  value : Fraction
  high : Fraction
  closed : Bool

/-- The neighbour below a power of two is half as far away as the one above. -/
def Basin.ofBinary (m : Nat) (e : Int) : Basin :=
  let below := if m = 0x10000000000000 ∧ -1074 < e then 1 else 2
  { low := .binary (4 * m - below) (e - 2)
    value := .binary (4 * m) (e - 2)
    high := .binary (4 * m + 2) (e - 2)
    closed := m % 2 == 0 }

def Basin.contains (b : Basin) (c : Nat) (k : Int) : Bool :=
  let low := b.low.shift (-k)
  let high := b.high.shift (-k)
  if b.closed then low.num ≤ c * low.den && c * high.den ≤ high.num
  else low.num < c * low.den && c * high.den < high.num

/-- The grid point of exponent `k` in the basin that is nearest to the value; of two equally
near points the upper one. -/
def Basin.nearest? (b : Basin) (k : Int) : Option Nat :=
  let v := b.value.shift (-k)
  let c := v.floor
  let upper := v.den ≤ 2 * (v.num % v.den)
  match b.contains c k, b.contains (c + 1) k with
  | true, true => some (if upper then c + 1 else c)
  | true, false => some c
  | false, true => some (c + 1)
  | false, false => none

def Basin.shortest (b : Basin) : Nat × Int :=
  let top := b.value.magnitude
  -- The coarsest grid that meets the basin; seventeen digits always suffice.
  let hit := (List.range 17).findSome? fun (i : Nat) =>
    (b.nearest? (top - i)).map fun c => (c, top - (i : Int))
  hit.getD (b.value.shift (16 - top) |>.floor, top - 16)

def signText : UnpackedFloat.Sign → List Char
  | .positive => []
  | .negative => ['-']

/-- The shortest decimal text that reads back as the number, without an exponent. -/
def text (x : Float) : List Char :=
  match x.toModel.unpack with
  | .notANumber => "NaN".toList
  | .infinity s => signText s ++ "inf".toList
  | .zero s => signText s ++ ['0']
  | .finite s m e _ =>
    let (c, k) := (Basin.ofBinary m e).shortest
    signText s ++ positional (c * tens k.toNat) (-k).toNat

end Calculator.Number
