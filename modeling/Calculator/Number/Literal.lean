/-! # Number literals

A literal is a run of digits and dots with at least one digit and at most one dot.  Its value
is the decimal it spells, rounded once to the nearest number.
-/
namespace Calculator.Number

def isLiteralChar (c : Char) : Bool := c.isDigit || c == '.'

def isLiteral (cs : List Char) : Bool :=
  cs.all isLiteralChar && cs.any Char.isDigit && cs.count '.' ≤ 1

def digitsValue (cs : List Char) : Nat :=
  (cs.filter Char.isDigit).foldl (fun n c => 10 * n + (c.toNat - '0'.toNat)) 0

def places (cs : List Char) : Nat := (cs.dropWhile (· != '.')).length - 1

def read? (cs : List Char) : Option Float :=
  if isLiteral cs then some (Float.ofScientific (digitsValue cs) true (places cs)) else none

end Calculator.Number
