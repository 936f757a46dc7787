import Calculator.Text.Blank

/-! # Requests

A line asks for an expression, and with the word `details` before or behind it also for the
steps of its evaluation.
-/
namespace Calculator

structure Request where
  detailed : Bool
  expression : List Char

namespace Request

def keyword : List Char := "details".toList

/-- The keyword may be in any letter case and is set off by a space; before the expression it
takes precedence. -/
def ofLine (line : List Char) : Request :=
  let n := keyword.length + 1
  if Text.sameLetters line keyword then ⟨true, []⟩
  else if Text.sameLetters (line.take n) (keyword ++ [' ']) then ⟨true, Text.trim (line.drop n)⟩
  else if Text.sameLetters (line.drop (line.length - n)) (' ' :: keyword) then
    ⟨true, Text.trim (line.take (line.length - n))⟩
  else ⟨false, line⟩

end Request

end Calculator
