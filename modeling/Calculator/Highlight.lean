import Calculator.Operation
import Calculator.Echo
import Calculator.Number.Literal

/-! # Highlighting

The parts of an echoed line and the role in which each is coloured.
-/
namespace Calculator

inductive Highlight.Colour where
  | lightBlue
  | yellow
  | lightGreen
  | cyan

structure Highlight.Style where
  colour : Option Highlight.Colour
  bold : Bool

/-- What a part of a line is.  A space is never coloured, all that has no role of its own takes
the style of the line. -/
inductive Highlight.Role where
  | function
  | number
  | operator
  | space
  | other
  deriving DecidableEq

structure Highlight.Span where
  text : List Char
  role : Highlight.Role

namespace Highlight

def Role.style (base : Style) : Role → Style
  | .function => ⟨some .lightBlue, true⟩
  | .number => ⟨some .lightGreen, false⟩
  | .operator => ⟨some .yellow, true⟩
  | .space => ⟨none, false⟩
  | .other => base

inductive Run where
  | word
  | number

def Run.extends : Run → Char → Bool
  | .word, c => c.isAlphanum
  | .number, c => Number.isLiteralChar c

def Run.start? (c : Char) : Option Run :=
  if c.isAlpha then some .word else if Number.isLiteralChar c then some .number else none

def Run.span (text : List Char) : Run → Span
  | .word => ⟨text, if (Function.ofName? text).isSome then .function else .other⟩
  | .number => ⟨text, .number⟩

def single (c : Char) : Span :=
  ⟨[c], if Echo.isOperator c then .operator else if c == ' ' then .space else .other⟩

def close : Option (Run × List Char) → List Span
  | none => []
  | some (run, seen) => [run.span seen.reverse]

/-- The parts of a line behind a part that may still grow, whose characters are newest first. -/
def parts (current : Option (Run × List Char)) : List Char → List Span
  | [] => close current
  | c :: cs =>
    if current.any (·.1.extends c) then
      parts (current.map fun (run, seen) => (run, c :: seen)) cs
    else
      close current ++ match Run.start? c with
        | some run => parts (some (run, [c])) cs
        | none => single c :: parts none cs

def spans (line : List Char) : List Span := parts none line

end Highlight

end Calculator
