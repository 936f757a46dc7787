import Calculator.Number.Shortest
import Calculator.Number.Remainder

/-! # Operations

The built-in functions, the binary operators, and a single application of either to numbers.
The elementary functions are a parameter: nothing about the calculator depends on which real
functions they approximate.
-/
namespace Calculator

structure Elementary where
  sin : Float → Float
  cos : Float → Float
  tan : Float → Float
  pow : Float → Float → Float

def Elementary.native : Elementary := ⟨Float.sin, Float.cos, Float.tan, Float.pow⟩

inductive Function where
  | sin
  | cos
  | tan
  deriving DecidableEq

namespace Function

def all : List Function := [.sin, .cos, .tan]

def name : Function → List Char
  | .sin => "sin".toList
  | .cos => "cos".toList
  | .tan => "tan".toList

def ofName? (n : List Char) : Option Function := all.find? (·.name == n)

def value (lib : Elementary) : Function → Float → Float
  | .sin => lib.sin
  | .cos => lib.cos
  | .tan => lib.tan

end Function

inductive Operator where
  | add
  | sub
  | mul
  | div
  | rem
  | pow
  deriving DecidableEq

namespace Operator

def symbol : Operator → Char
  | .add => '+'
  | .sub => '-'
  | .mul => '*'
  | .div => '/'
  | .rem => '%'
  | .pow => '^'

def all : List Operator := [.add, .sub, .mul, .div, .rem, .pow]

def ofSymbol? (c : Char) : Option Operator := all.find? (·.symbol == c)

def level : Operator → Nat
  | .add | .sub => 1
  | .mul | .div | .rem => 2
  | .pow => 3

/-- Whether an operator whose right operand is complete is applied before the operator that
follows it.  Powers associate to the right, all others to the left. -/
def yieldsTo (op next : Operator) : Bool :=
  op.level < next.level || (op.level == next.level && op == .pow)

def value (lib : Elementary) : Operator → Float → Float → Float
  | .add => (· + ·)
  | .sub => (· - ·)
  | .mul => (· * ·)
  | .div => (· / ·)
  | .rem => Number.remainder
  | .pow => lib.pow

end Operator

inductive Operation where
  | binary (left : Float) (op : Operator) (right : Float)
  | call (f : Function) (arg : Float)

namespace Operation

def operands : Operation → List Float
  | .binary x _ y => [x, y]
  | .call _ x => [x]

def value (lib : Elementary) : Operation → Float
  | .binary x op y => op.value lib x y
  | .call f x => f.value lib x

/-- Negative operands stand in parentheses, so that `-8 ^ 0.5` cannot read as `-(8 ^ 0.5)`. -/
def operandText (x : Float) : List Char :=
  match Number.text x with
  | '-' :: cs => '(' :: '-' :: cs ++ [')']
  | cs => cs

def text : Operation → List Char
  | .binary x op y => operandText x ++ [' ', op.symbol, ' '] ++ operandText y
  | .call f x => f.name ++ '(' :: operandText x ++ [')']

end Operation

end Calculator
