import Calculator.Token
import Calculator.Operation

/-! # Failures

An evaluation stops at the first problem, so a failure names exactly one.
-/
namespace Calculator

inductive Expected where
  | kind (k : Token.Kind)
  | symbol (c : Char)
  | operand

def Expected.text : Expected → List Char
  | .kind k => k.label
  | .symbol c => ['\'', c, '\'']
  | .operand => "a number, function, or '('".toList

inductive Failure where
  | strayCharacter (c : Char) (position : Nat)
  | malformedNumber (text : List Char) (position : Nat)
  | unexpected (expected : Expected) (found : Token)
  | undefinedFunction (name : List Char)
  | divisionByZero
  | modulusByZero
  | domain (operation : Operation)
  | overflow (operation : Operation)
  | nestingTooDeep (limit : Nat)

namespace Failure

inductive Kind where
  | lexical
  | grammatical
  | semantic
  deriving DecidableEq

def kind : Failure → Kind
  | .strayCharacter .. | .malformedNumber .. => .lexical
  | .unexpected .. | .nestingTooDeep _ => .grammatical
  | _ => .semantic

def message : Failure → List Char
  | .strayCharacter c p =>
    "invalid character '".toList ++ c :: "' at position ".toList ++ Number.numeral p
  | .malformedNumber cs p =>
    "invalid number literal '".toList ++ cs ++ "' at position ".toList ++ Number.numeral p
  | .unexpected e t => "expected ".toList ++ e.text ++ ", but got ".toList ++ t.describe
  | .undefinedFunction n => "undefined function: ".toList ++ n
  | .divisionByZero => "division by zero".toList
  | .modulusByZero => "modulus by zero".toList
  | .domain o => "math domain error in ".toList ++ o.text
  | .overflow o => "numeric overflow in ".toList ++ o.text
  | .nestingTooDeep limit =>
    "expression nested deeper than ".toList ++ Number.numeral limit ++ " levels".toList

end Failure

namespace Operation

def refusal? (o : Operation) : Option Failure :=
  match o with
  | .binary _ .div y => if y == 0 then some .divisionByZero else none
  | .binary _ .rem y => if y == 0 then some .modulusByZero else none
  | .binary x .pow y => if x == 0 && y < 0 then some (.domain o) else none
  | _ => none

def overflows (result : Float) : Operation → Bool
  | .binary x .pow y => result.isInf && x.isFinite && y.isFinite
  | _ => false

/-- The value of an operation, or why it has none.  A NaN that does not come from a NaN
operand means that there is no real value. -/
def perform (lib : Elementary) (o : Operation) : Except Failure Float :=
  match o.refusal? with
  | some e => .error e
  | none =>
    let result := o.value lib
    if result.isNaN && o.operands.all (!·.isNaN) then .error (.domain o)
    else if o.overflows result then .error (.overflow o)
    else .ok result

end Operation

end Calculator
