import Calculator.Number.Shortest

/-! # Tokens

What a line is made of, and how a token is written in a message.
-/
namespace Calculator

/-- Parentheses are operator characters, as in `+ - * / % ^ ( )`. -/
inductive Token where
  | number (value : Float)
  | name (text : List Char)
  | symbol (c : Char)
  | comma
  | eof

namespace Token

inductive Kind where
  | number
  | name
  | symbol
  | comma
  | eof
  deriving DecidableEq

def Kind.label : Kind → List Char
  | .number => "NUMBER".toList
  | .name => "IDENTIFIER".toList
  | .symbol => "OPERATOR".toList
  | .comma => "COMMA".toList
  | .eof => "EOF".toList

def kind : Token → Kind
  | .number _ => .number
  | .name _ => .name
  | .symbol _ => .symbol
  | .comma => .comma
  | .eof => .eof

def isSymbol (c : Char) : Token → Bool
  | .symbol d => d == c
  | _ => false

def text : Token → List Char
  | .number x => Number.text x
  | .name n => n
  | .symbol c => [c]
  | .comma => [',']
  | .eof => []

def describe : Token → List Char
  | .eof => '<' :: Kind.eof.label ++ ['>']
  | t => '<' :: t.kind.label ++ ": ".toList ++ t.text ++ ['>']

end Token

end Calculator
