import Calculator.Text.Blank

/-! # Echoed expressions

An expression is echoed with one space around binary operators, whatever blanks were typed.
-/
namespace Calculator.Echo

def isOperator (c : Char) : Bool := "+-*/^%".toList.contains c

/-- Whether a space has to follow the character before an operator or a parenthesis.  The null
character stands for the start of the line. -/
def sticks (last : Char) : Bool := last != ' ' && last != '\x00' && last != '('

/-- Spaces the characters of an expression, behind the character `last`; `named` tells that a
parenthesis would open the argument of a name. -/
def spaced (last : Char) (named : Bool) : List Char → List Char
  | [] => []
  | c :: cs =>
    if isOperator c then
      (if sticks last then [' ', c, ' '] else [c, ' ']) ++ spaced ' ' named cs
    else if c == '(' then
      (if !named && sticks last then [' ', c] else [c]) ++ spaced c false cs
    else if c == ')' then c :: spaced c named cs
    else if c == ',' then c :: ' ' :: spaced c named cs
    else if Text.isBlank c then spaced last named cs
    else
      (if last == ')' then [' ', c] else [c]) ++
        spaced c (if c.isAlpha then true else named && c.isDigit) cs

def format (cs : List Char) : List Char := Text.unwords (Text.words (spaced '\x00' false cs))

end Calculator.Echo
