import Calculator.Text.Ranges

/-! # Quoted text

Text and single characters in quotes, as log records show them.  Characters without a visible
form and combining marks are written by their code points.
-/
namespace Calculator.Text

def codePoint (c : Char) : List Char :=
  ['\\', 'u', '\x7b'] ++ Nat.toDigits 16 c.toNat ++ ['\x7d']

def escaped (quote c : Char) : List Char :=
  if c == quote || c == '\\' then ['\\', c]
  else match c with
    | '\x00' => ['\\', '0']
    | '\t' => ['\\', 't']
    | '\r' => ['\\', 'r']
    | '\n' => ['\\', 'n']
    | _ => if isVisible c && !isCombining c then [c] else codePoint c

def quoted (cs : List Char) : List Char := '"' :: cs.flatMap (escaped '"') ++ ['"']

def quotedChar (c : Char) : List Char := '\'' :: escaped '\'' c ++ ['\'']

end Calculator.Text
