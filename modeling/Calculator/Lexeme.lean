import Calculator.Failure
import Calculator.Number.Literal
import Calculator.Text.Blank

/-! # Lexemes

Every text can be cut, from left to right and with longest runs, into lexemes.  Tokens are
read off the lexemes; a character outside every class or a run of digits and dots that is no
number stops the reading there.
-/
namespace Calculator

inductive Lexeme where
  | blank (c : Char)
  | mark (c : Char)
  | digits (cs : List Char)
  | word (cs : List Char)
  | stray (c : Char)

namespace Lexeme

def isMark (c : Char) : Bool := "+-*/%^(),".toList.contains c

def text : Lexeme → List Char
  | .blank c | .mark c | .stray c => [c]
  | .digits cs | .word cs => cs

def next (c : Char) (cs : List Char) : Lexeme × List Char :=
  if Text.isBlank c then (.blank c, cs)
  else if isMark c then (.mark c, cs)
  else if Number.isLiteralChar c then
    (.digits (c :: cs.takeWhile Number.isLiteralChar), cs.dropWhile Number.isLiteralChar)
  else if c.isAlpha then (.word (c :: cs.takeWhile Char.isAlphanum), cs.dropWhile Char.isAlphanum)
  else (.stray c, cs)

theorem next_text (c : Char) (cs : List Char) : (next c cs).1.text ++ (next c cs).2 = c :: cs := by
  unfold next
  repeat' split
  all_goals simp [text]

theorem next_length (c : Char) (cs : List Char) : (next c cs).2.length ≤ cs.length := by
  unfold next
  repeat' split
  all_goals simp [(List.dropWhile_sublist _).length_le]

def cut : List Char → List Lexeme
  | [] => []
  | c :: cs => (next c cs).1 :: cut (next c cs).2
termination_by cs => cs.length
decreasing_by exact Nat.lt_succ_of_le (next_length c cs)

def token? (position : Nat) : Lexeme → Except Failure (Option Token)
  | .blank _ => .ok none
  | .mark c => .ok (some (if c = ',' then .comma else .symbol c))
  | .digits cs =>
    match Number.read? cs with
    | some x => .ok (some (.number x))
    | none => .error (.malformedNumber cs position)
  | .word cs => .ok (some (.name cs))
  | .stray c => .error (.strayCharacter c position)

end Lexeme

/-- The tokens read from a line, each with the position of its first character, and the
problem that stopped the reading, if any. -/
structure Scan where
  tokens : List (Token × Nat) := []
  failure : Option Failure := none

namespace Scan

def ofLexemes (position : Nat) : List Lexeme → Scan
  | [] => {}
  | l :: ls =>
    -- Positions count characters from the start of the line.
    match l.token? position with
    | .error e => { failure := some e }
    | .ok none => ofLexemes (position + l.text.length) ls
    | .ok (some t) =>
      let rest := ofLexemes (position + l.text.length) ls
      { rest with tokens := (t, position) :: rest.tokens }

def ofText (cs : List Char) : Scan := ofLexemes 0 (Lexeme.cut cs)

end Scan

def tokenize (cs : List Char) : Except Failure (List Token) :=
  let scan := Scan.ofText cs
  match scan.failure with
  | some e => .error e
  | none => .ok (scan.tokens.map Prod.fst ++ [.eof])

end Calculator
