import Calculator.Screen.Cell
import Calculator.Wrap

/-! # Paragraphs

Lines of text that are wrapped between words.  Spaces inside a line are kept as they are; at the
start of a line, also of one that is made by wrapping, they are not shown.  It is the drawing
library that wraps them; its rules are assumptions, stated here as definitions.
-/
namespace Calculator.Screen
variable [Text.Metric]

def gaps : List Char → List (List Char × List Char)
  | [] => []
  | c :: cs =>
    match Text.isBlank c, gaps cs with
    | true, [] => []
    | true, (gap, word) :: rest => (c :: gap, word) :: rest
    | false, ([], word) :: rest => ([], c :: word) :: rest
    | false, rest => ([], [c]) :: rest

/-- Assumed of the drawing library: of the blanks at the start of a line those that fill a line do
not count. -/
def indent (limit blanks : Nat) : Nat := blanks % limit

/-- Assumed of the drawing library: blanks before the first word of a line are not shown, but if the
word does not fit behind them their line stays empty.  The last line may go on. -/
def opening (limit blanks : Nat) (word : List Char) : List (List Char) :=
  let lead := indent limit blanks
  (if 0 < lead ∧ limit < lead + Text.width word then [[]] else []) ++ Wrap.pieces limit word

/-- Assumed of the drawing library: words are packed behind an unfinished line, and of the blanks
before a word that does not fit, those that end the line and one more are dropped. -/
def pour (limit : Nat) (line : List Char) : List (List Char × List Char) → List (List Char)
  | [] => [line]
  | (gap, word) :: rest =>
    let used := Text.width line
    let blanks := Text.width gap
    if line.isEmpty then
      let lines := opening limit blanks word
      lines.dropLast ++ pour limit (lines.getLastD []) rest
    else if used + blanks + Text.width word ≤ limit then pour limit (line ++ gap ++ word) rest
    else
      let lines := opening limit (blanks - (limit - used) - 1) word
      line :: lines.dropLast ++ pour limit (lines.getLastD []) rest

def wrapped (limit : Nat) (lines : List (List Char)) : List (List Char) :=
  lines.flatMap fun line => pour limit [] (gaps line)

end Calculator.Screen
