import Calculator.Lexeme
import Calculator.Reader
import Calculator.Text.Quoted

/-! # Log records

What the evaluation of a line reports about its progress.
-/
namespace Calculator

inductive Log.Level where
  | trace
  | debug
  | warn

def Log.Level.label : Log.Level → List Char
  | .trace => "TRACE".toList
  | .debug => "DEBUG".toList
  | .warn => "WARN".toList

structure Log.Record where
  level : Log.Level
  message : List Char

namespace Log

def Record.text (r : Record) : List Char := r.level.label ++ ' ' :: r.message

def ofToken (t : Token) (position : Nat) : Record :=
  ⟨.trace, "token ".toList ++ t.describe ++ " at ".toList ++ Number.numeral position⟩

def ofStep (s : Step) : Record :=
  ⟨.trace, "step ".toList ++ s.operation.text ++ " = ".toList ++ Number.text s.result⟩

/-- Reading a line reports each token, and then the number of tokens with the end token, or a
stray character.  A malformed number is not reported here. -/
def ofScan (line : List Char) (scan : Scan) : List Record :=
  let found := scan.tokens.map fun (t, position) => ofToken t position
  found ++ match scan.failure with
    | none =>
      [⟨.debug, "tokenized ".toList ++ Number.numeral line.length ++ " chars into ".toList ++
        Number.numeral (scan.tokens.length + 1) ++ " tokens".toList⟩]
    | some (.strayCharacter c position) =>
      [⟨.debug, "lexical error: ".toList ++ Text.quotedChar c ++ " at position ".toList ++
        Number.numeral position⟩]
    | some _ => []

def ofResult (line : List Char) : Except Failure Float → Record
  | .ok x => ⟨.debug, "evaluated ".toList ++ Text.quoted line ++ " = ".toList ++ Number.text x⟩
  | .error e =>
    ⟨.debug, "failed to evaluate ".toList ++ Text.quoted line ++ ": ".toList ++ e.message⟩

end Log

end Calculator
