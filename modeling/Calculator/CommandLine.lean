import Calculator.Evaluation
import Calculator.Number.Display

/-! # Command line

How the arguments choose what the program does, and what it prints when it does not take over the
terminal.
-/
namespace Calculator.CommandLine

structure Features where
  fullScreen : Bool := false
  lineEditor : Bool := false

inductive Mode where
  | usage
  | once (expression : List Char)
  | plain
  | lineEditor
  | fullScreen
  | unavailable

def interactive (features : Features) : Mode :=
  if features.fullScreen then .fullScreen
  else if features.lineEditor then .lineEditor
  else .plain

/-- The first argument chooses the mode. What is no option is an expression, with single spaces
between the arguments. -/
def Mode.ofArguments (features : Features) (args : List (List Char)) : Mode :=
  match args with
  | [] => interactive features
  | first :: _ =>
    if first = "--help".toList || first = "-h".toList then .usage
    else if first = "--plain".toList then .plain
    else if first = "--line".toList then
      if features.lineEditor then .lineEditor else .unavailable
    else .once (Text.unwords args)

structure Exit where
  status : Nat := 0
  output : List Char := []
  errors : List Char := []

def usage : List Char :=
  ("Usage: mathsyn [EXPRESSION...]\n" ++
    "       mathsyn --plain | --line | --help\n\n" ++
    "With an expression, evaluate it once and exit (status 1 on error).\n" ++
    "Without one, start the interactive calculator.\n\n" ++
    "Environment:\n" ++
    "  MATHSYN_MAX_DEPTH  deepest allowed nesting (default 256)\n" ++
    "  RUST_LOG           log filter, e.g. debug\n").toList

def once (config : Config) (expression : List Char) : Exit :=
  match (config.evaluate expression).result with
  | .ok x => { output := "Result: ".toList ++ Number.display x ++ ['\n'] }
  | .error e => { status := 1, errors := "Error: ".toList ++ e.message ++ ['\n'] }

/-- The text of the first line of an input with its end, unless its bytes are no text. -/
def firstLine? (input : ByteArray) : Option (List Char) :=
  let bytes := input.toList
  let line := bytes.takeWhile (· != 10) ++ (bytes.dropWhile (· != 10)).take 1
  (String.fromUTF8? ⟨line.toArray⟩).map String.toList

def invitation : List Char := "Enter a mathematical expression:\n".toList

def onceFromInput (config : Config) (input : ByteArray) : Exit :=
  match firstLine? input with
  | some line => once config (Text.trimEnd line)
  | none =>
    { status := 1
      errors := ("Error: failed to read expression\n\n" ++
        "Caused by:\n    stream did not contain valid UTF-8\n").toList }

def plain (config : Config) (input : ByteArray) : Exit :=
  let exit := onceFromInput config input
  { exit with output := invitation ++ exit.output }

def unavailable : Exit :=
  { status := 1, errors := "line mode is not available; rebuild with --features line\n".toList }

/-- A run that needs no terminal; none for the modes that take one over. -/
def Mode.run? (config : Config) (input : ByteArray) : Mode → Option Exit
  | .usage => some { output := CommandLine.usage }
  | .once expression => some (CommandLine.once config expression)
  | .plain => some (CommandLine.plain config input)
  | .unavailable => some CommandLine.unavailable
  | .lineEditor | .fullScreen => none

end Calculator.CommandLine
