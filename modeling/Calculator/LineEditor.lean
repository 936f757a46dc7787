import Calculator.Command
import Calculator.Echo
import Calculator.Evaluation
import Calculator.Key
import Calculator.LineBuffer
import Calculator.Number.Display
import Calculator.Request
import Calculator.Text.Width

/-! # Line editor

The calculator on a single line of a terminal.  The line is redrawn before every key; entering it
prints the result below and begins a new line.
-/
namespace Calculator

/-- `index` counts from the oldest line of the history; it is the length of the history when no
line is recalled. -/
structure LineEditor where
  config : Config := {}
  buffer : LineBuffer := {}
  history : List (List Char) := []
  index : Nat := 0
  ended : Bool := false

namespace LineEditor

/-! ## Assumed of the terminal

It understands a text that places the cursor, one that clears the line of the cursor, and one that
asks where the cursor is.  Columns and rows are counted from 1.
-/

def goto (column row : Nat) : List Char :=
  "\x1b[".toList ++ Number.numeral row ++ ';' :: Number.numeral column ++ ['H']

def clearLine : List Char := "\x1b[2K".toList

def askPosition : List Char := "\x1b[6n".toList

/-! ## The line -/

def prompt : List Char := "Expression: ".toList

def newline : List Char := "\r\n".toList

def banner : List Char :=
  ("mathsyn line mode\n" ++
    "Supports: +, -, *, /, %, ^, parentheses, sin, cos, tan\n" ++
    "Navigation: ←/→, Backspace/Delete, Home/End, ↑/↓ for history\n" ++
    "Special commands: 'quit' to exit, 'clear' to reset history\n" ++
    "\rAdd 'details' before expression for step-by-step evaluation\n\n").toList

def newPrompt : List Char := clearLine ++ prompt ++ askPosition

variable [Text.Metric]

/-- The column of the cursor, in the range of the coordinates of a terminal. -/
def cursorColumn (b : LineBuffer) : Nat :=
  (prompt.length + Text.width (b.text.take b.cursor) + 1) % UInt16.size

def redraw (e : LineEditor) (row : Nat) : List Char :=
  goto 1 row ++ clearLine ++ prompt ++ e.buffer.text ++ goto (cursorColumn e.buffer) row

def restore (e : LineEditor) (index : Nat) : LineEditor :=
  let buffer := match e.history[index]? with
    | some line => .ofText line
    | none => e.buffer
  { e with index, buffer }

def older (e : LineEditor) : LineEditor := if 0 < e.index then e.restore (e.index - 1) else e

/-- To the next line of the history; behind the newest one the line is empty. -/
def newer (e : LineEditor) : LineEditor :=
  if e.index < e.history.length - 1 then e.restore (e.index + 1)
  else { e with index := e.history.length, buffer := {} }

def stepLine (index : Nat) (step : Step) : List Char :=
  "  Step ".toList ++ Number.numeral index ++ ": ".toList ++ step.operation.text ++ " = ".toList ++
    Number.display step.result ++ newline

def stepLines (steps : List Step) : List Char :=
  if steps.isEmpty then []
  else "\r\n  Step-by-step evaluation:\r\n".toList ++
    (steps.mapIdx fun i step => stepLine (i + 1) step).flatten

def answer (config : Config) (request : Request) : List Char :=
  let (evaluation, trace) := config.evaluateWith request.expression { detailed := request.detailed }
  let head := newline ++ "  ".toList ++ Echo.format request.expression ++ " = ".toList
  match evaluation.result with
  | .ok x => head ++ Number.display x ++ newline ++ stepLines trace.steps ++ newline
  | .error e => head ++ "Error: ".toList ++ e.message ++ "\r\n\n".toList

/-- Enters the line. There is no help screen, so the word for it is evaluated like any other. -/
def submit (e : LineEditor) : LineEditor × List Char :=
  let line := Text.trim e.buffer.text
  let fresh := { e with buffer := {} }
  if line.isEmpty then (fresh, newline ++ newPrompt)
  else match Command.ofLine? line with
    | some .quit => ({ e with ended := true }, "\r\nGoodbye!\r\n".toList)
    | some .clear =>
      ({ fresh with history := [], index := 0 }, "\r\nHistory cleared\r\n\n".toList ++ newPrompt)
    | _ =>
      let request := Request.ofLine line
      if request.expression.isEmpty then
        (fresh, "\r\nPlease enter a valid expression after 'details'\r\n".toList ++ newPrompt)
      else
        ({ fresh with history := e.history ++ [line], index := e.history.length + 1 },
          answer e.config request ++ newPrompt)

def edit (e : LineEditor) (b : LineBuffer) : LineEditor × List Char := ({ e with buffer := b }, [])

/-- What a key does, and what it prints.  The control key only ends the program. -/
def press (e : LineEditor) (press : KeyPress) : LineEditor × List Char :=
  if press.ctrl then
    match press.key with
    | .char 'c' | .char 'd' => ({ e with ended := true }, newline)
    | _ => (e, [])
  else if press.alt then (e, [])
  else match press.key with
    | .enter => e.submit
    | .char c => e.edit (e.buffer.insert c)
    | .tab => e.edit (e.buffer.insert '\t')
    | .backspace => e.edit e.buffer.deleteBefore
    | .delete => e.edit e.buffer.deleteAt
    | .left => e.edit e.buffer.left
    | .right => e.edit e.buffer.right
    | .home => e.edit e.buffer.toStart
    | .toEnd => e.edit e.buffer.toEnd
    | .up => (e.older, [])
    | .down => (e.newer, [])
    | _ => (e, [])

/-- What is written for each key: the line as it is redrawn before it, and what the key prints.
The program ends by itself or with the last key. -/
def transcript (row : Nat) (e : LineEditor) : List KeyPress → List (List Char)
  | [] => [e.redraw row ++ newline]
  | k :: ks =>
    let (next, printed) := e.press k
    (e.redraw row ++ printed) :: if next.ended then [] else transcript row next ks

def run (config : Config) (row : Nat) (keys : List KeyPress) : List (List Char) :=
  (banner ++ newPrompt) :: transcript row { config } keys

end LineEditor

end Calculator
