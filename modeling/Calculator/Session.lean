import Calculator.Command
import Calculator.Evaluation
import Calculator.LineBuffer
import Calculator.Request

/-! # Sessions of the full-screen calculator

The state behind the screen: the line being edited, the history of entries with one of them
selected, and what is scrolled where.  Sizes and offsets are counters that stop at their largest
value and at zero.
-/
namespace Calculator

inductive Outcome where
  | value (x : Float)
  | failed (e : Failure)
  | missingExpression

/-- A line of the history; `elapsed` is the time of its evaluation in nanoseconds, which only the
clock of the terminal knows. -/
structure Entry where
  input : List Char
  outcome : Outcome
  steps : List Step := []
  detailed : Bool := false
  elapsed : Nat := 0

def Outcome.ofResult : Except Failure Float → Outcome
  | .ok x => .value x
  | .error e => .failed e

def Entry.ofRequest (config : Config) (request : Request) : Entry :=
  let (evaluation, trace) := config.evaluateWith request.expression { detailed := request.detailed }
  { input := request.expression, outcome := .ofResult evaluation.result, steps := trace.steps
    detailed := request.detailed }

structure Session where
  config : Config := {}
  buffer : LineBuffer := {}
  inputScroll : Nat := 0
  history : List Entry := []
  selected : Nat := 0
  quitting : Bool := false
  helpShown : Bool := false
  helpScroll : Nat := 0
  listHeight : Nat := 5
  rowStarts : List Nat := []
  historyScroll : Nat := 0
  followNewest : Bool := false
  tooSmall : Bool := false

namespace Session

def scrolled (offset : Nat) (distance : Int) : Nat :=
  min (offset + distance).toNat (UInt64.size - 1)

/-- The window of the input line follows the cursor, and then does not reach beyond the text. -/
def adjustInputScroll (s : Session) (width : Nat) : Session :=
  let followed :=
    if s.buffer.cursor < s.inputScroll then s.buffer.cursor
    else if s.inputScroll + width ≤ s.buffer.cursor then s.buffer.cursor + 1 - width
    else s.inputScroll
  { s with inputScroll := min followed (s.buffer.text.length - width) }

def clearInput (s : Session) : Session := { s with buffer := {}, inputScroll := 0 }

def submit (s : Session) : Session :=
  let line := Text.trim s.buffer.text
  if line.isEmpty then s
  else match Command.ofLine? line with
    | some .quit => { s with quitting := true }
    | some .clear => { s with history := [], selected := 0, historyScroll := 0 }.clearInput
    | some .help => { s with helpShown := true, helpScroll := 0 }.clearInput
    | none =>
      let request := Request.ofLine line
      if request.expression.isEmpty then
        let entry : Entry := { input := line, outcome := .missingExpression }
        { s with history := s.history ++ [entry] }.clearInput
      else
        let entry := Entry.ofRequest s.config request
        let s := { s with history := s.history ++ [entry], selected := s.history.length }
        { s with followNewest := true }.clearInput

def insertChar (s : Session) (c : Char) : Session := { s with buffer := s.buffer.insert c }

def deleteBefore (s : Session) : Session := { s with buffer := s.buffer.deleteBefore }

def deleteAt (s : Session) : Session := { s with buffer := s.buffer.deleteAt }

def moveCursor (s : Session) (distance : Int) : Session :=
  if distance = -1 then { s with buffer := s.buffer.left }
  else if distance = 1 then { s with buffer := s.buffer.right }
  else s

def moveWord (s : Session) (direction : Int) : Session :=
  { s with buffer := if direction < 0 then s.buffer.wordLeft else s.buffer.wordRight }

def restore (s : Session) : Session :=
  let text := match s.history[s.selected]? with
    | some entry => entry.input
    | none => s.buffer.text
  { s with buffer := .ofText text, inputScroll := 0, followNewest := false }

def select (s : Session) (index : Nat) : Session := { s with selected := index }.restore

def navigate (s : Session) (direction : Int) : Session :=
  if s.history.isEmpty then s
  else if direction < 0 ∧ 0 < s.selected then s.select (s.selected - 1)
  else if 0 < direction ∧ s.selected < s.history.length - 1 then s.select (s.selected + 1)
  else s.restore

def page (s : Session) (direction : Int) : Session :=
  if s.history.isEmpty then s
  else
    let distance := max (s.listHeight - 1) 1
    if direction < 0 then s.select (s.selected - distance)
    -- Upwards the counter stops by itself at the first entry.
    else s.select (min (s.selected + distance) (s.history.length - 1))

def showHelp (s : Session) : Session := { s with helpShown := true, helpScroll := 0 }

def hideHelp (s : Session) : Session := { s with helpShown := false, helpScroll := 0 }

def scrollHelp (s : Session) (distance : Int) : Session :=
  { s with helpScroll := scrolled s.helpScroll distance }

def scrollHistory (s : Session) (distance : Int) : Session :=
  { s with historyScroll := scrolled s.historyScroll distance }

end Session

end Calculator
