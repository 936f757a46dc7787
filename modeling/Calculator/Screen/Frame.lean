import Calculator.Session.Event
import Calculator.Screen.Help
import Calculator.Screen.History

/-! # Frames

What a session looks like on a screen of a given size.  Drawing a frame also adjusts the session:
its scroll offsets and what it remembers of the list.
-/
namespace Calculator.Screen
variable [Text.Metric]

structure Frame where
  rows : List Row
  highlighted : List Nat := []
  cursor : Option (Nat × Nat) := none

def minWidth : Nat := 50

def minHeight : Nat := 10

def resizeNotice (width height : Nat) : List Row :=
  let size (w h : Nat) := Number.numeral w ++ 'x' :: Number.numeral h
  let message := "Terminal too small! Min size: ".toList ++ size minWidth minHeight ++
    ". Current: ".toList ++ size width height
  let lines := wrapped (width - 2) [message, [], "Please resize your terminal window".toList]
  box .single " Resize Required ".toList width height
    (lines.map fun line => Row.centre (width - 2) (draw (width - 2) line))

def statusText : List Char :=
  "Enter Calculate Up/Down or PgUp/PgDn Navigate F1 Help Ctrl+U Clear Input Ctrl+C Quit ".toList

def visibleInput (s : Session) (width : Nat) : List Char :=
  (s.buffer.text.drop s.inputScroll).take width

/-- Assumed of the drawing library: a line ends before its first line break, of which a carriage
return may be a part. -/
def firstLine (cs : List Char) : List Char :=
  let line := cs.takeWhile (· != '\n')
  if line.length < cs.length && line.getLast? == some '\r' then line.dropLast else line

def inputRow (s : Session) (width : Nat) : Row :=
  let shown := width - 2
  let row := Row.pad width (draw width ("> ".toList ++ firstLine (visibleInput s shown)))
  let row := if 0 < s.inputScroll then row.set 0 ['<'] else row
  if s.inputScroll + shown < s.buffer.text.length then row.set (width - 1) ['>'] else row

def cursorColumn (s : Session) (width : Nat) : Nat :=
  let before := (visibleInput s (width - 2)).take (s.buffer.cursor - s.inputScroll)
  1 + 2 + Text.width before

def emptyNotice : List Char :=
  "No calculations yet. Enter an expression to see results here.".toList

def drawHistory (s : Session) (width height : Nat) : Session × List Row × List Nat :=
  if s.history.isEmpty then (s, [Row.centre width (draw width emptyNotice)], [])
  else
    let list := HistoryList.ofEntries width s.history
    let offset := if s.followNewest then list.items.length - height else s.historyScroll
    let selected := list.starts[s.selected]?
    let (start, stop) := window list.items.length height offset (selected.getD 0)
    let shown := (list.items.drop start).take (stop - start)
    ({ s with rowStarts := list.starts, historyScroll := offset, followNewest := false },
      shown.map (drawAll width), (selected.map (· - start)).toList)

def drawMain (s : Session) (width height : Nat) : Session × Frame :=
  let inner := width - 2
  let s := s.adjustInputScroll (inner - 2)
  let (s', history, highlighted) := drawHistory s inner (height - 6)
  ({ s' with listHeight := height - 4 },
    { rows :=
        box .single " Expression ".toList width 3 [inputRow s inner] ++
        Row.pad width (draw width statusText) ::
        box .single " History ".toList width (height - 4) history
      highlighted := highlighted.map (· + 5)
      cursor := some (cursorColumn s inner, 1) })

def drawSession (s : Session) (width height : Nat) : Session × Frame :=
  if s.helpShown then (s, { rows := help width height s.helpScroll })
  else if width < minWidth || height < minHeight then
    ({ s with tooSmall := true }, { rows := resizeNotice width height })
  else drawMain { s with tooSmall := false } width height

/-- Runs a session on a screen of fixed size: a frame is drawn before each event, and a last one
when the session is over or no events are left. -/
def play (s : Session) (width height : Nat) : List Event → Session × Frame
  | [] => drawSession s width height
  | e :: es =>
    let (s, frame) := drawSession s width height
    if s.quitting then (s, frame) else play (s.handle e) width height es

end Calculator.Screen
