import Calculator.Key
import Calculator.Session

/-! # Events of the full-screen calculator

What the keys and the mouse wheel do to a session, on the main screen and on the help screen.
-/
namespace Calculator

inductive Event where
  | key (press : KeyPress)
  | wheelUp
  | wheelDown
  | other

namespace Session

def helpKey (s : Session) : Key → Session
  | .down => s.scrollHelp 1
  | .up => s.scrollHelp (-1)
  | .pageDown => s.scrollHelp 10
  | .pageUp => s.scrollHelp (-10)
  | .escape | .function 1 => s.hideHelp
  | _ => s

/-- A character with the control or the alt key is never typed. -/
def charKey (s : Session) (c : Char) (ctrl alt : Bool) : Session :=
  if ctrl && c == 'c' then { s with quitting := true }
  else if ctrl && (c == 'u' || c == 'U') then s.clearInput
  else if ctrl || alt then s
  else s.insertChar c

def mainKey (s : Session) (press : KeyPress) : Session :=
  match press.key with
  | .char c => s.charKey c press.ctrl press.alt
  | .backspace => s.deleteBefore
  | .delete => s.deleteAt
  | .left => if press.ctrl then s.moveWord (-1) else s.moveCursor (-1)
  | .right => if press.ctrl then s.moveWord 1 else s.moveCursor 1
  | .home => { s with buffer := s.buffer.toStart, inputScroll := 0 }
  | .toEnd => { s with buffer := s.buffer.toEnd }
  | .up => s.navigate (-1)
  | .down => s.navigate 1
  | .pageUp => s.page (-1)
  | .pageDown => s.page 1
  | .enter => s.submit
  | .function 1 => s.showHelp
  | _ => s

def press (s : Session) (press : KeyPress) : Session :=
  if s.helpShown then s.helpKey press.key else s.mainKey press

theorem press_main {s : Session} (hmain : s.helpShown = false) (press : KeyPress) :
    s.press press = s.mainKey press := by
  simp only [Session.press, hmain, Bool.false_eq_true, if_false]

def wheel (s : Session) (distance : Int) : Session :=
  if s.helpShown then s.scrollHelp distance else s.scrollHistory distance

def handle (s : Session) : Event → Session
  | .key press => s.press press
  | .wheelUp => s.wheel (-3)
  | .wheelDown => s.wheel 3
  | .other => s

end Session

end Calculator
