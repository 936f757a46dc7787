/-! # Keys

The keys of a terminal, as far as the calculator tells them apart.
-/
namespace Calculator

inductive Key where
  | char (c : Char)
  | function (n : Nat)
  | backspace
  | delete
  | left
  | right
  | up
  | down
  | home
  | toEnd
  | pageUp
  | pageDown
  | enter
  | escape
  | tab
  | insert

structure KeyPress where
  key : Key
  ctrl : Bool := false
  alt : Bool := false

end Calculator
