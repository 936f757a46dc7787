import Calculator.Text.Blank
import Calculator.Text.Width

/-! # Cells

A row of the screen is a list of cells, one per column.  A cell holds a character with the marks
that combine with it; a wide character also covers the cell behind its own.

Drawing is left to a library.  Which cells a text takes, where it is cut, and how a row is filled up
or centred are assumptions about that library, stated here as definitions.
-/
namespace Calculator.Screen

abbrev Cell := List Char

abbrev Row := List Cell

def blank : Cell := [' ']

variable [Text.Metric]

/-- Assumed of the drawing library: a text is grouped into characters with their marks, and marks
without a character are dropped. -/
def cells : List Char → Row
  | [] => []
  | c :: cs =>
    if Text.columns c = 0 then cells cs
    else (c :: cs.takeWhile (Text.columns · = 0)) :: cells cs

/-- Assumed of the drawing library: a text is cut at the first character that does not fit into
`room` columns, also if a narrower one stands behind it. -/
def fit (room : Nat) : Row → Row
  | [] => []
  | g :: gs =>
    let n := Text.width g
    if n ≤ room then g :: List.replicate (n - 1) blank ++ fit (room - n) gs else []

def draw (room : Nat) (cs : List Char) : Row := fit room (cells cs)

/-- Assumed of the drawing library: texts stand one behind the other, and each is cut on its own
where the room ends. -/
def drawAll (room : Nat) : List (List Char) → Row
  | [] => []
  | cs :: rest =>
    let row := draw room cs
    row ++ drawAll (room - row.length) rest

def Row.pad (width : Nat) (row : Row) : Row :=
  row.take width ++ List.replicate (width - row.length) blank

def Row.centre (width : Nat) (row : Row) : Row :=
  Row.pad width (List.replicate (width / 2 - row.length / 2) blank ++ row)

/-- What is read from left to right.  Nothing is seen of a cell that a wide character covers. -/
def Row.visible : Row → List Char
  | [] => []
  | g :: gs => g ++ Row.visible (gs.drop (Text.width g - 1))
termination_by row => row.length
decreasing_by simp only [List.length_drop, List.length_cons]; omega

def Row.text (row : Row) : List Char := Text.trimEnd (Row.visible row)

end Calculator.Screen
