import Calculator.Screen.Cell

/-! # Boxes

A border one cell wide around an area, with a title centred in its upper edge, as the drawing
library is assumed to place them.
-/
namespace Calculator.Screen
variable [Text.Metric]

structure Border where
  upperLeft : Char
  upperRight : Char
  lowerRight : Char
  lowerLeft : Char
  horizontal : Char
  vertical : Char

def Border.single : Border := ⟨'┌', '┐', '┘', '└', '─', '│'⟩

def Border.double : Border := ⟨'╔', '╗', '╝', '╚', '═', '║'⟩

/-- Assumed of the drawing library: of the two border characters of a row the left one goes first
where the width does not suffice. -/
def bordered (left right : Char) (width : Nat) (inner : Row) : Row :=
  ([left] :: Row.pad (width - 2) inner ++ [[right]]).take width

def Row.overlay (row : Row) (column : Nat) (label : Row) : Row :=
  row.take column ++ label ++ row.drop (column + label.length)

/-- Assumed of the drawing library: the inner area of a box is two columns and two rows smaller than
the box, rows without room are not drawn, and the upper edge goes first where the height does not
suffice. -/
def box (border : Border) (title : List Char) (width height : Nat) (inner : List Row) : List Row :=
  let line := List.replicate (width - 2) [border.horizontal]
  let top := bordered border.upperLeft border.upperRight width line
  let bottom := bordered border.lowerLeft border.lowerRight width line
  let content := (inner ++ List.replicate (height - 2) []).take (height - 2)
  (Row.overlay top ((width - Text.width title) / 2) (draw (width - 2) title) ::
    content.map (bordered border.vertical border.vertical width) ++ [bottom]).take height

end Calculator.Screen
