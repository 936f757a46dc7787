import Calculator.Text.Blank

/-! # Line buffer

A line that is being edited: its characters and the number of characters before the cursor.
-/
namespace Calculator

structure LineBuffer where
  text : List Char := []
  cursor : Nat := 0

namespace LineBuffer

def byteOffset : List Char → Nat → Nat
  | c :: cs, index + 1 => c.utf8Size + byteOffset cs index
  | _, _ => 0

def ofText (text : List Char) : LineBuffer := ⟨text, text.length⟩

def insert (b : LineBuffer) (c : Char) : LineBuffer :=
  ⟨b.text.take b.cursor ++ c :: b.text.drop b.cursor, b.cursor + 1⟩

def deleteAt (b : LineBuffer) : LineBuffer := { b with text := b.text.eraseIdx b.cursor }

def deleteBefore (b : LineBuffer) : LineBuffer :=
  if 0 < b.cursor then { b with cursor := b.cursor - 1 }.deleteAt else b

def left (b : LineBuffer) : LineBuffer := { b with cursor := b.cursor - 1 }

def right (b : LineBuffer) : LineBuffer := { b with cursor := min (b.cursor + 1) b.text.length }

def toStart (b : LineBuffer) : LineBuffer := { b with cursor := 0 }

def toEnd (b : LineBuffer) : LineBuffer := { b with cursor := b.text.length }

def wordLeft (b : LineBuffer) : LineBuffer :=
  let before := (b.text.take b.cursor).reverse
  { b with cursor := ((before.dropWhile Text.isBlank).dropWhile (!Text.isBlank ·)).length }

def wordRight (b : LineBuffer) : LineBuffer :=
  let behind := b.text.drop b.cursor
  let next := (behind.dropWhile (!Text.isBlank ·)).dropWhile Text.isBlank
  { b with cursor := b.text.length - next.length }

end LineBuffer

end Calculator
