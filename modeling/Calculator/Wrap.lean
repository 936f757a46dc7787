import Calculator.Text.Blank
import Calculator.Text.Width

/-! # Wrapping

Words are packed greedily into lines of a given width.  A word that is wider than a line is cut
into pieces, which have lines of their own.
-/
namespace Calculator.Wrap
variable [Text.Metric]

def fill (limit used : Nat) : List Char → List Char × List Char
  | [] => ([], [])
  | c :: cs =>
    if used + Text.columns c ≤ limit then
      let (line, rest) := fill limit (used + Text.columns c) cs
      (c :: line, rest)
    else ([], c :: cs)

theorem fill_length (limit used : Nat) (cs : List Char) :
    (fill limit used cs).2.length ≤ cs.length := by
  induction cs generalizing used with
  | nil => simp [fill]
  | cons c cs ih =>
    simp only [fill]
    split
    · exact Nat.le_succ_of_le (ih _)
    · simp

/-- Cuts a word into pieces.  A piece has at least one character, even one that is too wide. -/
def pieces (limit : Nat) : List Char → List (List Char)
  | [] => []
  | c :: cs =>
    (c :: (fill limit (Text.columns c) cs).1) :: pieces limit (fill limit (Text.columns c) cs).2
termination_by cs => cs.length
decreasing_by exact Nat.lt_succ_of_le (fill_length _ _ cs)

def flush (line : List Char) : List (List Char) := if line.isEmpty then [] else [line]

/-- Packs words behind an unfinished line whose columns are counted in `used`. -/
def pack (limit : Nat) (line : List Char) (used : Nat) : List (List Char) → List (List Char)
  | [] => flush line
  | w :: ws =>
    let n := Text.width w
    if limit < n then flush line ++ pieces limit w ++ pack limit [] 0 ws
    else if line.isEmpty then pack limit w n ws
    else if limit < used + n + 1 then line :: pack limit w n ws
    else pack limit (line ++ ' ' :: w) (used + 1 + n) ws

/-- The lines of a text.  A line of no columns holds nothing. -/
def lines (limit : Nat) (cs : List Char) : List (List Char) :=
  if limit = 0 then [[]] else pack limit [] 0 (Text.words cs)

end Calculator.Wrap
