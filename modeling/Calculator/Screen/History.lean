import Calculator.Highlight
import Calculator.Number.Display
import Calculator.Screen.Cell
import Calculator.Session
import Calculator.Wrap

/-! # History list

The rows in which the entries of the history are listed, where each entry begins, and which part
of the list a window shows.
-/
namespace Calculator.Screen
variable [Text.Metric]

abbrev Item := List (List Char)

def outcomeText : Outcome → List Char
  | .value x => Number.display x
  | .failed e => "Error: ".toList ++ e.message
  | .missingExpression => "Error: please enter an expression after 'details'".toList

def stepText (index : Nat) (step : Step) : List Char :=
  "Step ".toList ++ Number.numeral index ++ ": ".toList ++ step.operation.text ++ " = ".toList ++
    Number.display step.result

def timeText (elapsed : Nat) : List Char :=
  -- Milliseconds, with the nanoseconds behind the point.
  "Time: ".toList ++ Number.numeral (elapsed / 1000000) ++
    '.' :: Number.padded 6 (elapsed % 1000000) ++ " ms".toList

def echoItems (limit : Nat) (entry : Entry) : List Item :=
  let spans (line : List Char) : Item := (Highlight.spans line).map (·.text)
  match Wrap.lines limit (Echo.format entry.input) with
  | [] => []
  | first :: others =>
    ("> ".toList :: spans first ++ [" = ".toList, outcomeText entry.outcome]) ::
      others.map fun line => "  ".toList :: spans line

def noteItems (limit : Nat) (note : List Char) : List Item :=
  match Wrap.lines limit note with
  | [] => []
  | first :: others =>
    ["    - ".toList ++ first] :: others.map fun line => ["      ".toList ++ line]

def entryItems (limit : Nat) (entry : Entry) : List Item :=
  echoItems limit entry ++
    if entry.detailed then
      (entry.steps.mapIdx fun i step => noteItems limit (stepText (i + 1) step)).flatten ++
        noteItems limit (timeText entry.elapsed)
    else []

def starts (first : Nat) : List (List Item) → List Nat
  | [] => []
  | block :: blocks => first :: starts (first + block.length + 1) blocks

structure HistoryList where
  items : List Item
  starts : List Nat

def HistoryList.ofEntries (width : Nat) (entries : List Entry) : HistoryList :=
  let blocks := entries.map (entryItems (width - 6))
  { items := [[List.replicate width '-']].intercalate blocks
    starts := Screen.starts 0 blocks }

/-! ## Assumed of the drawing library -/

/-- A list of `count` rows shows `height` of them from its offset on, moved just as far as it takes
to contain the selected row. -/
def window (count height offset selected : Nat) : Nat × Nat :=
  let start := min offset (count - 1)
  let stop := min (start + height) count
  if stop ≤ selected then (max start (selected + 1 - height), selected + 1)
  else if selected < start then (selected, min stop (selected + height))
  else (start, stop)

end Calculator.Screen
