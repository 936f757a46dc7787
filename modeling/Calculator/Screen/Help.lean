import Calculator.Screen.Box
import Calculator.Screen.Paragraph

/-! # Help screen -/
namespace Calculator.Screen
variable [Text.Metric]

def helpLines : List (List Char) := [
  "mathsyn - expression calculator",
  "",
  "Operators (lowest to highest precedence):",
  "  + - : Addition, subtraction      (e.g., 10 - 4 + 1 = 7)",
  "  * / : Multiplication, division  (e.g., 15 / 3 * 2 = 10)",
  "  %   : Remainder, same level     (e.g., 10 % 3 = 1)",
  "  ^   : Power, right-associative   (e.g., 2 ^ 3 ^ 2 = 512)",
  "  ( ) : Grouping                   (e.g., (2 + 3) * 4 = 20)",
  "",
  "Functions (radians):",
  "  sin(x) : Sine",
  "  cos(x) : Cosine",
  "  tan(x) : Tangent",
  "",
  "Limitations:",
  "  No unary minus: write (0 - 5) instead of -5",
  "",
  "Commands:",
  "  details <expression> : Show step-by-step evaluation with time",
  "  clear : Clear calculation history",
  "  help  : Show this help screen",
  "  quit  : Exit the calculator",
  "",
  "Navigation:",
  "  ← → : Move cursor left/right",
  "  Ctrl+←/→ : Move cursor by words",
  "  Home/End : Move to start/end of line",
  "  ↑ ↓ : Navigate calculation history",
  "  PgUp/PgDn : Page through history",
  "  Ctrl+U : Clear current input",
  "  Mouse wheel : Scroll through history",
  "",
  "Examples:",
  "  sin(0.5) ^ 2 + cos(0.5) ^ 2",
  "  details (1 + 2) * 3 % 4"].map String.toList

/-- The number of wrapped lines that are skipped: the scroll offset, modulo the range of the
coordinates of a screen. -/
def helpSkip (scroll : Nat) : Nat := scroll % UInt16.size

def help (width height scroll : Nat) : List Row :=
  let inner := width - 2
  -- The library is assumed to wrap a paragraph first and to skip lines of the result then.
  let lines := (wrapped inner helpLines).drop (helpSkip scroll)
  box .double " mathsyn Help ".toList width height (lines.map (draw inner))

end Calculator.Screen
