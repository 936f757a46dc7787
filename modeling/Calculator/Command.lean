import Calculator.Text.Blank

/-! # Commands

Words that are carried out when they are entered, instead of being evaluated.
-/
namespace Calculator

inductive Command where
  | quit
  | clear
  | help
  deriving DecidableEq

namespace Command

def spellings : Command → List (List Char)
  | .quit => ["quit".toList, "exit".toList, "q".toList]
  | .clear => ["clear".toList, "reset".toList]
  | .help => ["help".toList]

/-- Commands are recognised in any letter case.  Only the letters of ASCII matter: of the others
just the Kelvin sign has an ASCII letter as its lower case, and no spelling has that letter. -/
def ofLine? (line : List Char) : Option Command :=
  [quit, clear, help].find? fun c => c.spellings.any (Text.sameLetters line)

end Command

end Calculator
