import Calculator.Log

/-! # Configuration

The nesting limit of an evaluation, and how the environment sets it.
-/
namespace Calculator

structure Config where
  maxDepth : Nat := 256
  elementary : Elementary := .native

namespace Config

def largest : Nat := UInt64.size - 1

/-- A positive decimal numeral, perhaps after a plus sign, up to the greatest limit. -/
def readDepth? (cs : List Char) : Option Nat :=
  let ds := match cs with
    | '+' :: ds => ds
    | ds => ds
  if ds.isEmpty || !ds.all Char.isDigit then none
  else
    let n := ds.foldl (fun n c => 10 * n + (c.toNat - '0'.toNat)) 0
    if 0 < n ∧ n ≤ largest then some n else none

/-- The configuration for a value of `MATHSYN_MAX_DEPTH`.  A value that is no limit is reported
and has no effect. -/
def ofEnvironment (value : Option (List Char)) : Config × List Log.Record :=
  match value.map Text.trim with
  | none | some [] => ({}, [])
  | some raw =>
    match readDepth? raw with
    | some n => ({ maxDepth := n }, [])
    | none =>
      let message := "ignoring MATHSYN_MAX_DEPTH=".toList ++ Text.quoted raw ++ ", using 256".toList
      ({}, [⟨.warn, message⟩])

end Config

end Calculator
