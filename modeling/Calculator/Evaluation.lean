import Calculator.Config

/-! # Evaluating a line

A line is cut into tokens, the tokens are read and evaluated, and a trace may keep the steps.
-/
namespace Calculator

/-- The steps of one or several evaluations, in order; kept only when the trace is detailed. -/
structure Trace where
  detailed : Bool := false
  steps : List Step := []

def Trace.record (trace : Trace) (steps : List Step) : Trace :=
  if trace.detailed then { trace with steps := trace.steps ++ steps } else trace

structure Evaluation where
  line : List Char
  result : Except Failure Float
  steps : List Step

def Evaluation.log (e : Evaluation) : List Log.Record :=
  Log.ofScan e.line (Scan.ofText e.line) ++ e.steps.map Log.ofStep ++ [Log.ofResult e.line e.result]

def Config.read (config : Config) (r : Reader) : Reading :=
  r.read config.elementary config.maxDepth

def Config.evaluate (config : Config) (line : List Char) : Evaluation :=
  match tokenize line with
  | .error e => { line, result := .error e, steps := [] }
  | .ok tokens =>
    let reading := config.read { tokens }
    { line, result := reading.result, steps := reading.steps }

def Config.evaluateWith (config : Config) (line : List Char) (trace : Trace) :
    Evaluation × Trace :=
  let evaluation := config.evaluate line
  (evaluation, trace.record evaluation.steps)

end Calculator
