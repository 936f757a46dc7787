import Calculator.CommandLine

/-! # Program

The calculator as a command without interactive modes: an expression is taken from the arguments
or from the first line of the standard input.
-/
namespace Calculator.CommandLine

/-- Reads an input to the end of its first line. -/
partial def readLine (input : IO.FS.Stream) (seen : ByteArray) : IO ByteArray := do
  let byte ← input.read 1
  if byte.isEmpty || byte.toList == [10] then return seen ++ byte else readLine input (seen ++ byte)

def report (exit : Exit) : IO UInt32 := do
  IO.print (String.ofList exit.output)
  IO.eprint (String.ofList exit.errors)
  return exit.status.toUInt32

def start (config : Config) (mode : Mode) : IO UInt32 := do
  match mode with
  | .plain =>
    IO.print (String.ofList invitation)
    (← IO.getStdout).flush
    report (onceFromInput config (← readLine (← IO.getStdin) ByteArray.empty))
  | _ =>
    match mode.run? config ByteArray.empty with
    | some exit => report exit
    | none => return 1

end Calculator.CommandLine

open Calculator CommandLine in
def main (args : List String) : IO UInt32 := do
  let limit ← IO.getEnv "MATHSYN_MAX_DEPTH"
  let (config, log) := Config.ofEnvironment (limit.map String.toList)
  for record in log do
    IO.eprintln (String.ofList record.text)
  start config (Mode.ofArguments {} (args.map String.toList))
