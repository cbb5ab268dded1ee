/-
**The command line.**

Reads the arguments and the file with the configuration, prints the result and writes it to a file.
What is done in between is `PureGauge.Options.parameters` and `PureGauge.measure`.
-/
import PureGauge.CommandLine.Run

open PureGauge

/-- What a path leads to in the file system. -/
def lookAt (path : String) : IO Entry := do
  try
    return .file (← IO.FS.readFile path)
  catch
    | .inappropriateType .. => return .folder
    | _ => return .missing

/-- Tells why a run failed. -/
def tellFailure (failure : Failure) : IO UInt32 := do
  IO.eprintln ("Error: " ++ failure.label)
  return 1

/-- Prints a result, and writes it to a file if there is to be one. -/
def publish (report : Report) (output : Option String) : IO UInt32 := do
  IO.println report.line
  match output with
  | none => return 0
  | some path =>
      try
        IO.FS.writeFile path report.content
        return 0
      catch _ => tellFailure .file

def main (arguments : List String) : IO UInt32 := do
  match Options.ofArguments? arguments with
  | none =>
      IO.eprintln "usage: the arguments are options, each given once"
      return 2
  | some o =>
      match o.parameters (← o.config.mapM lookAt) with
      | .error failure => tellFailure failure
      | .ok c =>
          match measure o c with
          | .error fault =>
              IO.eprintln fault.message
              return 101
          | .ok (.error failure) => tellFailure failure
          | .ok (.ok report) => publish report o.output
