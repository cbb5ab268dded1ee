/-
**A run from the command line.**

The parameters come from a file or are the standard ones, changed by what the command line says.
The run is thermalised and sampled, its result is the mean of the samples with an error, and
everything is written to a file if one is named.

Main definitions:

* `PureGauge.Failure`, `PureGauge.Report`, `PureGauge.Outcome` — how a run ends;
* `PureGauge.Options.parameters`, `PureGauge.measure` — the two halves of a run;
* `PureGauge.runWith` — a run in a folder.
-/
import PureGauge.CommandLine.Options
import PureGauge.CommandLine.Folder
import PureGauge.Json.Formats
import PureGauge.Statistics

namespace PureGauge

/-! ### Failures -/

/-- Why a run fails. -/
inductive Failure where
  /-- A file cannot be read or written. -/
  | file
  /-- A file holds no configuration. -/
  | configuration
  /-- The simulation was refused. -/
  | simulation (error : SimulationError Float)

/-- The name of an error with what it carries. -/
def LatticeError.label : LatticeError → String
  | zeroSize => "ZeroSize"

/-- The name of an error with what it carries. -/
def StateError.label : StateError Float → String
  | nonPositiveBeta beta => "NonPositiveBeta(" ++ RealText.marked beta ++ ")"
  | incompatibleSize => "IncompatibleSize"
  | lattice error => "LatticeInitializationError(" ++ error.label ++ ")"

/-- The name of an error with what it carries; what a worker left behind is not shown. -/
def WorkerError.label : WorkerError → String
  | noWorker => "ThreadNumberIncorrect"
  | panic _ => "Panic(Any \x7b .. \x7d)"

/-- The name of an error with what it carries. -/
def SimulationError.label : SimulationError Float → String
  | invalidSpread spread => "InvalidSpread(" ++ RealText.marked spread ++ ")"
  | emptyPool => "EmptyPool"
  | state error => "StateInitializationError(" ++ error.label ++ ")"
  | workers error => "ThreadingError(" ++ error.label ++ ")"

/-- The name of a failure with what it carries. -/
def Failure.label : Failure → String
  | file => "Io"
  | configuration => "Json"
  | simulation error => error.label

/-! ### Results -/

/-- The result of a run. -/
structure Report where
  config : Config Float
  seed : UInt64
  execution : Execution
  samples : List Float
  mean : Float
  error : Float

namespace Report

/-- The line that tells the result. -/
def line (r : Report) : String :=
  "<P> = " ++ RealText.plain r.mean ++ " +- " ++ RealText.plain r.error

/-- The result with the parameters and the samples. -/
def json (r : Report) : Json := .record [
  ("config", Format.config.encode r.config),
  ("seed", .int r.seed.toNat),
  ("execution", .text r.execution.text),
  ("samples", .list (r.samples.map Json.real)),
  ("mean", .real r.mean),
  ("error", .real r.error)]

/-- The content of the file that a result is written to. -/
def content (r : Report) : String := r.json.pretty

end Report

/-! ### Runs -/

/-- The parameters of a run, with what the path to the configuration leads to if there is such a
path. -/
def Options.parameters (o : Options) : Option Entry → Except Failure (Config Float)
  | none => .ok (o.applyTo Config.standard)
  | some (.file text) =>
      match Format.config.decodeText text with
      | .ok c => .ok (o.applyTo c)
      | .error _ => .error .configuration
  | some .folder => .error .configuration
  | some .missing => .error .file

/-- The sweeps before the first measurement, and then the measurements. -/
def thermaliseAndSample (thermalisation : Nat) : Run Float Xoshiro (List Float) := do
  Run.sweepTimes thermalisation
  Run.sample

/-- The measurements that the command line asks for with given parameters. -/
def measure (o : Options) (c : Config Float) : Checked (Except Failure Report) := do
  let seed := o.seed.getD 0
  match ← Simulation.ofConfig c (Xoshiro.ofSeed seed) with
  | .error error => return .error (.simulation error)
  | .ok s =>
      let s := { s with chain := s.chain.setExecution o.execution, period := o.period }
      match thermaliseAndSample c.thermalisation.toNat ⟨s, #[]⟩ with
      | .error fault _ => .error fault
      | .ok samples _ =>
          let (mean, error) := Statistics.meanWithError samples
          return .ok ⟨c, seed, o.execution, samples, mean, error⟩

/-- How a run ends. -/
inductive Outcome where
  /-- The command line cannot be read. -/
  | misused
  | failed (failure : Failure)
  | stopped (fault : Fault)
  /-- There is a result, and the file that was asked for is written or cannot be written. -/
  | measured (report : Report) (folder : Except Failure Folder)

/-- The exit code that tells how a run ended. -/
def Outcome.exitCode : Outcome → UInt8
  | measured _ (.ok _) => 0
  | measured _ (.error _) | failed _ => 1
  | misused => 2
  | stopped _ => 101

/-- The folder with the result written to the file that the command line names, if it names one. -/
def Options.writeResult (o : Options) (r : Report) (folder : Folder) : Except Failure Folder :=
  match o.output with
  | none => .ok folder
  | some path =>
      match folder.write? path r.content with
      | some folder => .ok folder
      | none => .error .file

/-- A run with the given arguments in a folder. -/
def runWith (arguments : List String) (folder : Folder) : Outcome :=
  match Options.ofArguments? arguments with
  | none => .misused
  | some o =>
      match o.parameters (o.config.map folder.look) with
      | .error failure => .failed failure
      | .ok c =>
          match measure o c with
          | .error fault => .stopped fault
          | .ok (.error failure) => .failed failure
          | .ok (.ok report) => .measured report (o.writeResult report folder)

end PureGauge
