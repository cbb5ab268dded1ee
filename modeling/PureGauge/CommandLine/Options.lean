/-
**The options of a command line.**

An option is given by its long name after two dashes or, if it has one, by its short name after a
single dash.  An option that takes a value finds it in the same argument, behind the name and
perhaps an equals sign, or in the next argument, which then must not look like an option.  No option
is given twice, there are no arguments that are not options, and two dashes alone end the list.

Main definitions:

* `PureGauge.Options` — what a command line says;
* `PureGauge.OptionRule`, `PureGauge.Options.rules` — the options there are;
* `PureGauge.Options.ofArguments?` — the reading of the arguments.
-/
import PureGauge.Decimal.Reading
import PureGauge.Simulation.Basic

namespace PureGauge

/-- What a command line says.  What it leaves open is absent. -/
structure Options where
  /-- The file with the configuration. -/
  config : Option String
  points : Option UInt64
  beta : Option Float
  spacing : Option UInt64
  measurements : Option UInt64
  spread : Option Float
  thermalisation : Option UInt64
  start : Option Start
  seed : Option UInt64
  /-- Given, if the links are to be updated one after the other. -/
  sequential : Option Unit
  /-- After how many sweeps the links are normalised. -/
  period : Option Period
  /-- The file that the results go to. -/
  output : Option String

/-- An option: its names, whether it was given already, and how it is entered: with a value, which
may be refused, or without one. -/
structure OptionRule where
  long : String
  short : Option Char
  given : Options → Bool
  enter : (Options → Options) ⊕ (String → Options → Option Options)

namespace OptionRule

/-- An option with a value. -/
def valued {α : Type} (long : String) (short : Option Char) (read : String → Option α)
    (part : Options → Option α) (fill : Option α → Options → Options) : OptionRule where
  long := long
  short := short
  given o := (part o).isSome
  enter := .inr fun text o => (read text).map fun a => fill (some a) o

/-- Whether an option takes a value. -/
def takesValue (r : OptionRule) : Bool := r.enter.isRight

end OptionRule

/-- The name of a file, which has at least one character. -/
def readFileName? (text : String) : Option String := if text = "" then none else some text

/-- The name of a start on a command line. -/
def readStart? (text : String) : Option Start :=
  [("cold", Start.cold), ("hot", .hot), ("close-to-unity", .nearUnity)].lookup text

/-- A number of sweeps, which is positive. -/
def readPeriod? (text : String) : Option Period :=
  (readWord? text).bind fun n => Period.ofNat? n.toNat

namespace Options

/-- The command line that says nothing. -/
def empty : Options :=
  ⟨none, none, none, none, none, none, none, none, none, none, none, none⟩

/-- The options there are. -/
def rules : List OptionRule := [
  .valued "config" 'c' readFileName? config fun v o => { o with config := v },
  .valued "size" 'n' readWord? points fun v o => { o with points := v },
  .valued "beta" 'b' readReal? beta fun v o => { o with beta := v },
  .valued "ncor" none readWord? spacing fun v o => { o with spacing := v },
  .valued "ncf" none readWord? measurements fun v o => { o with measurements := v },
  .valued "spread" 's' readReal? spread fun v o => { o with spread := v },
  .valued "thermalisation" 't' readWord? thermalisation fun v o => { o with thermalisation := v },
  .valued "start" none readStart? start fun v o => { o with start := v },
  .valued "seed" none readWord? seed fun v o => { o with seed := v },
  ⟨"sequential", none, fun o => o.sequential.isSome,
    .inl fun o => { o with sequential := some () }⟩,
  .valued "normalize-every" none readPeriod? period fun v o => { o with period := v },
  .valued "output" 'o' readFileName? output fun v o => { o with output := v }]

/-! ### Arguments -/

/-- An argument by its form. -/
inductive Argument where
  /-- Two dashes alone. -/
  | stop
  | long (name : String) (value : Option String)
  | short (name : Char) (value : Option String)
  /-- Anything that does not look like an option; a single dash does not. -/
  | plain (text : String)
deriving DecidableEq

/-- The form of an argument. -/
def Argument.ofText (text : String) : Argument :=
  match text.toList with
  | ['-'] => plain text
  | ['-', '-'] => stop
  | '-' :: '-' :: body =>
      let name := String.ofList (body.takeWhile (· ≠ '='))
      match body.dropWhile (· ≠ '=') with
      | [] => long name none
      | _ :: value => long name (some (String.ofList value))
  | '-' :: name :: [] => short name none
  | '-' :: name :: '=' :: value => short name (some (String.ofList value))
  | '-' :: name :: value => short name (some (String.ofList value))
  | _ => plain text

/-- What was read of a command line: the options, the one that waits for its value, and whether the
list has ended. -/
structure Reading where
  options : Options
  waiting : Option OptionRule
  ended : Bool

namespace Reading

/-- Enters an option with the value that stands in its argument. -/
def enter (r : Reading) (rule : OptionRule) (value : Option String) : Option Reading :=
  if rule.given r.options then none
  else match rule.enter, value with
    | .inl set, none => some { r with options := set r.options }
    | .inl _, some _ => none
    | .inr _, none => some { r with waiting := some rule }
    | .inr set, some text => (set text r.options).map fun o => ⟨o, none, r.ended⟩

/-- Reads one argument more. -/
def argument (r : Reading) (text : String) : Option Reading :=
  if r.ended then none
  else match r.waiting, Argument.ofText text with
    | some rule, .plain value => r.enter rule (some value)
    | some _, _ => none
    | none, .stop => some { r with ended := true }
    | none, .long name value => (rules.find? (·.long = name)).bind (r.enter · value)
    | none, .short name value => (rules.find? (·.short = some name)).bind (r.enter · value)
    | none, .plain _ => none

end Reading

/-- What the arguments say, unless one of them is out of place or some value is missing. -/
def ofArguments? (arguments : List String) : Option Options := do
  let r ← arguments.foldlM Reading.argument ⟨empty, none, false⟩
  if r.waiting.isNone then return r.options else none

/-! ### Parameters -/

/-- A configuration, changed where the command line gives another value. -/
def applyTo (o : Options) (c : Config Float) : Config Float where
  points := o.points.getD c.points
  beta := o.beta.getD c.beta
  spacing := o.spacing.getD c.spacing
  measurements := o.measurements.getD c.measurements
  spread := o.spread.getD c.spread
  pairs := c.pairs
  thermalisation := o.thermalisation.getD c.thermalisation
  start := o.start.getD c.start

/-- The execution that the command line asks for. -/
def execution (o : Options) : Execution :=
  if o.sequential.isSome then .sequential else .parallel

end Options

end PureGauge
