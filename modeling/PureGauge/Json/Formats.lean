/-
**The formats of the library's types.**

Main definitions: in `PureGauge.Format`, the formats of lattices, points, links, matrices, fields,
pools, states and configurations.
-/
import PureGauge.Json.Format
import PureGauge.Simulation.Config
import PureGauge.Sweep.Engine

namespace PureGauge

namespace Format

/-! ### Lattices -/

/-- A lattice is written with its size. The size is not checked when it is read. -/
def lattice : Format Lattice := RecordFormat.single "dim" word Lattice.dim Lattice.mk

/-- A point is written with the list of its coordinates. -/
def point : Format Point :=
  RecordFormat.single "data"
    (convert (exactly 4 signedWord) (fun v => v.toList) fun
      | [a, b, c, d] => some #v[a, b, c, d]
      | _ => none)
    Point.coords Point.mk

/-- A direction is written with its index, which is not checked when it is read. -/
def direction : Format Direction := RecordFormat.single "index" word Direction.index Direction.mk

/-- A link is written with its point and its direction. -/
def link : Format Link := RecordFormat.pair "pos" point Link.pos "dir" direction Link.dir Link.mk

/-- A parity is written by its name. -/
def parity : Format Parity := names [("Even", .even), ("Odd", .odd)]

/-- A start is written by its name. -/
def start : Format Start := names [("Cold", .cold), ("Hot", .hot), ("CloseToUnity", .nearUnity)]

/-- An execution is written by its name. -/
def execution : Format Execution := names [("Parallel", .parallel), ("Sequential", .sequential)]

/-! ### Matrices -/

section

variable {R : Type} [RealLiteral R]

/-- A complex number is written as the list of its parts. -/
def complex : Format (Cplx R) :=
  convert (tuple 2 real) (fun z => [z.re, z.im]) fun
    | [x, y] => some ⟨x, y⟩
    | _ => none

/-- A matrix is written as the list of its entries, column by column. -/
def matrix : Format (Mat3 R) := convert (exactly 9 complex) Mat3.entries Mat3.ofEntries?

/-- An array of matrices is written as a list. -/
def matrices : Format (Array (Mat3 R)) :=
  convert (list matrix) Array.toList fun ms => some ms.toArray

/-- A field is written with the list of its matrices. -/
def field : Format (LinkField R) :=
  RecordFormat.single "data" matrices LinkField.data LinkField.mk

section

variable [Zero R] [LE R] [DecidableLE R] [RealFunctions R]

/-- A spread is written as its value. Only a value that is a spread is read. -/
def spread : Format (Spread R) := convert real Spread.value Spread.ofReal?

/-- A pool is written with its matrices and its spread. -/
def pool : Format (Pool R) :=
  RecordFormat.pair "matrices" matrices Pool.matrices "spread" spread Pool.spread Pool.mk

end

/-- A state is written with its lattice, its coupling and its field. That they fit together is not
checked when they are read. -/
def state : Format (LatticeState R) :=
  RecordFormat.format (P := Option Lattice × Option R × Option (LinkField R)) {
    fields := [
      RecordField.of "lattice" lattice LatticeState.lattice (·.1) fun p l => (some l, p.2.1, p.2.2),
      RecordField.of "beta" real LatticeState.beta (·.2.1) fun p b => (p.1, some b, p.2.2),
      RecordField.of "link_matrix" field LatticeState.links (·.2.2) fun p f => (p.1, p.2.1, some f)]
    empty := (none, none, none)
    complete := fun p => match p with
      | (some l, some b, some f) => some ⟨l, b, f⟩
      | _ => none
    mayEndEarly := false }

end

/-! ### Configurations -/

/-- The parts of a configuration that were read so far. -/
structure ConfigParts (R : Type) where
  points : Option UInt64
  beta : Option R
  spacing : Option UInt64
  measurements : Option UInt64
  spread : Option R
  pairs : Option UInt64
  thermalisation : Option UInt64
  start : Option Start

/-- The parts, each taken from a configuration where it is missing. -/
def ConfigParts.completedBy {R : Type} (base : Config R) (p : ConfigParts R) : Config R where
  points := p.points.getD base.points
  beta := p.beta.getD base.beta
  spacing := p.spacing.getD base.spacing
  measurements := p.measurements.getD base.measurements
  spread := p.spread.getD base.spread
  pairs := p.pairs.getD base.pairs
  thermalisation := p.thermalisation.getD base.thermalisation
  start := p.start.getD base.start

/-- The fields of a configuration. -/
def configFields {R : Type} [RealLiteral R] : List (RecordField (ConfigParts R) (Config R)) := [
  RecordField.of "number_of_points" word Config.points (·.points) fun p n =>
    { p with points := some n },
  RecordField.of "beta" real Config.beta (·.beta) fun p x => { p with beta := some x },
  RecordField.of "ncor" word Config.spacing (·.spacing) fun p n => { p with spacing := some n },
  RecordField.of "ncf" word Config.measurements (·.measurements) fun p n =>
    { p with measurements := some n },
  RecordField.of "spread" real Config.spread (·.spread) fun p x => { p with spread := some x },
  RecordField.of "number_of_pairs" word Config.pairs (·.pairs) fun p n =>
    { p with pairs := some n },
  RecordField.of "number_of_thermalisation" word Config.thermalisation (·.thermalisation) fun p n =>
    { p with thermalisation := some n },
  RecordField.of "start" start Config.start (·.start) fun p s => { p with start := some s }]

/-- A configuration is written with all its fields. What is missing when it is read is taken from a
given configuration. -/
def configOver {R : Type} [RealLiteral R] (base : Config R) : Format (Config R) :=
  RecordFormat.format {
    fields := configFields
    empty := ⟨none, none, none, none, none, none, none, none⟩
    complete := fun p => some (p.completedBy base)
    mayEndEarly := true }

/-- The format of configurations, over the standard one. -/
def config : Format (Config Float) := configOver Config.standard

end Format

end PureGauge
