/-
**Lattice states.**

A state is a lattice, the coupling `β` and a link field.  The states that are made here have a
positive finite coupling and one matrix for each link; a state that is read from a text is taken as
it is written.

Main definitions:

* `PureGauge.LatticeState` and `PureGauge.LatticeState.ofField` — a state made of its parts;
* `PureGauge.LatticeState.cold`, `PureGauge.LatticeState.hot`, `PureGauge.LatticeState.nearUnity` —
  the states that a simulation starts from;
* `PureGauge.LatticeState.withLinks` — another field of the right size.
-/
import PureGauge.Field.Plaquette
import PureGauge.Error

namespace PureGauge

/-- A lattice, a coupling and a link field. -/
structure LatticeState (R : Type) where
  lattice : Lattice
  beta : R
  links : LinkField R
deriving DecidableEq

namespace LatticeState

variable {G R : Type}

/-- Whether a coupling is positive and finite. -/
def validBeta [Zero R] [LT R] [DecidableLT R] [RealFunctions R] (beta : R) : Bool :=
  decide (0 < beta) && RealFunctions.isFinite beta

/-- The state with the given parts, if the coupling is valid and there is one matrix for each
link. -/
def ofField [Zero R] [LT R] [DecidableLT R] [RealFunctions R] (l : Lattice) (beta : R)
    (f : LinkField R) : Checked (Except (StateError R) (LatticeState R)) := do
  if ¬ validBeta beta then return .error (.nonPositiveBeta beta)
  else if (← l.linkCount) ≠ f.size then return .error .incompatibleSize
  else return .ok ⟨l, beta, f⟩

/-- The lattice with a given size, as a part of a state. -/
def latticeOfSize (n : UInt64) : Except (StateError R) Lattice :=
  match Lattice.ofSize? n with
  | some l => .ok l
  | none => .error (.lattice .zeroSize)

section

variable [WordSource G] [Zero R] [One R] [Add R] [Sub R] [Mul R] [Neg R] [Div R] [NatCast R] [BEq R]
  [LT R] [DecidableLT R] [LE R] [DecidableLE R] [RealFunctions R]

/-- A state whose field is drawn once the lattice is known. -/
def start (n : UInt64) (beta : R) (field : Lattice → Draw G (LinkField R)) :
    Draw G (Except (StateError R) (LatticeState R)) := do
  match latticeOfSize n with
  | .error error => return .error error
  | .ok l =>
      let f ← field l
      Draw.checked (ofField l beta f)

/-- The state of identities. -/
def cold (n : UInt64) (beta : R) : Draw G (Except (StateError R) (LatticeState R)) :=
  start n beta fun l => Draw.checked (LinkField.cold l)

/-- A state of uniformly distributed matrices. -/
def hot [NormalDeviate R] (n : UInt64) (beta : R) :
    Draw G (Except (StateError R) (LatticeState R)) :=
  start n beta LinkField.hot

/-- A state of random matrices close to the identity. -/
def nearUnity (n : UInt64) (beta : R) (s : Spread R) :
    Draw G (Except (StateError R) (LatticeState R)) :=
  start n beta fun l => LinkField.nearUnity l s

end

/-! ### Changing the links -/

/-- The state with another field, which must have one matrix for each link. -/
def withLinks (s : LatticeState R) (f : LinkField R) : Checked (LatticeState R) := do
  if (← s.lattice.linkCount) = f.size then return { s with links := f }
  else .error .wrongLinkCount

/-- The state with the matrix of a link replaced, unchanged if the field does not reach that far. -/
def setLink (s : LatticeState R) (k : Link) (m : Mat3 R) : Checked (LatticeState R) := do
  let i ← s.lattice.linkIndex k
  return { s with links := ⟨s.links.data.setIfInBounds i m⟩ }

/-- The state with every matrix projected onto the special unitary ones. -/
def normalised [Add R] [Sub R] [Mul R] [Neg R] [Div R] [LE R] [DecidableLE R]
    [RealFunctions R] (s : LatticeState R) : LatticeState R :=
  { s with links := s.links.normalised }

end LatticeState

end PureGauge
