/-
**The link field.**

The field holds one matrix for each link of a lattice, in the order of the numbers of the links.
The buffer knows nothing of the lattice: it may be too short or too long for it, and an access says
so.

Main definitions:

* `PureGauge.LinkField` — the buffer;
* `PureGauge.LinkField.matrix?`, `PureGauge.LinkField.set?` — the matrix of a link, read and
  replaced;
* `PureGauge.LinkField.at`, `PureGauge.LinkField.setAt` — the same by number;
* `PureGauge.LinkField.cold`, `PureGauge.LinkField.hot`, `PureGauge.LinkField.nearUnity` — fields to
  start from;
* `PureGauge.LinkField.normalised` — every matrix projected onto the special unitary ones.
-/
import PureGauge.Lattice.Basic
import PureGauge.SU3.Haar
import PureGauge.SU3.NearUnity
import PureGauge.Storage

namespace PureGauge

/-- One matrix for each link, in the order of the numbers of the links. -/
structure LinkField (R : Type) where
  data : Array (Mat3 R)
deriving DecidableEq

namespace LinkField

variable {G R : Type}

/-- The number of matrices. -/
def size (f : LinkField R) : Nat := f.data.size

/-- The matrix with number `i`. -/
@[inline] def «at» (f : LinkField R) (i : Nat) : Checked (Mat3 R) :=
  match f.data[i]? with
  | some m => .ok m
  | none => .error (.outsideBuffer f.data.size i)

/-- The field with the matrix at number `i` replaced. -/
def setAt (f : LinkField R) (i : Nat) (m : Mat3 R) : Checked (LinkField R) :=
  if h : i < f.data.size then .ok ⟨f.data.set i m⟩ else .error (.outsideBuffer f.data.size i)

/-- The matrix of a link, if the buffer reaches that far. -/
def matrix? (f : LinkField R) (l : Lattice) (k : Link) : Checked (Option (Mat3 R)) := do
  return f.data[(← l.linkIndex k)]?

/-- The matrix that a link had and the field with another one in its place, if the buffer reaches
that far. -/
def set? (f : LinkField R) (l : Lattice) (k : Link) (m : Mat3 R) :
    Checked (Option (Mat3 R) × LinkField R) := do
  let i ← l.linkIndex k
  if h : i < f.data.size then return (some f.data[i], ⟨f.data.set i m⟩) else return (none, f)

/-- The matrix of a link of which the buffer has to have one. -/
@[inline] def link (f : LinkField R) (l : Lattice) (k : Link) : Checked (Mat3 R) := do
  f.at (← l.linkIndex k)

/-! ### Fields to start from -/

/-- The field of identities. -/
def cold [Zero R] [One R] (l : Lattice) : Checked (LinkField R) := do
  let n ← l.linkCount
  Storage.room Storage.matrixBytes n
  return ⟨Array.replicate n 1⟩

/-- A field drawn link by link.  The room for all matrices is asked for when the first one is
there. -/
def drawn (l : Lattice) (draw : Draw G (Mat3 R)) : Draw G (LinkField R) := do
  let n ← Draw.checked l.linkCount
  if Storage.Fits Storage.matrixBytes n then return ⟨(← Draw.times n draw).toArray⟩
  else
    let _ ← draw
    throw .storageTooLarge

section

variable [WordSource G] [Zero R] [One R] [Add R] [Sub R] [Mul R] [Neg R] [Div R] [NatCast R] [BEq R]
  [LT R] [DecidableLT R] [LE R] [DecidableLE R] [RealFunctions R]

/-- A field of uniformly distributed matrices. -/
def hot [NormalDeviate R] (l : Lattice) : Draw G (LinkField R) := drawn l Mat3.haar

/-- A field of random matrices close to the identity. -/
def nearUnity (l : Lattice) (s : Spread R) : Draw G (LinkField R) := drawn l (Mat3.nearUnity s)

end

/-- Every matrix projected onto the special unitary ones. -/
def normalised [Add R] [Sub R] [Mul R] [Neg R] [Div R] [LE R] [DecidableLE R]
    [RealFunctions R] (f : LinkField R) : LinkField R :=
  ⟨f.data.map Mat3.orthonormalised⟩

end LinkField

end PureGauge
