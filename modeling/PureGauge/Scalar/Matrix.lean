/-
**Vectors and matrices of size three.**

A matrix is kept as its three columns, because everything that is done to it goes column by column:
a product is a matrix applied to the columns of the other factor, an orthonormalisation works on the
first two columns, and a text lists the entries in that order.

The product of a matrix and a vector is accumulated from the left, and each partial sum is scaled by
one.  For finite scalars that scaling changes nothing; an infinite entry spreads through it as not a
number.

Main definitions:

* `PureGauge.Vec3` with `PureGauge.Vec3.dot`, `PureGauge.Vec3.cross` and `PureGauge.Vec3.norm`;
* `PureGauge.Mat3` with product, adjoint, trace, determinant and norm.
-/
import PureGauge.Scalar.Complex

namespace PureGauge

/-! ### Vectors -/

/-- A vector with three complex components. -/
structure Vec3 (R : Type) where
  x : Cplx R
  y : Cplx R
  z : Cplx R
deriving DecidableEq

namespace Vec3

variable {R : Type}

/-- A function applied to each component. -/
@[inline] def map (f : Cplx R → Cplx R) (v : Vec3 R) : Vec3 R := ⟨f v.x, f v.y, f v.z⟩

@[inline] instance [Add R] : Add (Vec3 R) := ⟨fun v w => ⟨v.x + w.x, v.y + w.y, v.z + w.z⟩⟩

@[inline] instance [Sub R] : Sub (Vec3 R) := ⟨fun v w => ⟨v.x - w.x, v.y - w.y, v.z - w.z⟩⟩

/-- Every component times a complex number. -/
def smul [Add R] [Sub R] [Mul R] (v : Vec3 R) (c : Cplx R) : Vec3 R := v.map (· * c)

/-- Every component conjugated. -/
def conj [Neg R] (v : Vec3 R) : Vec3 R := v.map Cplx.conj

/-- The inner product, conjugate in the first vector. -/
def dot [Add R] [Sub R] [Mul R] [Neg R] (v w : Vec3 R) : Cplx R :=
  v.x.conj * w.x + v.y.conj * w.y + v.z.conj * w.z

/-- The square of the length. -/
@[inline] def normSq [Add R] [Mul R] (v : Vec3 R) : R := v.x.normSq + v.y.normSq + v.z.normSq

/-- The length. -/
def norm [Add R] [Mul R] [RealFunctions R] (v : Vec3 R) : R := RealFunctions.sqrt v.normSq

/-- The vector product. -/
def cross [Add R] [Sub R] [Mul R] (v w : Vec3 R) : Vec3 R :=
  ⟨v.y * w.z - v.z * w.y, v.z * w.x - v.x * w.z, v.x * w.y - v.y * w.x⟩

/-- The components in order. -/
def toList (v : Vec3 R) : List (Cplx R) := [v.x, v.y, v.z]

end Vec3

/-! ### Matrices -/

/-- A matrix of three columns. -/
structure Mat3 (R : Type) where
  col0 : Vec3 R
  col1 : Vec3 R
  col2 : Vec3 R
deriving DecidableEq

namespace Mat3

variable {R : Type}

/-- The matrix with the given rows. -/
def ofRows (a b c : Vec3 R) : Mat3 R :=
  ⟨⟨a.x, b.x, c.x⟩, ⟨a.y, b.y, c.y⟩, ⟨a.z, b.z, c.z⟩⟩

/-- The rows from top to bottom. -/
def rows (m : Mat3 R) : List (Vec3 R) :=
  [⟨m.col0.x, m.col1.x, m.col2.x⟩, ⟨m.col0.y, m.col1.y, m.col2.y⟩,
    ⟨m.col0.z, m.col1.z, m.col2.z⟩]

/-- The nine entries, column by column. -/
def entries (m : Mat3 R) : List (Cplx R) := m.col0.toList ++ m.col1.toList ++ m.col2.toList

/-- The matrix whose nine entries, column by column, are the members of a list. -/
def ofEntries? : List (Cplx R) → Option (Mat3 R)
  | [a, b, c, d, e, f, g, h, i] => some ⟨⟨a, b, c⟩, ⟨d, e, f⟩, ⟨g, h, i⟩⟩
  | _ => none

instance [Zero R] : Zero (Mat3 R) := ⟨⟨⟨0, 0, 0⟩, ⟨0, 0, 0⟩, ⟨0, 0, 0⟩⟩⟩

instance [Zero R] [One R] : One (Mat3 R) := ⟨⟨⟨1, 0, 0⟩, ⟨0, 1, 0⟩, ⟨0, 0, 1⟩⟩⟩

@[inline] instance [Add R] : Add (Mat3 R) :=
  ⟨fun m n => ⟨m.col0 + n.col0, m.col1 + n.col1, m.col2 + n.col2⟩⟩

@[inline] instance [Sub R] : Sub (Mat3 R) :=
  ⟨fun m n => ⟨m.col0 - n.col0, m.col1 - n.col1, m.col2 - n.col2⟩⟩

/-- A function applied to each entry. -/
@[inline] def map (f : Cplx R → Cplx R) (m : Mat3 R) : Mat3 R :=
  ⟨m.col0.map f, m.col1.map f, m.col2.map f⟩

/-- Every entry times a complex number. -/
def smul [Add R] [Sub R] [Mul R] (m : Mat3 R) (c : Cplx R) : Mat3 R := m.map (· * c)

/-- The matrix with the given diagonal. -/
def diagonal [Zero R] (v : Vec3 R) : Mat3 R := ⟨⟨v.x, 0, 0⟩, ⟨0, v.y, 0⟩, ⟨0, 0, v.z⟩⟩

/-- One component of a matrix applied to a vector: the row `(a, b, c)` against `v`. -/
@[inline] def rowTimes [Zero R] [One R] [Add R] [Sub R] [Mul R] (a b c : Cplx R) (v : Vec3 R) :
    Cplx R :=
  1 * c * v.z + 1 * (1 * b * v.y + 1 * (1 * a * v.x))

/-- A matrix applied to a vector. -/
@[specialize] def apply [Zero R] [One R] [Add R] [Sub R] [Mul R] (m : Mat3 R) (v : Vec3 R) :
    Vec3 R :=
  ⟨rowTimes m.col0.x m.col1.x m.col2.x v, rowTimes m.col0.y m.col1.y m.col2.y v,
    rowTimes m.col0.z m.col1.z m.col2.z v⟩

/-- The product: the first matrix applied to the columns of the second. -/
@[specialize] def mul [Zero R] [One R] [Add R] [Sub R] [Mul R] (m n : Mat3 R) : Mat3 R :=
  ⟨m.apply n.col0, m.apply n.col1, m.apply n.col2⟩

@[inline] instance [Zero R] [One R] [Add R] [Sub R] [Mul R] : Mul (Mat3 R) := ⟨mul⟩

/-- The conjugate transpose. -/
@[inline] def adjoint [Neg R] (m : Mat3 R) : Mat3 R :=
  ofRows m.col0.conj m.col1.conj m.col2.conj

/-- The sum of the diagonal. -/
@[inline] def trace [Add R] (m : Mat3 R) : Cplx R := m.col0.x + m.col1.y + m.col2.z

/-- The determinant, expanded along the first row. -/
def det [Add R] [Sub R] [Mul R] (m : Mat3 R) : Cplx R :=
  m.col0.x * (m.col1.y * m.col2.z - m.col1.z * m.col2.y)
    - m.col1.x * (m.col0.y * m.col2.z - m.col0.z * m.col2.y)
    + m.col2.x * (m.col0.y * m.col1.z - m.col0.z * m.col1.y)

/-- The square root of the sum of the squared moduli of all entries. -/
def norm [Add R] [Mul R] [RealFunctions R] (m : Mat3 R) : R :=
  RealFunctions.sqrt (m.col0.normSq + m.col1.normSq + m.col2.normSq)

end Mat3

end PureGauge
