/-
**Triangular form by reflections.**

A matrix, given as the list of its columns, is brought to triangular form one column at a time: a
reflection sends the first column to a multiple of the first unit vector, is applied to the other
columns, and the rest of the work is the same problem for these columns without their first entries.
The reflections are kept as they were applied, and the unitary factor is built from them from the
last to the first.

Main definitions:

* `PureGauge.Reflection` — an axis, and the diagonal entry it leaves behind;
* `PureGauge.Reflection.ofColumns` — the reflections that make a matrix triangular;
* `PureGauge.Reflection.unitary` — the unitary factor;
* `PureGauge.Mat3.unitaryTriangular` — the unitary factor and the diagonal of the triangular one.
-/
import PureGauge.Scalar.Matrix

namespace PureGauge

/-- A reflection: its axis, the entry that takes the place of the column it was made for, and
whether that column had any length. -/
structure Reflection (R : Type) where
  axis : List (Cplx R)
  diagonal : Cplx R
  proper : Bool

namespace Reflection

variable {R : Type} [Zero R] [One R] [Add R] [Sub R] [Mul R] [Neg R] [Div R] [BEq R]
  [RealFunctions R]

/-- The inner product of two columns, conjugate in the first. -/
def dot (a b : List (Cplx R)) : Cplx R := Cplx.sum (List.zipWith (fun x y => x.conj * y) a b)

/-- The reflection that sends a column to a multiple of the first unit vector. -/
def ofColumn (column : List (Cplx R)) : Reflection R :=
  let lengthSq := realSum (column.map Cplx.normSq)
  let length := RealFunctions.sqrt lengthSq
  match column with
  | [] => ⟨[], 0, false⟩
  | first :: rest =>
      let signed := first.phase.scale length
      let factor := (lengthSq + first.modulus * length) * (1 + 1)
      let axis := (first + signed) :: rest
      if factor == 0 then ⟨axis, signed, false⟩
      else ⟨axis.map (·.unscale (RealFunctions.sqrt factor)), -signed, true⟩

/-- The column reflected on an axis and turned by a phase. -/
def apply (axis : List (Cplx R)) (turn : Cplx R) (column : List (Cplx R)) : List (Cplx R) :=
  let factor := dot axis column * turn.scale (-(1 + 1))
  List.zipWith (fun a c => factor * a + turn * c) axis column

/-- The reflections that make a matrix triangular, the first column first. -/
def ofColumns : List (List (Cplx R)) → List (Reflection R)
  | [] => []
  | column :: others =>
      let r := ofColumn column
      let moved := if r.proper then others.map (apply r.axis r.diagonal.phase.conj) else others
      r :: ofColumns (moved.map List.tail)
termination_by columns => columns.length
decreasing_by
  split <;> simp

/-- The columns of the unitary factor. -/
def unitary : List (Reflection R) → List (List (Cplx R))
  | [] => []
  | r :: rest =>
      let inner := unitary rest
      let columns := (1 :: inner.map fun _ => 0) :: inner.map (0 :: ·)
      columns.map (apply r.axis r.diagonal.phase)

end Reflection

namespace Mat3

variable {R : Type} [Zero R] [One R] [Add R] [Sub R] [Mul R] [Neg R] [Div R] [BEq R]
  [RealFunctions R]

/-- A unitary factor of a matrix, and the moduli on the diagonal of the triangular factor. -/
def unitaryTriangular (m : Mat3 R) : Mat3 R × Vec3 R :=
  let reflections := Reflection.ofColumns [m.col0.toList, m.col1.toList, m.col2.toList]
  match Mat3.ofEntries? (Reflection.unitary reflections).flatten,
      reflections.map fun r => (⟨r.diagonal.modulus, 0⟩ : Cplx R) with
  | some q, [a, b, c] => (q, ⟨a, b, c⟩)
  | _, _ => (1, ⟨1, 1, 1⟩)

end Mat3

end PureGauge
