/-
**Comparison within a tolerance.**

Two numbers or two matrices agree if their distance is below a tolerance.  A comparison that fails
is reported with the numbers that failed it, and with a note if there is one.

Main definitions:

* `PureGauge.Cplx.text` — the text of a complex number;
* `PureGauge.Cplx.mismatch?`, `PureGauge.Mat3.mismatch?` — the report of a comparison that fails.
-/
import PureGauge.Scalar.Matrix
import PureGauge.Decimal.Text

namespace PureGauge

section

variable {R : Type} [Zero R] [Add R] [Sub R] [Mul R] [Neg R] [LT R] [DecidableLT R]
  [RealFunctions R] [RealText R]

/-- A note at the end of a report. -/
def noteText : Option String → String
  | none => ""
  | some note => " : " ++ note

/-- The text of a complex number: the real part, the sign of the imaginary part and its size. -/
def Cplx.text (z : Cplx R) : String :=
  if z.im < 0 then RealText.plain z.re ++ "-" ++ RealText.plain (-z.im) ++ "i"
  else RealText.plain z.re ++ "+" ++ RealText.plain z.im ++ "i"

/-- The report of two complex numbers that do not agree within a tolerance. -/
def Cplx.mismatch? (z w : Cplx R) (tolerance : R) (note : Option String) : Option String :=
  if (z - w).modulus < tolerance then none
  else some ("assertion failed: `(" ++ z.text ++ " - " ++ w.text ++ ").modulus() > "
    ++ RealText.plain tolerance ++ noteText note)

/-- The report of two matrices that do not agree within a tolerance. -/
def Mat3.mismatch? (m n : Mat3 R) (tolerance : R) (note : Option String) : Option String :=
  let norm := (m - n).norm
  if norm < tolerance then none
  else some ("assertion failed: norm `" ++ RealText.plain norm ++ " > "
    ++ RealText.plain tolerance ++ "`" ++ noteText note)

end

end PureGauge
