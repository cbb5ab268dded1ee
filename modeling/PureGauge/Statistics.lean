/-
**Means, variances and errors of measurements.**

The mean is the sum over the number of samples, the variance the sum of the squared deviations from
the mean over that number less one, and the error of the mean the root of the variance over the
number of samples.  Fewer than two samples have no variance, and no samples have no error.  All sums
are taken in order from the left.

Main definitions:

* `PureGauge.Statistics.mean`, `PureGauge.Statistics.meanAndVariance`,
  `PureGauge.Statistics.meanWithError` — for real samples;
* `PureGauge.Statistics.complexMean`, `PureGauge.Statistics.complexMeanAndVariance` — for complex
  samples, whose deviations are squared without conjugation.
-/
import PureGauge.Scalar.Complex

namespace PureGauge

namespace Statistics

/-- Mean and variance for a kind of samples given by its sum and its division by a count. -/
@[specialize]
def momentsWith {T : Type} [Sub T] [Mul T] [Zero T] (sum : List T → T) (divide : T → Nat → T)
    (xs : List T) : T × T :=
  let mean := divide (sum xs) xs.length
  if xs.length < 2 then (mean, 0)
  else (mean, divide (sum (xs.map fun x => (x - mean) * (x - mean))) (xs.length - 1))

section

variable {R : Type} [Zero R] [Add R] [Sub R] [Mul R] [Neg R] [Div R] [NatCast R]

/-- The mean of real samples. -/
def mean (xs : List R) : R := realSum xs / (xs.length : R)

/-- The mean and the variance of real samples. -/
def meanAndVariance (xs : List R) : R × R := momentsWith realSum (fun x n => x / (n : R)) xs

/-- The variance of real samples. -/
def variance (xs : List R) : R := (meanAndVariance xs).2

/-- The mean of real samples and its error. -/
def meanWithError [RealFunctions R] (xs : List R) : R × R :=
  let (mean, variance) := meanAndVariance xs
  if xs.isEmpty then (mean, 0)
  else (mean, RealFunctions.sqrt (variance / (xs.length : R)))

end

section

variable {R : Type} [Zero R] [Add R] [Sub R] [Mul R] [Div R] [NatCast R]

/-- The mean of complex samples. -/
def complexMean (zs : List (Cplx R)) : Cplx R := (Cplx.sum zs).unscale (zs.length : R)

/-- The mean and the variance of complex samples. -/
def complexMeanAndVariance (zs : List (Cplx R)) : Cplx R × Cplx R :=
  momentsWith Cplx.sum (fun z n => z.unscale (n : R)) zs

/-- The variance of complex samples. -/
def complexVariance (zs : List (Cplx R)) : Cplx R := (complexMeanAndVariance zs).2

end

end Statistics

end PureGauge
