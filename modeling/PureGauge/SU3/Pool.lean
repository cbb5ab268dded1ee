/-
**The pool of proposals.**

The matrices that an update may multiply a link with are made once.  They come in pairs of a matrix
and its adjoint, so that every proposal can be undone by another one that is equally likely.

Main definitions:

* `PureGauge.Pool`, `PureGauge.Pool.generate` — the pool and how it is made;
* `PureGauge.Pool.choose` — one of its matrices, each with the same probability.
-/
import PureGauge.SU3.NearUnity
import PureGauge.Storage
import PureGauge.Word

namespace PureGauge

/-- The matrices that may be proposed, and the spread they were made with. -/
structure Pool (R : Type) where
  matrices : Array (Mat3 R)
  spread : Spread R
deriving DecidableEq

namespace Pool

variable {G R : Type} [WordSource G] [Zero R] [One R] [Add R] [Sub R] [Mul R] [Neg R] [Div R]
  [NatCast R] [BEq R] [LT R] [DecidableLT R] [RealFunctions R]

/-- A pool of `pairs` random matrices, each followed by its adjoint; there is none without a
pair. -/
def generate (pairs : Nat) (s : Spread R) : Draw G (Option (Pool R)) :=
  if pairs = 0 then return none
  else do
    let size ← Draw.checked (Word.mul 2 pairs)
    Draw.checked (Storage.room Storage.matrixBytes size)
    let made ← Draw.times pairs (Mat3.nearUnity s)
    return some ⟨(made.flatMap fun m => [m, m.adjoint]).toArray, s⟩

/-- The index of a matrix of the pool, uniformly distributed. -/
def chooseIndex (pool : Pool R) : Draw G Nat := Draw.below pool.matrices.size

/-- A matrix of the pool, each index being equally likely. -/
def choose (pool : Pool R) : Draw G (Mat3 R) := do
  let i ← pool.chooseIndex
  match pool.matrices[i]? with
  | some m => return m
  | none => throw (.outsideBuffer pool.matrices.size i)

end Pool

end PureGauge
