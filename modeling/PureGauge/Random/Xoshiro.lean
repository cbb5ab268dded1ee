/-
**A generator with four words of state.**

The generator adds two of its words, rotates and adds again to make an output, and mixes its state
with exclusive or, one shift and one rotation.  A seed is spread over the four words by a second,
simpler generator whose state is a counter.

Main definitions:

* `PureGauge.SplitMix.step` — the counter generator;
* `PureGauge.Xoshiro`, `PureGauge.Xoshiro.ofSeed` and `PureGauge.Xoshiro.step`.
-/
import PureGauge.Random.Source

namespace PureGauge

namespace SplitMix

/-- One step of the counter generator: an output and the next state. -/
def step (x : UInt64) : UInt64 × UInt64 :=
  let x := x + 0x9e3779b97f4a7c15
  let z := (x ^^^ (x >>> 30)) * 0xbf58476d1ce4e5b9
  let z := (z ^^^ (z >>> 27)) * 0x94d049bb133111eb
  (z ^^^ (z >>> 31), x)

end SplitMix

/-- The four words of state. -/
structure Xoshiro where
  s0 : UInt64
  s1 : UInt64
  s2 : UInt64
  s3 : UInt64
deriving DecidableEq

namespace Xoshiro

/-- A word rotated to the left. -/
@[inline] def rotateLeft (x : UInt64) (k : UInt64) : UInt64 := (x <<< k) ||| (x >>> (64 - k))

/-- The state made from one seed. -/
def ofSeed (seed : UInt64) : Xoshiro :=
  let (s0, x) := SplitMix.step seed
  let (s1, x) := SplitMix.step x
  let (s2, x) := SplitMix.step x
  let (s3, _) := SplitMix.step x
  ⟨s0, s1, s2, s3⟩

/-- The next output and the state after it. -/
def step (g : Xoshiro) : UInt64 × Xoshiro :=
  let output := rotateLeft (g.s0 + g.s3) 23 + g.s0
  let t := g.s1 <<< 17
  let s2 := g.s2 ^^^ g.s0
  let s3 := g.s3 ^^^ g.s1
  let s1 := g.s1 ^^^ s2
  let s0 := g.s0 ^^^ s3
  (output, ⟨s0, s1, s2 ^^^ t, rotateLeft s3 45⟩)

instance : WordSource Xoshiro := ⟨fun g => .ok g.step⟩

end Xoshiro

end PureGauge
