/-
**Normally distributed numbers.**

A word chooses one of the layers under the density and a point of its width.  Nearly always the
point lies under the layer above, and is taken as it is; otherwise a second number decides whether
the point of the layer lies under the density, and in the last layer the tail is drawn on its own.

Main definitions:

* `PureGauge.NormalDeviate` — a type of scalars for which a normal number can be drawn;
* `PureGauge.Normal.double` — the draw for doubles.
-/
import PureGauge.Random.Source
import PureGauge.Random.Layers

namespace PureGauge

/-- Scalars for which a number with the standard normal distribution can be drawn. -/
class NormalDeviate (R : Type) where
  draw : {G : Type} → [WordSource G] → Draw G R

namespace Normal

variable {G : Type} [WordSource G]

/-- A number strictly between zero and one. -/
def openFraction : Draw G Float := do
  let u : Float ← Draw.fraction52
  return (1 + u) - (1 - (1 : Float).scaleB (-53))

/-- A number beyond `Layers.tailStart`, with the sign of `v` turned around unless it is negative. -/
def tail (v : Float) : Draw G Float := Draw.untilSome do
  let a ← openFraction
  let b ← openFraction
  let x := a.log / Layers.tailStart
  let y := b.log
  if -2 * y < x * x then return none
  else return some (if v < 0 then x - Layers.tailStart else Layers.tailStart - x)

/-- A double with the standard normal distribution. -/
def double : Draw G Float := Draw.untilSome do
  let w ← Draw.word
  let i := (w &&& 255).toNat
  let v := (w >>> 12).toFloat.scaleB (-51) + 2 - 3
  let x := v * Layers.edge[i]!
  if x.abs < Layers.edge[i + 1]! then return some x
  else if i = 0 then return some (← tail v)
  else
    let u : Float ← Draw.fraction53
    let lower := Layers.height[i + 1]!
    if lower + (Layers.height[i]! - lower) * u < (-x * x / 2).exp then return some x
    else return none

end Normal

instance : NormalDeviate Float := ⟨Normal.double⟩

end PureGauge
