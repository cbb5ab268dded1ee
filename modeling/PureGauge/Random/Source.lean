/-
**Sources of random words.**

All randomness of the sampler comes from a source that hands out 64-bit words.  A draw is a
computation that takes words from a source; when it stops with a fault, the words it took stay
taken, so that the source goes on from where the fault found it.

Main definitions:

* `PureGauge.WordSource` — what a source is, and `PureGauge.Draw` — a computation that uses one;
* `PureGauge.Draw.word` — the next word, `PureGauge.Draw.checked` — a checked computation as a draw;
* `PureGauge.Draw.untilSome` — repeats an attempt until it yields something;
* `PureGauge.Draw.fraction53`, `PureGauge.Draw.fraction52` — a word as a number in `[0, 1)`;
* `PureGauge.Draw.below` — an unbiased index;
* `PureGauge.Script` — the source that reads a fixed list of words.
-/
import PureGauge.Scalar.Functions
import PureGauge.Fault

namespace PureGauge

/-- A source of random words: it yields the next word and the source after it, or stops. -/
class WordSource (G : Type) where
  next : G → Checked (UInt64 × G)

/-- A computation that takes random words from a source and may stop with a fault. -/
abbrev Draw (G α : Type) := EStateM Fault G α

/-- The number of attempts after which a rejection loop is given up.  No source that has any
randomness in it ever comes near. -/
def attemptLimit : Nat := UInt64.size

namespace Draw

variable {G α R : Type}

/-- The next word. -/
def word [WordSource G] : Draw G UInt64 := fun g =>
  match WordSource.next g with
  | .ok (w, g') => .ok w g'
  | .error fault => .error fault g

/-- A checked computation, which takes no words. -/
def checked (x : Checked α) : Draw G α := fun g =>
  match x with
  | .ok a => .ok a g
  | .error fault => .error fault g

/-- Repeats an attempt until it yields something, at most `limit` times. -/
def untilSomeWithin (attempt : Draw G (Option α)) : Nat → Draw G α
  | 0 => throw .unsettled
  | limit + 1 => do
      match ← attempt with
      | some a => return a
      | none => untilSomeWithin attempt limit

/-- Repeats an attempt until it yields something. -/
def untilSome (attempt : Draw G (Option α)) : Draw G α := untilSomeWithin attempt attemptLimit

/-- A list of `n` independent draws, in order. -/
def times (n : Nat) (draw : Draw G α) : Draw G (List α) := (List.replicate n draw).mapM id

/-! ### Numbers in the unit interval -/

/-- The upper 53 bits of a word as a multiple of `2 ^ (-53)` in `[0, 1)`. -/
def fraction53OfWord [NatCast R] [Div R] (w : UInt64) : R :=
  ((w >>> 11).toNat : R) / ((1 <<< 53 : Nat) : R)

/-- The upper 52 bits of a word as a multiple of `2 ^ (-52)` in `[0, 1)`. -/
def fraction52OfWord [NatCast R] [Div R] (w : UInt64) : R :=
  ((w >>> 12).toNat : R) / ((1 <<< 52 : Nat) : R)

/-- A number in `[0, 1)` from 53 bits. -/
def fraction53 [WordSource G] [NatCast R] [Div R] : Draw G R := do
  return fraction53OfWord (← word)

/-- A number in `[0, 1)` from 52 bits. -/
def fraction52 [WordSource G] [NatCast R] [Div R] : Draw G R := do
  return fraction52OfWord (← word)

/-! ### Indices -/

/-- The largest low half that is accepted when an index below `n` is drawn: it leaves every index
the same number of words. -/
def acceptedZone (n : Nat) : Nat := (n <<< (63 - n.log2)) - 1

/-- An index below `n`: the high half of the product of `n` with a word, unless the low half falls
outside the accepted zone. -/
def below [WordSource G] (n : Nat) : Draw G Nat :=
  if n = 0 then throw .nothingToChoose
  else untilSome do
    let product := (← word).toNat * n
    return if product % UInt64.size ≤ acceptedZone n then some (product / UInt64.size) else none

end Draw

/-! ### Scripts -/

/-- A source that reads a fixed list of words and then stops. -/
structure Script where
  words : List UInt64
deriving DecidableEq

instance : WordSource Script where
  next
    | ⟨[]⟩ => .error .scriptExhausted
    | ⟨w :: rest⟩ => .ok (w, ⟨rest⟩)

end PureGauge
