/-
**Faults: why an operation cannot go on.**

An operation of this library either answers or stops for one of the causes listed here: a word that
does not fit into 64 bits, a request for too much room, an index outside a buffer, a source of
random words that has run out, a job that gave up.  The cause is a value, so that a statement can
say *when* an operation stops; its wording is the business of one function.

Main definitions:

* `PureGauge.JobPanic` — what a job leaves behind when it gives up;
* `PureGauge.Fault` — the causes, and `PureGauge.Fault.message` — their wording;
* `PureGauge.Checked` — a computation that answers or stops with a fault.
-/

namespace PureGauge

/-- What a job leaves behind when it gives up: a text, or something that cannot be read. -/
inductive JobPanic where
  | text (message : String)
  | wordless
deriving DecidableEq

/-- The text of a panic, if it has one. -/
def JobPanic.text? : JobPanic → Option String
  | text message => some message
  | wordless => none

/-- The causes for which an operation stops. -/
inductive Fault where
  /-- A sum does not fit into its word. -/
  | sumTooLarge
  /-- A product does not fit into its word. -/
  | productTooLarge
  /-- A remainder by zero. -/
  | zeroDivisor
  /-- The remainder of the least signed word by minus one. -/
  | remainderTooLarge
  /-- A number of items that is too large to store them side by side. -/
  | storageTooLarge
  /-- A position that is not below the size of the buffer. -/
  | outsideBuffer (size position : Nat)
  /-- A coordinate number above three. -/
  | noSuchCoordinate
  /-- A plaquette spanned by twice the same direction. -/
  | flatPlaquette
  /-- A buffer whose size is not the number of links of the lattice. -/
  | wrongLinkCount
  /-- A walk that takes every zeroth item. -/
  | zeroStride
  /-- A choice among no alternatives. -/
  | nothingToChoose
  /-- A scripted source of random words has none left. -/
  | scriptExhausted
  /-- A rejection loop has used up its attempts. -/
  | unsettled
  /-- A job gave up. -/
  | job (panic : JobPanic)
deriving DecidableEq

/-- The wording of a fault. -/
def Fault.message : Fault → String
  | sumTooLarge => "attempt to add with overflow"
  | productTooLarge => "attempt to multiply with overflow"
  | zeroDivisor => "attempt to calculate the remainder with a divisor of zero"
  | remainderTooLarge => "attempt to calculate the remainder with overflow"
  | storageTooLarge => "capacity overflow"
  | outsideBuffer size position =>
      "index out of bounds: the len is " ++ toString size ++ " but the index is "
        ++ toString position
  | noSuchCoordinate => "Matrix index out of bounds."
  | flatPlaquette => "assertion `left != right` failed: a plaquette needs two different directions"
  | wrongLinkCount => "assertion `left == right` failed: incompatible number of links"
  | zeroStride => "assertion failed: step != 0"
  | nothingToChoose => "cannot sample empty range"
  | scriptExhausted => "scripted generator exhausted"
  | unsettled => "no attempt was accepted"
  | job panic => panic.text?.getD ""

/-- A computation that answers or stops with a fault. -/
abbrev Checked (α : Type) := Except Fault α

end PureGauge
