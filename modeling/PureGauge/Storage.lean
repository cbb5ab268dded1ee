/-
**Room for stored items.**

Items that are kept side by side take up a number of bytes, and that number has to be a signed word.
A request for more room than that is refused before anything is stored.

Main definitions:

* `PureGauge.Storage.Fits` — whether so many items can be stored;
* `PureGauge.Storage.room` — the request for their room.
-/
import PureGauge.Fault

namespace PureGauge

namespace Storage

/-- The bytes of a word, and of a real number. -/
def wordBytes : Nat := 8

/-- The bytes of a matrix, which consists of nine complex numbers. -/
def matrixBytes : Nat := 18 * wordBytes

/-- Whether `count` items of so many bytes each can be stored side by side. -/
def Fits (bytes count : Nat) : Prop := (bytes * count : Nat) ≤ Int64.maxValue.toInt

instance (bytes count : Nat) : Decidable (Fits bytes count) := inferInstanceAs (Decidable (_ ≤ _))

/-- The room for `count` items of so many bytes each. -/
def room (bytes count : Nat) : Checked Unit :=
  if Fits bytes count then .ok () else .error .storageTooLarge

theorem room_eq_ok_iff {bytes count : Nat} : room bytes count = .ok () ↔ Fits bytes count := by
  unfold room
  split <;> simp_all

end Storage

end PureGauge
