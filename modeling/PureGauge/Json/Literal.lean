/-
**Number literals.**

A number in a JSON text is a sign, digits, perhaps digits behind a point and perhaps an exponent.
Whether it is an integer is a matter of its form.  Its value as a double is computed from the
leading digits that fit into a word of 64 bits: they are rounded to a double, which is then
multiplied or divided by a power of ten.  A literal whose value is not finite has no value.

Main definitions:

* `PureGauge.NumberLiteral` and `PureGauge.NumberLiteral.text`;
* `PureGauge.NumberLiteral.word?`, `PureGauge.NumberLiteral.signedWord?` — integers;
* `PureGauge.NumberLiteral.double?` — the value as a double;
* `PureGauge.RealLiteral` — a type of scalars that are written as literals.
-/
import PureGauge.Decimal.Text
import PureGauge.Decimal.Reading

namespace PureGauge

/-- A number as it is written. There is always a digit before the point. -/
structure NumberLiteral where
  negative : Bool
  whole : List Char
  fraction : List Char
  exponent : Option Int
deriving DecidableEq

namespace NumberLiteral

/-- The literal of an integer. -/
def ofInt (i : Int) : NumberLiteral := ⟨decide (i < 0), natDigits i.natAbs, [], none⟩

/-- The characters of a literal. An exponent always has a sign. -/
def text (l : NumberLiteral) : List Char :=
  (if l.negative then ['-'] else []) ++ l.whole
    ++ (match l.fraction with
      | [] => []
      | ds => '.' :: ds)
    ++ (match l.exponent with
      | none => []
      | some e => 'e' :: (if e < 0 then '-' else '+') :: natDigits e.natAbs)

/-! ### Integers -/

/-- Whether a literal is written as an integer. -/
def isInteger (l : NumberLiteral) : Bool := l.fraction.isEmpty && l.exponent.isNone

/-- The word that a literal stands for. -/
def word? (l : NumberLiteral) : Option UInt64 :=
  let n := digitsValue l.whole
  if l.isInteger ∧ ¬ l.negative ∧ n < UInt64.size then some (UInt64.ofNat n) else none

/-- The signed word that a literal stands for. Minus zero is not an integer. -/
def signedWord? (l : NumberLiteral) : Option Int64 :=
  let n : Int := digitsValue l.whole
  let i := if l.negative then -n else n
  if ¬ l.isInteger ∨ (l.negative ∧ n = 0) then none
  else if Int64.minValue.toInt ≤ i ∧ i ≤ Int64.maxValue.toInt then some (Int64.ofInt i) else none

/-! ### Doubles -/

/-- A significand with further digits appended while it fits into a word, and the digits that were
left over. -/
def extend (significand : Nat) : List Char → Nat × List Char
  | [] => (significand, [])
  | c :: rest =>
      let longer := 10 * significand + (digitValue? c).getD 0
      if longer < UInt64.size then extend longer rest else (significand, c :: rest)

/-- A power of ten as a double. -/
def tenTo (n : Nat) : Float := Float.ofScientific 1 false n

/-- A finite double multiplied or divided by a power of ten, if the result is finite. With the
exponent zero nothing is done; large divisors are taken in two steps. -/
def scaled? (x : Float) (e : Int) : Option Float :=
  if e = 0 then some x
  else if 308 < e then if x == 0 then some x else none
  else if 0 ≤ e then
    let y := x * tenTo e.toNat
    if y.isInf then none else some y
  else if -308 ≤ e then some (x / tenTo (-e).toNat)
  else if -616 ≤ e then some (x / tenTo 308 / tenTo (-e - 308).toNat)
  else some 0

/-- The value of a literal as a double, if it is finite. -/
def double? (l : NumberLiteral) : Option Float :=
  let (significand, dropped) := extend 0 l.whole
  let (longer, left) := extend significand l.fraction
  let taken := l.fraction.length - left.length
  let e : Int := (dropped.length : Int) - taken + l.exponent.getD 0
  (scaled? (UInt64.ofNat longer).toFloat e).map fun x => if l.negative then -x else x

/-- Literals of doubles have a point, and an exponent outside `[10 ^ (-5), 10 ^ 16)`. -/
def layout : Layout := ⟨true, some (-5), .even⟩

/-- The literal of a finite double: its shortest digits in the layout of literals. -/
def ofDouble? (x : Float) : Option NumberLiteral :=
  match Double.ofFloat x with
  | .finite negative s power =>
      let d := Digits.shortest layout.tie s power
      if layout.usesExponent d then
        some ⟨negative, d.digits.take 1, d.digits.drop 1, some d.exponent⟩
      else
        let (whole, fraction) := Layout.positional d
        some ⟨negative, whole, if fraction.isEmpty then ['0'] else fraction, none⟩
  | _ => none

end NumberLiteral

/-- Scalars that are written as number literals. Those that are not finite have none. -/
class RealLiteral (R : Type) where
  literal? : R → Option NumberLiteral
  /-- The value of a literal that is within the range of a double. -/
  ofLiteral : NumberLiteral → R

instance : RealLiteral Float := ⟨NumberLiteral.ofDouble?, fun l => l.double?.getD 0⟩

end PureGauge
