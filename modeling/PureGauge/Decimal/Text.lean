/-
**Texts of real numbers.**

The same digits are laid out in different ways: messages never use an exponent, the texts of errors
mark every number as a real one, and rates are given with a fixed number of places.  What a layout
shares with the others is here once; where they differ is one record of decisions.

Main definitions:

* `PureGauge.Layout` — the decisions, with `PureGauge.Layout.plain` and `PureGauge.Layout.marked`;
* `PureGauge.Layout.text` — the text of a double;
* `PureGauge.fixedText`, `PureGauge.scientificText` — a fixed number of places or of digits;
* `PureGauge.RealText` — a type of scalars with texts.
-/
import PureGauge.Decimal.Digits

namespace PureGauge

/-- How digits are laid out. -/
structure Layout where
  /-- Whether an integral number is followed by a point and a zero. -/
  point : Bool
  /-- The least exponent of a number that is written without one. If there is such a bound, numbers
  from `10 ^ 16` on are written with an exponent too. -/
  least : Option Int
  /-- Which of the shortest texts is taken when two of them are equally near. -/
  tie : Tie
deriving DecidableEq

namespace Layout

/-- Digits only, whatever the size of the number. -/
def plain : Layout := ⟨false, none, .up⟩

/-- Marked as a real number, with an exponent below `10 ^ (-4)` and from `10 ^ 16` on. -/
def marked : Layout := ⟨true, some (-4), .up⟩

/-- The part before the point and the part after it, for digits without an exponent. -/
def positional (d : Digits) : List Char × List Char :=
  if d.exponent < 0 then
    (['0'], List.replicate (-d.exponent - 1).toNat '0' ++ d.digits)
  else
    let n := d.exponent.toNat + 1
    (d.digits.take n ++ List.replicate (n - d.digits.length) '0', d.digits.drop n)

/-- Whether a number is written with an exponent. -/
def usesExponent (l : Layout) (d : Digits) : Bool :=
  match l.least with
  | none => false
  | some least => decide (d.exponent < least) || decide (16 ≤ d.exponent)

/-- The digits of an integer, with a sign if it is negative. -/
def exponentText (e : Int) : List Char :=
  if e < 0 then '-' :: natDigits (-e).toNat else natDigits e.toNat

/-- The text of digits. -/
def digitsText (l : Layout) (d : Digits) : List Char :=
  if l.usesExponent d then
    d.digits.take 1 ++ (if d.digits.length ≤ 1 then [] else '.' :: d.digits.drop 1) ++ 'e' ::
      exponentText d.exponent
  else
    let (whole, fraction) := positional d
    match fraction with
    | [] => if l.point then whole ++ ['.', '0'] else whole
    | _ => whole ++ '.' :: fraction

/-- The text of a double. -/
def text (l : Layout) (x : Float) : String :=
  match Double.ofFloat x with
  | .notANumber => "NaN"
  | .infinite negative => if negative then "-inf" else "inf"
  | .finite negative s power =>
      let body := String.ofList (l.digitsText (Digits.shortest l.tie s power))
      if negative then "-" ++ body else body

end Layout

/-- The text of a double with a fixed number of decimal places. -/
def fixedText (places : Nat) (x : Float) : String :=
  match Double.ofFloat x with
  | .notANumber => "NaN"
  | .infinite negative => if negative then "-inf" else "inf"
  | .finite negative s power =>
      let (v, w) := fractionPower 2 power
      let ds := natDigits (roundQuotient (s * v * Nat.pow 10 places) w)
      let ds := List.replicate (places + 1 - ds.length) '0' ++ ds
      let n := ds.length - places
      let body := String.ofList (ds.take n ++ (if places = 0 then [] else '.' :: ds.drop n))
      if negative then "-" ++ body else body

/-- The text of a double with one digit before the point, a fixed number after it, and an
exponent. -/
def scientificText (places : Nat) (x : Float) : String :=
  match Double.ofFloat x with
  | .notANumber => "NaN"
  | .infinite negative => if negative then "-inf" else "inf"
  | .finite negative s power =>
      let d := Digits.rounded s power places
      let body := d.digits.take 1 ++ (if places = 0 then [] else '.' :: d.digits.drop 1) ++ 'e' ::
        Layout.exponentText d.exponent
      let body := String.ofList body
      if negative then "-" ++ body else body

/-- Scalars that have texts. -/
class RealText (R : Type) where
  /-- The text in messages. -/
  plain : R → String
  /-- The text in the shown form of an error. -/
  marked : R → String
  /-- The text with a fixed number of decimal places. -/
  fixed : Nat → R → String

instance : RealText Float := ⟨Layout.plain.text, Layout.marked.text, fixedText⟩

end PureGauge
