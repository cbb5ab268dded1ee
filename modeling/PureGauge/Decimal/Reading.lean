/-
**Reading numbers from texts.**

A count is written with decimal digits and may have a plus sign.  A real number has an optional
sign, digits with an optional point, of which there must be at least one, and an optional exponent;
the words for infinity and for what is not a number are read in any case.  The real number that is
read is the double nearest to the one that is written.

Main definitions:

* `PureGauge.readWord?` — a count below `2 ^ 64`;
* `PureGauge.readReal?` — a double.
-/
import PureGauge.Decimal.Digits

namespace PureGauge

/-- The value of a character as a decimal digit. -/
def digitValue? (c : Char) : Option Nat :=
  if '0' ≤ c ∧ c ≤ '9' then some (c.toNat - '0'.toNat) else none

/-- The number written by decimal digits. -/
def digitsValue (ds : List Char) : Nat :=
  ds.foldl (fun n c => 10 * n + (digitValue? c).getD 0) 0

/-- Whether a character is a decimal digit. -/
def isDigit (c : Char) : Bool := (digitValue? c).isSome

/-- A count below `2 ^ 64`: digits, perhaps after a plus sign. -/
def readWord? (text : String) : Option UInt64 :=
  let ds := match text.toList with
    | '+' :: rest => rest
    | all => all
  if ds = [] ∨ ds.any (fun c => !isDigit c) then none
  else
    let n := digitsValue ds
    if n < UInt64.size then some (UInt64.ofNat n) else none

/-- The double nearest to `n * 10 ^ e`. Numbers far outside the range are settled without computing
the power. -/
def nearestDouble (n : Nat) (e : Int) : Float :=
  if n = 0 then 0
  else
    let magnitude : Int := (natDigits n).length + e
    if 400 < magnitude then 1 / 0
    else if magnitude < -400 then 0
    else if 0 ≤ e then Float.ofScientific n false e.toNat
    else Float.ofScientific n true (-e).toNat

/-- The exponent at the end of a real number: nothing, or a sign and digits after an `e`. -/
def readExponent? (cs : List Char) : Option Int :=
  match cs with
  | [] => some 0
  | c :: rest =>
      if c = 'e' ∨ c = 'E' then
        let (negative, ds) := match rest with
          | '+' :: ds => (false, ds)
          | '-' :: ds => (true, ds)
          | ds => (false, ds)
        if ds = [] ∨ ds.any (fun c => !isDigit c) then none
        else
          let n : Int := digitsValue ds
          some (if negative then -n else n)
      else none

/-- A real number without a sign. -/
def readMagnitude? (cs : List Char) : Option Float :=
  let lower := String.ofList (cs.map Char.toLower)
  if lower = "inf" ∨ lower = "infinity" then some (1 / 0)
  else if lower = "nan" then some (0 / 0)
  else
    let whole := cs.takeWhile isDigit
    let rest := cs.dropWhile isDigit
    let (fraction, rest) := match rest with
      | '.' :: more => (more.takeWhile isDigit, more.dropWhile isDigit)
      | _ => ([], rest)
    if whole = [] ∧ fraction = [] then none
    else (readExponent? rest).map fun e =>
      nearestDouble (digitsValue (whole ++ fraction)) (e - fraction.length)

/-- A real number, rounded to the nearest double. -/
def readReal? (text : String) : Option Float :=
  match text.toList with
  | '-' :: rest => (readMagnitude? rest).map fun x => -x
  | '+' :: rest => readMagnitude? rest
  | all => readMagnitude? all

end PureGauge
