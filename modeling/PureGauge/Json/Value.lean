/-
**JSON values and their texts.**

A value is written either without any blank, or spread over lines with two blanks for each level.

Main definitions:

* `PureGauge.Json` — null, truth values, numbers, texts, lists and records;
* `PureGauge.Json.compact` — the text without blanks;
* `PureGauge.Json.pretty` — the text spread over lines.
-/
import PureGauge.Json.Literal

namespace PureGauge

/-- A JSON value. The fields of a record keep their order. -/
inductive Json where
  | null
  | truth (value : Bool)
  | number (literal : NumberLiteral)
  | text (value : String)
  | list (items : List Json)
  | record (fields : List (String × Json))

namespace Json

/-- The value of an integer. -/
def int (i : Int) : Json := number (.ofInt i)

/-- The value of a scalar; one that is not finite is written as null. -/
def real {R : Type} [RealLiteral R] (x : R) : Json :=
  match RealLiteral.literal? x with
  | some l => number l
  | none => null

/-! ### Quoted texts -/

/-- A digit below sixteen. -/
def hexDigit (n : Nat) : Char := if n < 10 then Char.ofNat (48 + n) else Char.ofNat (87 + n)

/-- A character inside a quoted text. -/
def escaped (c : Char) : List Char :=
  if c = '"' then ['\\', '"']
  else if c = '\\' then ['\\', '\\']
  else if c = '\n' then ['\\', 'n']
  else if c = '\r' then ['\\', 'r']
  else if c = '\t' then ['\\', 't']
  else if c = '\x08' then ['\\', 'b']
  else if c = '\x0c' then ['\\', 'f']
  else if c.toNat < 32 then
    ['\\', 'u', '0', '0', hexDigit (c.toNat / 16), hexDigit (c.toNat % 16)]
  else [c]

/-- A text between quotes. -/
def quoted (s : String) : List Char := '"' :: s.toList.flatMap escaped ++ ['"']

/-! ### Texts without blanks -/

mutual

/-- The characters of a value, without blanks. -/
def chars : Json → List Char
  | null => ['n', 'u', 'l', 'l']
  | truth true => ['t', 'r', 'u', 'e']
  | truth false => ['f', 'a', 'l', 's', 'e']
  | number l => l.text
  | text s => quoted s
  | list items => '[' :: itemChars items
  | record fields => '\x7b' :: fieldChars fields

/-- The characters of the items of a list and of the bracket that closes it. -/
def itemChars : List Json → List Char
  | [] => [']']
  | [v] => v.chars ++ [']']
  | v :: rest => v.chars ++ ',' :: itemChars rest

/-- The characters of the fields of a record and of the brace that closes it. -/
def fieldChars : List (String × Json) → List Char
  | [] => ['\x7d']
  | [(k, v)] => quoted k ++ ':' :: v.chars ++ ['\x7d']
  | (k, v) :: rest => quoted k ++ ':' :: v.chars ++ ',' :: fieldChars rest

end

/-- The text of a value without blanks. -/
def compact (v : Json) : String := String.ofList v.chars

/-! ### Texts spread over lines -/

/-- A new line with the blanks of a level. -/
def newLine (level : Nat) : List Char := '\n' :: List.replicate (2 * level) ' '

mutual

/-- The characters of a value that stands at a level. -/
def prettyChars (level : Nat) : Json → List Char
  | list items => '[' :: prettyItems level true items
  | record fields => '\x7b' :: prettyFields level true fields
  | v => v.chars

/-- The characters of the items of a list and of the bracket that closes it; the flag tells whether
no item was written yet. -/
def prettyItems (level : Nat) (first : Bool) : List Json → List Char
  | [] => if first then [']'] else newLine level ++ [']']
  | v :: rest =>
      (if first then [] else [',']) ++ newLine (level + 1) ++ prettyChars (level + 1) v
        ++ prettyItems level false rest

/-- The characters of the fields of a record and of the brace that closes it. -/
def prettyFields (level : Nat) (first : Bool) : List (String × Json) → List Char
  | [] => if first then ['\x7d'] else newLine level ++ ['\x7d']
  | (k, v) :: rest =>
      (if first then [] else [',']) ++ newLine (level + 1) ++ quoted k ++ ':' :: ' ' ::
        prettyChars (level + 1) v ++ prettyFields level false rest

end

/-- The text of a value spread over lines. -/
def pretty (v : Json) : String := String.ofList (prettyChars 0 v)

end Json

end PureGauge
