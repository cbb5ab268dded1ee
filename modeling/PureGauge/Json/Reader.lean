/-
**Reading JSON texts.**

A text is read from left to right, and what is expected at each place decides what is read there.
The first thing that goes wrong is the answer, and it is one of three: the text ends early, it is
not JSON, or it is JSON of another kind than the expected one.  A value that is read only to be
skipped is looked at less closely than one that is used: the escapes in its texts and the size of
its numbers do not matter.

Main definitions:

* `PureGauge.ReadError`, `PureGauge.Reader`;
* `PureGauge.Reader.number`, `PureGauge.Reader.textRest` — numbers and quoted texts;
* `PureGauge.Reader.refuse` — the answer to a value of another kind;
* `PureGauge.Reader.list`, `PureGauge.Reader.exactly`, `PureGauge.Reader.tuple` — lists;
* `PureGauge.Reader.variant` — one of several names;
* `PureGauge.Reader.skipValue` — any value;
* `PureGauge.Reader.whole` — a value that is all of a text.
-/
import PureGauge.Json.Value

namespace PureGauge

/-- What can go wrong when a text is read. -/
inductive ReadError where
  /-- The text ends early. -/
  | truncated
  /-- The text is not JSON. -/
  | malformed
  /-- The text holds a value of another kind. -/
  | mismatched
deriving DecidableEq

/-- A computation that reads from the characters that are left. -/
abbrev Reader (α : Type) := EStateM ReadError (List Char) α

namespace Reader

variable {α β : Type}

/-! ### Characters -/

/-- Whether a character is blank. -/
def isBlank (c : Char) : Bool := c = ' ' || c = '\n' || c = '\t' || c = '\r'

/-- The next character, which stays unread. -/
def peek : Reader (Option Char) := fun cs => .ok cs.head? cs

/-- Passes over a character. -/
def advance : Reader Unit := modify List.tail

/-- Passes over blanks, and looks at the character behind them. -/
def next : Reader (Option Char) := do
  modify (List.dropWhile isBlank)
  peek

/-- Passes over blanks; there has to be a character behind them. -/
def start : Reader Char := do
  match ← next with
  | some c => return c
  | none => throw .truncated

/-- Runs a repetition with a bound that the characters left cannot exceed. -/
def bounded (repetition : Nat → Reader α) : Reader α := fun cs => repetition (cs.length + 1) cs

/-- The given characters. -/
def keyword : List Char → Reader Unit
  | [] => return ()
  | expected :: rest => do
      match ← peek with
      | none => throw .truncated
      | some c =>
          if c = expected then
            advance
            keyword rest
          else throw .malformed

/-! ### Numbers -/

/-- Digits, as many as there are. -/
def digits : Reader (List Char) := fun cs => .ok (cs.takeWhile isDigit) (cs.dropWhile isDigit)

/-- At least one digit; `ended` is the answer if the text ends instead. -/
def digits1 (ended : ReadError) : Reader (List Char) := do
  match ← digits with
  | [] => throw (if (← peek).isNone then ended else .malformed)
  | ds => return ds

/-- The digits before the point, without a superfluous zero in front. -/
def wholePart (ended : ReadError) : Reader (List Char) := do
  if (← peek) = some '0' then
    advance
    match ← peek with
    | some c => if isDigit c then throw .malformed else return ['0']
    | none => return ['0']
  else digits1 ended

/-- The digits behind a point, if there is a point. -/
def fractionPart (ended : ReadError) : Reader (List Char) := do
  if (← peek) = some '.' then
    advance
    digits1 ended
  else return []

/-- The exponent, if there is one. -/
def exponentPart (ended : ReadError) : Reader (Option Int) := do
  match ← peek with
  | some c =>
      if c = 'e' ∨ c = 'E' then
        advance
        let sign ← peek
        if sign = some '+' ∨ sign = some '-' then advance
        let n : Int := digitsValue (← digits1 ended)
        return some (if sign = some '-' then -n else n)
      else return none
  | none => return none

/-- A number; `ended` is the answer if the text ends where a digit has to be. -/
def literal (ended : ReadError) : Reader NumberLiteral := do
  let negative := (← peek) = some '-'
  if negative then advance
  let whole ← wholePart ended
  let fraction ← fractionPart ended
  let exponent ← exponentPart ended
  return ⟨negative, whole, fraction, exponent⟩

/-- A number within the range of a double. -/
def number : Reader NumberLiteral := do
  let l ← literal .truncated
  if l.double?.isSome then return l else throw .malformed

/-- Whether a number starts with a character. -/
def startsNumber (c : Char) : Bool := c = '-' || isDigit c

/-! ### Quoted texts -/

/-- The value of a hexadecimal digit. -/
def hexValue? (c : Char) : Option Nat :=
  if '0' ≤ c ∧ c ≤ '9' then some (c.toNat - 48)
  else if 'a' ≤ c ∧ c ≤ 'f' then some (c.toNat - 87)
  else if 'A' ≤ c ∧ c ≤ 'F' then some (c.toNat - 55)
  else none

/-- Four hexadecimal digits. The text ends early if fewer than four bytes are left. -/
def hex4 : Reader Nat := do
  let four := (← get).take 4
  if four.foldl (fun n c => n + c.utf8Size) 0 < 4 then throw .truncated
  match four.mapM hexValue? with
  | some ds =>
      modify (List.drop 4)
      return ds.foldl (fun n d => 16 * n + d) 0
  | none => throw .malformed

/-- The character behind a `u` escape. Two escapes in a row may stand for one character, and then
they have to be in order. -/
def codeEscape : Reader Char := do
  let high ← hex4
  if 0xDC00 ≤ high ∧ high ≤ 0xDFFF then throw .malformed
  else if high < 0xD800 ∨ 0xDBFF < high then return Char.ofNat high
  else
    for expected in ['\\', 'u'] do
      match ← peek with
      | none => throw .truncated
      | some c => if c = expected then advance else throw .malformed
    let low ← hex4
    if low < 0xDC00 ∨ 0xDFFF < low then throw .malformed
    else return Char.ofNat (0x10000 + 1024 * (high - 0xD800) + (low - 0xDC00))

/-- The character behind a backslash. Unless the text is used, a `u` escape only has to have its
digits. -/
def escape (used : Bool) : Reader Char := do
  match ← peek with
  | none => throw .truncated
  | some c =>
      advance
      match c with
      | '"' | '\\' | '/' => return c
      | 'b' => return '\x08'
      | 'f' => return '\x0c'
      | 'n' => return '\n'
      | 'r' => return '\r'
      | 't' => return '\t'
      | 'u' =>
          if used then codeEscape
          else
            let _ ← hex4
            return 'u'
      | _ => throw .malformed

/-- The characters of a quoted text behind its first quote, at most so many. -/
def textChars (used : Bool) : Nat → Reader (List Char)
  | 0 => throw .truncated
  | n + 1 => do
      match ← peek with
      | none => throw .truncated
      | some c =>
          advance
          if c = '"' then return []
          else if c = '\\' then
            let e ← escape used
            return e :: (← textChars used n)
          else if c.toNat < 32 then throw .malformed
          else return c :: (← textChars used n)

/-- A quoted text behind its first quote. -/
def textRest (used : Bool) : Reader String := do
  return String.ofList (← bounded (textChars used))

/-! ### Values of another kind -/

/-- The answer to a value that is not of the expected kind and starts with the character `c`. What
can be read of it in one go is read first. -/
def refuse (c : Char) : Reader α := do
  if c = 'n' then
    advance
    keyword ['u', 'l', 'l']
    throw .mismatched
  else if c = 't' then
    advance
    keyword ['r', 'u', 'e']
    throw .mismatched
  else if c = 'f' then
    advance
    keyword ['a', 'l', 's', 'e']
    throw .mismatched
  else if startsNumber c then
    let _ ← number
    throw .mismatched
  else if c = '"' then
    advance
    let _ ← textRest true
    throw .mismatched
  else if c = '[' ∨ c = '\x7b' then throw .mismatched
  else throw .malformed

/-- A number of a certain kind. -/
def numberOf (kind : NumberLiteral → Option α) : Reader α := do
  let c ← start
  if startsNumber c then
    match kind (← number) with
    | some a => return a
    | none => throw .mismatched
  else refuse c

/-- A quoted text. -/
def text : Reader String := do
  let c ← start
  if c = '"' then
    advance
    textRest true
  else refuse c

/-- The name of a field.  Nothing but a quoted text can stand in its place. -/
def fieldName : Reader String := do
  if (← start) = '"' then text else throw .malformed

/-- Null. -/
def null : Reader Unit := do
  let c ← start
  if c = 'n' then
    advance
    keyword ['u', 'l', 'l']
  else refuse c

/-! ### Lists and records -/

/-- Whether a list or a record goes on with a further member; the flag tells whether there was none
yet, and `opens` whether a member can start with a character. -/
def goesOn (closing : Char) (opens : Char → Bool) (first : Bool) : Reader Bool := do
  let c ← start
  if c = closing then return false
  else if first then if opens c then return true else throw .malformed
  else if c = ',' then
    advance
    let d ← start
    if d = closing ∨ ¬ opens d then throw .malformed else return true
  else throw .malformed

/-- Whether a list goes on with a further item. -/
def hasItem : Bool → Reader Bool := goesOn ']' fun _ => true

/-- Whether a record goes on with a further field. -/
def hasField : Bool → Reader Bool := goesOn '\x7d' (· = '"')

/-- The given character, behind blanks. -/
def mark (expected : Char) : Reader Unit := do
  if (← start) = expected then advance else throw .malformed

/-- A list, whose items are read by `items` behind the bracket. -/
def listOf (items : Reader α) : Reader α := do
  let c ← start
  if c = '[' then
    advance
    let a ← items
    mark ']'
    return a
  else refuse c

/-- All items of a list, at most so many. -/
def items (item : Reader α) : Nat → Bool → Reader (List α)
  | 0, _ => throw .truncated
  | n + 1, first => do
      if ← hasItem first then
        let a ← item
        return a :: (← items item n false)
      else return []

/-- A list of any length. -/
def list (item : Reader α) : Reader (List α) := listOf (bounded fun n => items item n true)

/-- Exactly `n` items. A list with too few of them is of another kind, and so is one with a further
item that could be read. -/
def exactItems (item : Reader α) : Nat → Bool → Reader (List α)
  | 0, first => do
      if ← hasItem first then
        let _ ← item
        throw .mismatched
      else return []
  | n + 1, first => do
      if ← hasItem first then
        let a ← item
        return a :: (← exactItems item n false)
      else throw .mismatched

/-- A list of exactly `n` items, counted while it is read. -/
def exactly (n : Nat) (item : Reader α) : Reader (List α) := listOf (exactItems item n true)

/-- The first `n` items of a list, which has to have them. -/
def firstItems (item : Reader α) : Nat → Bool → Reader (List α)
  | 0, _ => return []
  | n + 1, first => do
      if ← hasItem first then
        let a ← item
        return a :: (← firstItems item n false)
      else throw .mismatched

/-- A list of `n` items, which is expected to end behind them. -/
def tuple (n : Nat) (item : Reader α) : Reader (List α) := listOf (firstItems item n true)

/-! ### Names -/

/-- One of several names, alone or as the only field of a record whose value is null. -/
def variant (names : List (String × α)) : Reader α := do
  let named (name : String) : Reader α :=
    match names.find? fun (n, _) => n = name with
    | some (_, a) => return a
    | none => throw .mismatched
  let c ← start
  if c = '\x7b' then
    advance
    let a ← named (← fieldName)
    mark ':'
    null
    mark '\x7d'
    return a
  else if c = '"' then named (← text)
  else throw .malformed

/-! ### Values that are skipped -/

mutual

/-- Any value, nested at most so deep. -/
def skipWithin : Nat → Reader Unit
  | 0 => throw .truncated
  | n + 1 => do
      let c ← start
      if c = 'n' then
        advance
        keyword ['u', 'l', 'l']
      else if c = 't' then
        advance
        keyword ['r', 'u', 'e']
      else if c = 'f' then
        advance
        keyword ['a', 'l', 's', 'e']
      else if startsNumber c then
        let _ ← literal .malformed
      else if c = '"' then
        advance
        let _ ← textRest false
      else if c = '[' then
        advance
        skipItems n true
        mark ']'
      else if c = '\x7b' then
        advance
        skipFields n true
        mark '\x7d'
      else throw .malformed

/-- The items of a list. -/
def skipItems : Nat → Bool → Reader Unit
  | 0, _ => throw .truncated
  | n + 1, first => do
      if ← hasItem first then
        skipWithin n
        skipItems n false

/-- The fields of a record. -/
def skipFields : Nat → Bool → Reader Unit
  | 0, _ => throw .truncated
  | n + 1, first => do
      if ← hasField first then
        advance
        let _ ← textRest false
        mark ':'
        skipWithin n
        skipFields n false

end

/-- Any value. -/
def skipValue : Reader Unit := bounded fun n => skipWithin (2 * n)

/-! ### Whole texts -/

/-- A value with nothing but blanks around it. -/
def whole (value : Reader α) (source : String) : Except ReadError α :=
  let reading : Reader α := do
    let a ← value
    if (← next).isSome then throw .malformed
    return a
  match reading source.toList with
  | .ok a _ => .ok a
  | .error e _ => .error e

end Reader

end PureGauge
