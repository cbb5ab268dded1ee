/-
**Formats: how a type is written and read.**

A format joins the two directions, and formats are put together like the types they are for.  A
record is described by its fields: each has a name and knows how to write its part of a value, and
how to read it into the parts that were read so far.  A record is also read as a list of the values
of its fields, in order.

Main definitions:

* `PureGauge.Format` with `PureGauge.Format.encodeText` and `PureGauge.Format.decodeText`;
* `PureGauge.Format.word`, `PureGauge.Format.signedWord`, `PureGauge.Format.real`,
  `PureGauge.Format.list`, `PureGauge.Format.names` — formats;
* `PureGauge.RecordField`, `PureGauge.RecordFormat` — records.
-/
import PureGauge.Json.Reader

namespace PureGauge

/-- How values of a type are written and read. -/
structure Format (α : Type) where
  encode : α → Json
  decode : Reader α

namespace Format

variable {α β : Type}

/-- The text of a value. -/
def encodeText (f : Format α) (a : α) : String := (f.encode a).compact

/-- The value that a text holds. -/
def decodeText (f : Format α) (source : String) : Except ReadError α := f.decode.whole source

/-- A format carried over to another type; reading may refuse a value. -/
def convert (f : Format α) (write : β → α) (read : α → Option β) : Format β where
  encode b := f.encode (write b)
  decode := do
    match read (← f.decode) with
    | some b => return b
    | none => throw .mismatched

/-- Words, written as integers. -/
def word : Format UInt64 where
  encode n := .int n.toNat
  decode := Reader.numberOf NumberLiteral.word?

/-- Signed words, written as integers. -/
def signedWord : Format Int64 where
  encode n := .int n.toInt
  decode := Reader.numberOf NumberLiteral.signedWord?

/-- Scalars, written as number literals. -/
def real {R : Type} [RealLiteral R] : Format R where
  encode := Json.real
  decode := Reader.numberOf fun l => some (RealLiteral.ofLiteral l)

/-- Lists of any length. -/
def list (f : Format α) : Format (List α) where
  encode as := .list (as.map f.encode)
  decode := Reader.list f.decode

/-- Lists of exactly `n` items, read to their end before they are counted. -/
def exactly (n : Nat) (f : Format α) : Format (List α) where
  encode as := .list (as.map f.encode)
  decode := Reader.exactly n f.decode

/-- Lists of `n` items, which are expected to end after them. -/
def tuple (n : Nat) (f : Format α) : Format (List α) where
  encode as := .list (as.map f.encode)
  decode := Reader.tuple n f.decode

/-- Values that are written as names. -/
def names [DecidableEq α] (table : List (String × α)) : Format α where
  encode a := match table.find? fun (_, b) => b = a with
    | some (name, _) => .text name
    | none => .null
  decode := Reader.variant table

end Format

/-! ### Records -/

/-- A field of a record of type `α`, whose parts are collected in a value of type `P` while it is
read. -/
structure RecordField (P α : Type) where
  name : String
  /-- The value of the field in a record. -/
  encode : α → Json
  /-- Whether the field was read already. -/
  filled : P → Bool
  /-- Reads the value of the field. -/
  decode : P → Reader P

/-- A field with the format of its value, given by where the value lies in the record and among the
parts. -/
def RecordField.of {P α β : Type} (name : String) (f : Format β) (value : α → β)
    (part : P → Option β) (fill : P → β → P) : RecordField P α where
  name := name
  encode a := f.encode (value a)
  filled p := (part p).isSome
  decode p := return fill p (← f.decode)

/-- A record: its fields in order, what has been read of it at first, and what its parts make. -/
structure RecordFormat (P α : Type) where
  fields : List (RecordField P α)
  empty : P
  complete : P → Option α
  /-- Whether a list of values may end before the last field. -/
  mayEndEarly : Bool

namespace RecordFormat

variable {P α : Type}

/-- Reads the values of fields as the items of a list. -/
def readItems (r : RecordFormat P α) : List (RecordField P α) → Bool → P → Reader P
  | [], _, p => return p
  | f :: rest, first, p => do
      if ← Reader.hasItem first then readItems r rest false (← f.decode p)
      else if r.mayEndEarly then return p
      else throw .mismatched

/-- Reads the fields of a record in any order, at most so many. A name that is not that of a field
is passed over with its value; a field must not occur twice. -/
def readFields (r : RecordFormat P α) : Nat → Bool → P → Reader P
  | 0, _, _ => throw .truncated
  | n + 1, first, p => do
      if ← Reader.hasField first then
        Reader.advance
        let name ← Reader.textRest true
        match r.fields.find? (·.name = name) with
        | none =>
            Reader.mark ':'
            Reader.skipValue
            readFields r n false p
        | some f =>
            if f.filled p then throw .mismatched
            Reader.mark ':'
            readFields r n false (← f.decode p)
      else return p

/-- The value made of the parts that were read. -/
def finish (r : RecordFormat P α) (p : P) : Reader α :=
  match r.complete p with
  | some a => return a
  | none => throw .mismatched

/-- The format of a record. -/
def format (r : RecordFormat P α) : Format α where
  encode a := .record (r.fields.map fun f => (f.name, f.encode a))
  decode := do
    let c ← Reader.start
    if c = '\x7b' then
      Reader.advance
      let a ← r.finish (← Reader.bounded fun n => r.readFields n true r.empty)
      Reader.mark '\x7d'
      return a
    else Reader.listOf do r.finish (← r.readItems r.fields true r.empty)

/-- The format of a record with a single field. -/
def single {α β : Type} (name : String) (f : Format β) (value : α → β) (make : β → α) : Format α :=
  format {
    fields := [RecordField.of name f value id fun _ b => some b]
    empty := none
    complete := Option.map make
    mayEndEarly := false }

/-- The format of a record with two fields. -/
def pair {α β γ : Type} (name₁ : String) (f₁ : Format β) (value₁ : α → β) (name₂ : String)
    (f₂ : Format γ) (value₂ : α → γ) (make : β → γ → α) : Format α :=
  format {
    fields := [
      RecordField.of name₁ f₁ value₁ Prod.fst fun p b => (some b, p.2),
      RecordField.of name₂ f₂ value₂ Prod.snd fun p c => (p.1, some c)]
    empty := (none, none)
    complete := fun p => match p with
      | (some b, some c) => some (make b c)
      | _ => none
    mayEndEarly := false }

end RecordFormat

end PureGauge
