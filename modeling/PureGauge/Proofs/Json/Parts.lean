/-
**What a text says of a record.**

The parts of a record are collected while its fields are read, and what they make is decided when
all of them are there.  If they always make a value, then they are read the same way whatever that
value is.  So a text that holds a configuration says of each field what it is or nothing, and what
it does not say is taken from the configuration that it is read over.

Main definitions:

* `PureGauge.RecordFormat.parts` — the reading of the parts of a record;
* `PureGauge.Format.ConfigParts.nothing` — what a text says of a configuration that gives none of
  its fields.

Main results:

* `PureGauge.RecordFormat.decode_eq_map` — a record is read by reading its parts, if they always
  make a value;
* `PureGauge.Format.exists_parts` — what a text says of a configuration.
-/
import PureGauge.Json.Formats
import Mathlib.Data.Nat.Notation

namespace PureGauge

/-! ### Readers -/

namespace Reader

variable {α β : Type}

/-- A value of another kind is refused whatever is made of it. -/
theorem map_refuse (f : α → β) (c : Char) : f <$> (refuse c : Reader α) = refuse c := by
  have hthrow : ∀ e : ReadError, f <$> (throw e : Reader α) = throw e := fun _ => rfl
  simp only [refuse, apply_ite (f <$> ·), map_bind, hthrow]

theorem map_listOf (f : α → β) (items : Reader α) : f <$> listOf items = listOf (f <$> items) := by
  simp only [listOf, map_bind, apply_ite (f <$> ·), map_refuse, map_pure, bind_map_left]

/-- What is made of the value of a whole text does not change whether it is read. -/
theorem whole_map (f : α → β) (x : Reader α) (source : String) :
    whole (f <$> x) source = (whole x source).map f := by
  have hreading : (do
      let b ← f <$> x
      if (← next).isSome then throw .malformed
      return b : Reader β) = f <$> (do
        let a ← x
        if (← next).isSome then throw .malformed
        return a : Reader α) := by
    simp only [map_bind, bind_map_left, apply_ite (f <$> ·), map_pure]
  have hmap : ∀ (y : Reader α) (cs : List Char), (f <$> y) cs = EStateM.map f y cs := fun _ _ => rfl
  rw [whole, whole, hreading, hmap, EStateM.map]
  cases (do
      let a ← x
      if (← next).isSome then throw .malformed
      return a : Reader α) source.toList with
  | ok a rest => rfl
  | error e rest => rfl

end Reader

/-! ### Records -/

namespace RecordFormat

variable {P α : Type}

/-- The parts of a record, from its fields in any order or from the list of their values. -/
def parts (r : RecordFormat P α) : Reader P := do
  let c ← Reader.start
  if c = '\x7b' then
    Reader.advance
    let p ← Reader.bounded fun n => r.readFields n true r.empty
    Reader.mark '\x7d'
    return p
  else Reader.listOf (r.readItems r.fields true r.empty)

/-- A record is read by reading its parts, if they always make a value. -/
theorem decode_eq_map {r : RecordFormat P α} {f : P → α} (h : ∀ p, r.complete p = some (f p)) :
    r.format.decode = f <$> r.parts := by
  have hfinish : ∀ p, r.finish p = pure (f p) := fun p => by rw [finish, h]
  simp only [format, parts, hfinish, pure_bind, bind_pure_comp, apply_ite (f <$> ·), map_bind,
    Functor.map_map, Reader.map_listOf]

variable (r : RecordFormat P α) (complete : P → Option α)

theorem readFields_withComplete (n : ℕ) (first : Bool) (p : P) :
    readFields { r with complete := complete } n first p = r.readFields n first p := by
  induction n generalizing first p with
  | zero => rfl
  | succ n ih => simp only [readFields, ih]

theorem readItems_withComplete (gs : List (RecordField P α)) (first : Bool) (p : P) :
    readItems { r with complete := complete } gs first p = r.readItems gs first p := by
  induction gs generalizing first p with
  | nil => rfl
  | cons g gs ih => simp only [readItems, ih]

/-- The parts are read the same way whatever they make. -/
theorem parts_withComplete : parts { r with complete := complete } = r.parts := by
  simp only [parts, readFields_withComplete, readItems_withComplete]

end RecordFormat

/-! ### Configurations -/

namespace Format

variable {R : Type} [RealLiteral R]

/-- No field is given. -/
def ConfigParts.nothing : ConfigParts R := ⟨none, none, none, none, none, none, none, none⟩

/-- The record of configurations over a given one. -/
def configRecord (base : Config R) : RecordFormat (ConfigParts R) (Config R) where
  fields := configFields
  empty := .nothing
  complete := fun p => some (p.completedBy base)
  mayEndEarly := true

/-- The value of a text is made of what the text says and of the configuration that it is read
over. -/
theorem decodeText_configOver (base other : Config R) (source : String) :
    (configOver base).decodeText source =
      ((configRecord other).parts.whole source).map (ConfigParts.completedBy base) := by
  have hparts : (configRecord base).parts = (configRecord other).parts :=
    RecordFormat.parts_withComplete (configRecord other) _
  have hdecode : (configOver base).decode =
      ConfigParts.completedBy base <$> (configRecord other).parts := by
    rw [← hparts]
    exact RecordFormat.decode_eq_map fun _ => rfl
  rw [decodeText, hdecode, Reader.whole_map]

/-- What a text says of a configuration: if it holds one, then each field is given or it is not, and
read over any configuration the fields that are not given are the ones of that configuration. -/
theorem exists_parts {base c : Config R} {source : String}
    (h : (configOver base).decodeText source = .ok c) :
    ∃ parts : ConfigParts R, ∀ other : Config R,
      (configOver other).decodeText source = .ok (parts.completedBy other) := by
  cases hparts : (configRecord base).parts.whole source with
  | error e =>
      rw [decodeText_configOver base base, hparts] at h
      cases h
  | ok parts =>
      refine ⟨parts, fun other => ?_⟩
      rw [decodeText_configOver other base, hparts]
      rfl

end Format

end PureGauge
