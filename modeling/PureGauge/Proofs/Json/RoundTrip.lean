/-
**What is written as JSON is read back.**

Every type of the library that is written as JSON has one format, and all formats are put together
from words, numbers, names, lists and records.  So each of them settles its values: a value is read
back as it was, or, if some number in it is not finite, it is found to be of another kind.  Nothing
is asked of a value but that its spread is one, since this alone is checked when a text is read.
Numbers are read back under the assumption that the literal of a finite double stands for it.

Main definitions:

* `PureGauge.Double.ReadBack` — the literal of a double stands for it;
* `PureGauge.Document` — the types that are written as JSON, with the numbers in their values.

Main results:

* `PureGauge.Document.settles` — every format settles its values;
* `PureGauge.Document.roundTrip` — the texts of values are read back, unless a number is not finite.
-/
import PureGauge.Json.Formats
import PureGauge.Proofs.Json.Formats

namespace PureGauge

/-- The literal of a double stands for it, if it is finite. -/
def Double.ReadBack (x : Float) : Prop :=
  x.isFinite = true → (NumberLiteral.ofDouble? x).bind NumberLiteral.double? = some x

instance (x : Float) : Decidable (Double.ReadBack x) :=
  inferInstanceAs (Decidable (x.isFinite = true →
    (NumberLiteral.ofDouble? x).bind NumberLiteral.double? = some x))

open Double (ReadBack)

/-! ### The numbers in a value -/

def Cplx.reals (z : Cplx Float) : List Float := [z.re, z.im]

def Mat3.reals (m : Mat3 Float) : List Float := m.entries.flatMap Cplx.reals

def LinkField.reals (f : LinkField Float) : List Float := f.data.toList.flatMap Mat3.reals

def Pool.reals (p : Pool Float) : List Float :=
  p.matrices.toList.flatMap Mat3.reals ++ [p.spread.value]

def LatticeState.reals (s : LatticeState Float) : List Float := s.beta :: s.links.reals

def Config.reals (c : Config Float) : List Float := [c.beta, c.spread]

/-! ### Lattices -/

namespace Format

theorem settles_lattice (l : Lattice) : lattice.Settles l True :=
  RecordFormat.settles_single (settles_word _) rfl

theorem settles_point (p : Point) : point.Settles p True := by
  have hlist : (exactly 4 signedWord).Settles p.coords.toList (∀ n ∈ p.coords.toList, True) :=
    Settles.exactly (fun _ => True) (fun n _ => settles_signedWord n) (by simp)
  refine RecordFormat.settles_single ((hlist.convert ?_).congr (by simp)) rfl
  obtain ⟨⟨⟨coords⟩, hcoords⟩⟩ := p
  match coords, hcoords with
  | [a, b, c, d], _ => rfl

theorem settles_direction (d : Direction) : direction.Settles d True :=
  RecordFormat.settles_single (settles_word _) rfl

theorem settles_link (l : Link) : link.Settles l True :=
  (RecordFormat.settles_pair (settles_point l.pos) (settles_direction l.dir) (by decide) rfl).congr
    (by simp)

theorem settles_parity (p : Parity) : parity.Settles p True := by
  cases p with
  | even => exact settles_names rfl rfl
  | odd => exact settles_names rfl rfl

theorem settles_start (s : Start) : start.Settles s True := by
  cases s with
  | cold => exact settles_names rfl rfl
  | hot => exact settles_names rfl rfl
  | nearUnity => exact settles_names rfl rfl

theorem settles_execution (e : Execution) : execution.Settles e True := by
  cases e with
  | parallel => exact settles_names rfl rfl
  | sequential => exact settles_names rfl rfl

/-! ### Matrices -/

theorem settles_complex {z : Cplx Float} (hcodec : ∀ x ∈ z.reals, ReadBack x) :
    complex.Settles z (∀ x ∈ z.reals, x.isFinite = true) := by
  refine Settles.convert ?_ rfl
  refine Settles.tuple (fun x : Float => x.isFinite = true) (fun x hx => ?_) rfl
  exact settles_real (hcodec x hx)

theorem settles_matrix {m : Mat3 Float} (hcodec : ∀ x ∈ m.reals, ReadBack x) :
    matrix.Settles m (∀ x ∈ m.reals, x.isFinite = true) := by
  rw [Mat3.reals, List.forall_mem_flatMap] at hcodec ⊢
  exact (Settles.exactly _ (fun z hz => settles_complex (hcodec z hz)) rfl).convert rfl

theorem settles_matrices {ms : Array (Mat3 Float)}
    (hcodec : ∀ x ∈ ms.toList.flatMap Mat3.reals, ReadBack x) :
    matrices.Settles ms (∀ x ∈ ms.toList.flatMap Mat3.reals, x.isFinite = true) := by
  rw [List.forall_mem_flatMap] at hcodec ⊢
  exact (Settles.list _ fun m hm => settles_matrix (hcodec m hm)).convert rfl

theorem settles_field {f : LinkField Float} (hcodec : ∀ x ∈ f.reals, ReadBack x) :
    field.Settles f (∀ x ∈ f.reals, x.isFinite = true) :=
  RecordFormat.settles_single (settles_matrices hcodec) rfl

theorem settles_spread {s : Spread Float} (hmade : Spread.ofReal? s.value = some s)
    (hcodec : ReadBack s.value) : spread.Settles s (s.value.isFinite = true) :=
  (settles_real hcodec).convert hmade

theorem settles_pool {p : Pool Float} (hmade : Spread.ofReal? p.spread.value = some p.spread)
    (hcodec : ∀ x ∈ p.reals, ReadBack x) : pool.Settles p (∀ x ∈ p.reals, x.isFinite = true) := by
  rw [Pool.reals, List.forall_mem_append, List.forall_mem_singleton] at hcodec ⊢
  exact RecordFormat.settles_pair (settles_matrices hcodec.1) (settles_spread hmade hcodec.2)
    (by decide) rfl

theorem settles_state {s : LatticeState Float} (hcodec : ∀ x ∈ s.reals, ReadBack x) :
    state.Settles s (∀ x ∈ s.reals, x.isFinite = true) := by
  rw [LatticeState.reals, List.forall_mem_cons] at hcodec ⊢
  have hlattice := settles_lattice s.lattice
  have hbeta := settles_real hcodec.1
  have hlinks := settles_field hcodec.2
  refine Settles.congr (RecordFormat.Fills.settles (.cons (RecordField.settles_of hlattice rfl)
    (.cons (RecordField.settles_of hbeta rfl)
    (.cons (RecordField.settles_of hlinks rfl) (.nil _)))) (by decide) rfl) ?_
  simp only [true_and, and_true]

/-! ### Configurations -/

theorem settles_config {c : Config Float} (hcodec : ∀ x ∈ c.reals, ReadBack x) :
    config.Settles c (∀ x ∈ c.reals, x.isFinite = true) := by
  rw [Config.reals, List.forall_mem_cons, List.forall_mem_singleton] at hcodec ⊢
  have hbeta := settles_real hcodec.1
  have hspread := settles_real hcodec.2
  refine Settles.congr
    (RecordFormat.Fills.settles (.cons (RecordField.settles_of (settles_word c.points) rfl)
    (.cons (RecordField.settles_of hbeta rfl)
    (.cons (RecordField.settles_of (settles_word c.spacing) rfl)
    (.cons (RecordField.settles_of (settles_word c.measurements) rfl)
    (.cons (RecordField.settles_of hspread rfl)
    (.cons (RecordField.settles_of (settles_word c.pairs) rfl)
    (.cons (RecordField.settles_of (settles_word c.thermalisation) rfl)
    (.cons (RecordField.settles_of (settles_start c.start) rfl) (.nil _))))))))) (by decide) rfl) ?_
  simp only [true_and, and_true]

end Format

/-! ### All types -/

/-- The types that are written as JSON. -/
inductive Document where
  | lattice
  | point
  | direction
  | link
  | parity
  | start
  | execution
  | matrix
  | field
  | spread
  | pool
  | state
  | config
deriving DecidableEq, Repr

namespace Document

/-- The values of a type. -/
def Value : Document → Type
  | lattice => Lattice
  | point => Point
  | direction => Direction
  | link => Link
  | parity => Parity
  | start => Start
  | execution => Execution
  | matrix => Mat3 Float
  | field => LinkField Float
  | spread => Spread Float
  | pool => Pool Float
  | state => LatticeState Float
  | config => Config Float

/-- The format of a type. -/
def format : (d : Document) → Format d.Value
  | lattice => Format.lattice
  | point => Format.point
  | direction => Format.direction
  | link => Format.link
  | parity => Format.parity
  | start => Format.start
  | execution => Format.execution
  | matrix => Format.matrix
  | field => Format.field
  | spread => Format.spread
  | pool => Format.pool
  | state => Format.state
  | config => Format.config

/-- The numbers in a value. -/
def reals : (d : Document) → d.Value → List Float
  | matrix, m => Mat3.reals m
  | field, f => LinkField.reals f
  | spread, s => [Spread.value s]
  | pool, p => Pool.reals p
  | state, s => LatticeState.reals s
  | config, c => Config.reals c
  | lattice, _ | point, _ | direction, _ | link, _ | parity, _ | start, _ | execution, _ => []

/-- A value can be made: a spread is non-negative and finite.  Nothing else is checked, neither when
a value is made from a text nor by the other ways to put it together. -/
def Made : (d : Document) → d.Value → Prop
  | spread, s => Spread.ofReal? (Spread.value s) = some s
  | pool, p => Spread.ofReal? (Pool.spread p).value = some (Pool.spread p)
  | lattice, _ | point, _ | direction, _ | link, _ | parity, _ | start, _ | execution, _
  | matrix, _ | field, _ | state, _ | config, _ => True

/-- Every format settles its values, which are intact if their numbers are finite. -/
theorem settles (d : Document) (v : d.Value) (hmade : d.Made v)
    (hcodec : ∀ x ∈ d.reals v, ReadBack x) :
    d.format.Settles v (∀ x ∈ d.reals v, x.isFinite = true) := by
  cases d with
  | lattice => exact (Format.settles_lattice v).congr (by simp [reals])
  | point => exact (Format.settles_point v).congr (by simp [reals])
  | direction => exact (Format.settles_direction v).congr (by simp [reals])
  | link => exact (Format.settles_link v).congr (by simp [reals])
  | parity => exact (Format.settles_parity v).congr (by simp [reals])
  | start => exact (Format.settles_start v).congr (by simp [reals])
  | execution => exact (Format.settles_execution v).congr (by simp [reals])
  | matrix => exact Format.settles_matrix hcodec
  | field => exact Format.settles_field hcodec
  | spread =>
      exact (Format.settles_spread hmade (hcodec _ List.mem_cons_self)).congr (by simp [reals])
  | pool => exact Format.settles_pool hmade hcodec
  | state => exact Format.settles_state hcodec
  | config => exact Format.settles_config hcodec

/-- The text of a value is read back as the value if all numbers in it are finite, and otherwise it
holds a value of another kind. Doubles are equal when their bits are, so zeros keep their signs. -/
theorem roundTrip (d : Document) (v : d.Value) (hmade : d.Made v)
    (hcodec : ∀ x ∈ d.reals v, ReadBack x) :
    ((∀ x ∈ d.reals v, x.isFinite = true) → d.format.decodeText (d.format.encodeText v) = .ok v) ∧
      ((∃ x ∈ d.reals v, x.isFinite = false) →
        d.format.decodeText (d.format.encodeText v) = .error .mismatched) := by
  obtain ⟨hback, hrefused⟩ := (d.settles v hmade hcodec).decodeText_encodeText
  refine ⟨hback, ?_⟩
  rintro ⟨x, hx, hinfinite⟩
  refine hrefused fun hfinite => ?_
  rw [hfinite x hx] at hinfinite
  cases hinfinite

/-- A matrix with nine different entries, among them zeros of both signs. -/
def unevenMatrix : Mat3 Float :=
  ⟨⟨⟨1, 0⟩, ⟨-0.0, 0.5⟩, ⟨0.1, -0.0⟩⟩, ⟨⟨2, 1e-7⟩, ⟨-3, 0⟩, ⟨1e22, 4⟩⟩,
    ⟨⟨5, -6⟩, ⟨0, -0.0⟩, ⟨7, 0.25⟩⟩⟩

/-- A pool of uneven matrices comes back from its text, and a configuration without a coupling does
not. -/
theorem roundTrip_unevenPool :
    Format.pool.decodeText
      (Format.pool.encodeText (⟨#[unevenMatrix, 1, unevenMatrix], ⟨0.24⟩⟩ : Pool Float)) =
        .ok ⟨#[unevenMatrix, 1, unevenMatrix], ⟨0.24⟩⟩ ∧
      Format.config.decodeText
        (Format.config.encodeText { Config.standard with beta := 0.0 / 0.0 }) =
        .error .mismatched := by
  have hmade : Made pool (⟨#[unevenMatrix, 1, unevenMatrix], ⟨0.24⟩⟩ : Pool Float) := by
    change Spread.ofReal? _ = _
    decide +kernel
  refine ⟨(roundTrip pool _ hmade (by decide +kernel)).1 (by decide +kernel), ?_⟩
  refine (roundTrip config _ trivial (by decide +kernel)).2 ⟨0.0 / 0.0, ?_, by decide +kernel⟩
  exact List.mem_cons_self

end Document

end PureGauge
