/-
**Link fields as functions of sites.**

A buffer with one matrix for each link of a lattice is a function that gives a matrix for each site
and direction.  Reading the matrix of a link evaluates that function, writing it changes the
function in one place, and the products around the squares of the lattice are products of its
values, so that neither numbers nor coordinates occur in what is said about them.

Main definitions:

* `PureGauge.Configuration` — a matrix for each site and direction;
* `PureGauge.LinkField.Fills` — a buffer with one matrix for each link of a lattice;
* `PureGauge.LinkField.configuration`, `PureGauge.LinkField.ofConfiguration` — the function that
  such a buffer is, and the buffer of a function;
* `PureGauge.Configuration.plaquetteMatrix`, `PureGauge.Configuration.staple` — the products around
  the squares at a site.

Main results:

* `PureGauge.LinkField.Fills.link_eq`, `PureGauge.LinkField.configuration_set` — reading and
  writing;
* `PureGauge.LinkField.Fills.plaquetteMatrix_eq`, `PureGauge.LinkField.Fills.plaquette_eq` — the
  product around a square, and its value.
-/
import PureGauge.Field.Plaquette
import PureGauge.Proofs.Lattice.Numbering

namespace PureGauge

/-- A matrix for each link of a lattice with `n` points in each direction. -/
abbrev Configuration (R : Type) (n : ℕ) := Site n → Fin 4 → Mat3 R

namespace Configuration

variable {R : Type} {n : ℕ} {U : Configuration R n} {x y : Site n} {μ ν : Fin 4} {m : Mat3 R}

/-- The configuration with the matrix of one link replaced. -/
def set (U : Configuration R n) (x : Site n) (μ : Fin 4) (m : Mat3 R) : Configuration R n :=
  fun y ν => if y = x ∧ ν = μ then m else U y ν

@[simp] theorem set_self : U.set x μ m x μ = m := by simp [set]

theorem set_of_site_ne (h : y ≠ x) : U.set x μ m y ν = U y ν := if_neg fun hyx => h hyx.1

theorem set_of_dir_ne (h : ν ≠ μ) : U.set x μ m y ν = U y ν := if_neg fun hνμ => h hνμ.2

end Configuration

namespace LinkField

variable {R : Type} {f : LinkField R} {l : Lattice} {n : ℕ}

/-- What is read from a field is one of its matrices. -/
theorem mem_data_of_link {k : Link} {m : Mat3 R} (h : f.link l k = .ok m) : m ∈ f.data := by
  obtain ⟨i, -, hat⟩ := Checked.bind_eq_ok_iff.1 h
  rw [LinkField.at] at hat
  cases hi : f.data[i]? with
  | none =>
      rw [hi] at hat
      cases hat
  | some m' =>
      rw [hi] at hat
      cases hat
      exact Array.mem_of_getElem? hi

/-- The matrix with a number is replaced if the field reaches that far. -/
theorem setAt_eq_ok_iff {f' : LinkField R} {i : ℕ} {m : Mat3 R} :
    f.setAt i m = .ok f' ↔ i < f.data.size ∧ f' = ⟨f.data.setIfInBounds i m⟩ := by
  rw [setAt, Array.setIfInBounds]
  split
  case isTrue hi => rw [Except.ok.injEq, and_iff_right hi, eq_comm]
  case isFalse hi => simp [hi]

/-- The field has one matrix for each link of a lattice with `n` points in each direction. -/
structure Fills (f : LinkField R) (l : Lattice) (n : ℕ) : Prop where
  numbered : l.Numbered n
  size_eq : f.size = 4 * n ^ 4

/-- The matrices of a field, found by site and direction. -/
def configuration [Zero R] (f : LinkField R) (n : ℕ) : Configuration R n :=
  fun x μ => f.data.getD (x.linkNumber μ) 0

variable [Zero R] [NeZero n]

omit [Zero R] in
/-- The field reaches as far as the numbers of the links. -/
theorem Fills.linkNumber_lt (h : f.Fills l n) (x : Site n) (μ : Fin 4) :
    x.linkNumber μ < f.data.size := by
  have hsize : f.data.size = 4 * n ^ 4 := h.size_eq
  rw [hsize]
  exact Site.linkNumber_lt x μ

theorem Fills.getElem?_eq (h : f.Fills l n) (x : Site n) (μ : Fin 4) :
    f.data[x.linkNumber μ]? = some (f.configuration n x μ) := by
  have hlt := h.linkNumber_lt x μ
  simp [configuration, Array.getD, hlt]

theorem Fills.at_eq (h : f.Fills l n) (x : Site n) (μ : Fin 4) :
    f.at (x.linkNumber μ) = .ok (f.configuration n x μ) := by
  rw [LinkField.at, h.getElem?_eq]

/-- Reading the matrix of a link evaluates the configuration at its site. -/
theorem Fills.link_eq (h : f.Fills l n) (p : Point) (μ : Fin 4) :
    f.link l ⟨p, .along μ⟩ = .ok (f.configuration n (p.site n) μ) := by
  rw [link, h.numbered.linkIndex_eq, Checked.ok_bind, h.at_eq]

/-- Writing the matrix of a link changes the configuration in one place. -/
theorem configuration_set {x : Site n} {μ : Fin 4} (hi : x.linkNumber μ < f.data.size)
    (m : Mat3 R) :
    (⟨f.data.set (x.linkNumber μ) m⟩ : LinkField R).configuration n =
      (f.configuration n).set x μ m := by
  funext y ν
  by_cases hxy : y = x ∧ ν = μ
  · obtain ⟨rfl, rfl⟩ := hxy
    simp [configuration, hi]
  · have hne : x.linkNumber μ ≠ y.linkNumber ν := by
      intro heq
      obtain ⟨hx, hμ⟩ := Site.linkNumber_inj.1 heq
      exact hxy ⟨hx.symm, hμ.symm⟩
    rw [Configuration.set, if_neg hxy]
    simp [configuration, Array.getD_eq_getD_getElem?, Array.getElem?_set_ne hi hne]

/-! ### Every configuration is that of a field -/

/-- The matrices of a configuration, in the order of the numbers of the links. -/
def entry (U : Configuration R n) (i : ℕ) : Mat3 R := U (Site.ofNumber n (i / 4)) (Fin.ofNat 4 i)

/-- The field of a configuration. -/
def ofConfiguration (U : Configuration R n) : LinkField R :=
  ⟨((List.range (4 * n ^ 4)).map (entry U)).toArray⟩

omit [Zero R] in
theorem entry_linkNumber (U : Configuration R n) (x : Site n) (μ : Fin 4) :
    entry U (x.linkNumber μ) = U x μ := by
  have hdir : Fin.ofNat 4 (x.linkNumber μ) = μ := Fin.ext (Site.linkNumber_mod x μ)
  rw [entry, hdir, Site.linkNumber_div, Site.ofNumber_number]

omit [Zero R] [NeZero n] in
theorem fills_ofConfiguration (h : l.Numbered n) (U : Configuration R n) :
    (ofConfiguration U).Fills l n :=
  ⟨h, by simp [ofConfiguration, size]⟩

theorem configuration_ofConfiguration (U : Configuration R n) :
    (ofConfiguration U).configuration n = U := by
  funext x μ
  rw [← entry_linkNumber U x μ]
  simp [configuration, ofConfiguration, Site.linkNumber_lt]

end LinkField

/-! ### Squares -/

namespace Configuration

open Site

variable {R : Type} {n : ℕ} [Zero R] [One R] [Add R] [Sub R] [Mul R] [Neg R]

/-- The product around the square at `x` in the directions `μ` and `ν`. -/
def plaquetteMatrix (U : Configuration R n) (x : Site n) (μ ν : Fin 4) : Mat3 R :=
  U x μ * U (x + step n μ) ν * (U (x + step n ν) μ).adjoint * (U x ν).adjoint

/-- The part of the staple over the square ahead. -/
def stapleAhead (U : Configuration R n) (x : Site n) (μ ν : Fin 4) : Mat3 R :=
  U (x + step n μ) ν * (U (x + step n ν) μ).adjoint * (U x ν).adjoint

/-- The part of the staple over the square behind. -/
def stapleBehind (U : Configuration R n) (x : Site n) (μ ν : Fin 4) : Mat3 R :=
  (U (x + step n μ - step n ν) ν).adjoint * (U (x - step n ν) μ).adjoint * U (x - step n ν) ν

/-- The staple of a link: its parts, added up in the order of the directions. -/
def staple (U : Configuration R n) (x : Site n) (μ : Fin 4) : Mat3 R :=
  (Direction.others μ).foldl
    (fun sum ν => sum + U.stapleAhead x μ ν + U.stapleBehind x μ ν) 0

end Configuration

namespace LinkField.Fills

variable {R : Type} {f : LinkField R} {l : Lattice} {n : ℕ} [NeZero n]
  [Zero R] [One R] [Add R] [Sub R] [Mul R] [Neg R]

/-- The product around a square at a point that can be moved along its sides. -/
theorem plaquetteMatrix_eq (h : f.Fills l n) {x y z : Point} {μ ν : Fin 4} (hμν : μ ≠ ν)
    (hy : x.shift (.along μ) 1 = .ok y) (hz : x.shift (.along ν) 1 = .ok z) :
    f.plaquetteMatrix l x (.along μ) (.along ν) =
      .ok ((f.configuration n).plaquetteMatrix (x.site n) μ ν) := by
  rw [plaquetteMatrix, if_neg fun heq => hμν (Direction.along_inj.1 heq), h.link_eq,
    Checked.ok_bind, hy, Checked.ok_bind, h.link_eq, Checked.ok_bind, hz, Checked.ok_bind,
    h.link_eq, Checked.ok_bind, h.link_eq, Checked.ok_bind, Point.site_of_shift_one hy,
    Point.site_of_shift_one hz]
  rfl

/-- The value of a square at a point that can be moved along its sides. -/
theorem plaquette_eq [Div R] [NatCast R] (h : f.Fills l n) {x y z : Point} {μ ν : Fin 4}
    (hμν : μ ≠ ν) (hy : x.shift (.along μ) 1 = .ok y) (hz : x.shift (.along ν) 1 = .ok z) :
    f.plaquette l x (.along μ) (.along ν) =
      .ok (meanTrace ((f.configuration n).plaquetteMatrix (x.site n) μ ν)) := by
  rw [plaquette, h.plaquetteMatrix_eq hμν hy hz, Checked.ok_bind, Checked.pure_eq]

/-- Whether the product around a square can be computed does not depend on the field. -/
theorem plaquetteMatrix_cases (l : Lattice) (n : ℕ) [NeZero n] (x : Point) (μ ν : Fin 4) :
    (∃ fault, ∀ f : LinkField R, f.Fills l n →
        f.plaquetteMatrix l x (.along μ) (.along ν) = .error fault) ∨
      ∀ f : LinkField R, f.Fills l n → f.plaquetteMatrix l x (.along μ) (.along ν) =
        .ok ((f.configuration n).plaquetteMatrix (x.site n) μ ν) := by
  by_cases hμν : μ = ν
  · exact Or.inl ⟨.flatPlaquette, fun f _ => by rw [plaquetteMatrix, if_pos (congrArg _ hμν)]⟩
  have hdir : Direction.along μ ≠ .along ν := fun heq => hμν (Direction.along_inj.1 heq)
  cases hy : x.shift (.along μ) 1 with
  | error fault =>
      refine Or.inl ⟨fault, fun f h => ?_⟩
      rw [plaquetteMatrix, if_neg hdir, h.link_eq, Checked.ok_bind, hy, Checked.error_bind]
  | ok y =>
      cases hz : x.shift (.along ν) 1 with
      | error fault =>
          refine Or.inl ⟨fault, fun f h => ?_⟩
          rw [plaquetteMatrix, if_neg hdir, h.link_eq, Checked.ok_bind, hy, Checked.ok_bind,
            h.link_eq, Checked.ok_bind, hz, Checked.error_bind]
      | ok z => exact Or.inr fun f h => h.plaquetteMatrix_eq hμν hy hz

/-- A product around a square is that of the configuration. -/
theorem eq_of_plaquetteMatrix (h : f.Fills l n) {x : Point} {μ ν : Fin 4} {m : Mat3 R}
    (hm : f.plaquetteMatrix l x (.along μ) (.along ν) = .ok m) :
    μ ≠ ν ∧ m = (f.configuration n).plaquetteMatrix (x.site n) μ ν := by
  constructor
  · rintro rfl
    rw [plaquetteMatrix, if_pos rfl] at hm
    cases hm
  · rcases plaquetteMatrix_cases (R := R) l n x μ ν with ⟨fault, hfault⟩ | hok
    · rw [hfault f h] at hm
      cases hm
    · rw [hok f h, Except.ok.injEq] at hm
      exact hm.symm

end LinkField.Fills

end PureGauge
