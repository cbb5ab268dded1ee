/-
**Factorisation by reflections.**

A reflection on an axis of length one keeps all inner products, and so does turning by a phase.  The
reflection that is made for a column sends it to a multiple of the first unit vector, and a column
without length is sent to itself.  The unitary factor of a list of columns is the one of the smaller
problem, bordered by the first unit vector and reflected.  So its inner products with itself are
those of the smaller factor, bordered by a one; and its inner products with the columns are those of
the smaller problem, bordered by the entries that the reflection leaves in the first row.  By
induction the factor is unitary and makes the columns triangular.

Main definitions:

* `PureGauge.Reflection.Reflects` — what is known about the reflection that is made for a column;
* `PureGauge.Reflection.gram` — the inner products of two lists of columns;
* `PureGauge.Reflection.bordered`, `PureGauge.Reflection.IsTriangular` — matrices made row by row.

Main results:

* `PureGauge.Reflection.dot_apply_apply` — reflections keep inner products;
* `PureGauge.Reflection.ofColumn_reflects` — the reflection that is made for a column;
* `PureGauge.Reflection.gram_unitary` — the factor is unitary and makes the columns triangular;
* `PureGauge.Mat3.factors_unitaryTriangular` — a matrix of three columns is factored.
-/
import PureGauge.Proofs.SU3.Factors

namespace PureGauge

namespace Reflection

/-! ### Inner products of columns -/

section

variable {R : Type} [CommRing R]

theorem sum_eq (zs : List (Cplx R)) : Cplx.sum zs = zs.sum := List.sum_eq_foldl.symm

@[simp] theorem dot_nil (b : List (Cplx R)) : dot [] b = 0 := rfl

@[simp] theorem dot_nil_right (a : List (Cplx R)) : dot a [] = 0 := by cases a <;> rfl

@[simp] theorem dot_cons (x y : Cplx R) (a b : List (Cplx R)) :
    dot (x :: a) (y :: b) = x.conj * y + dot a b := by
  rw [dot, dot, sum_eq, sum_eq, List.zipWith_cons_cons, List.sum_cons]

/-- Inner products the other way round are conjugates. -/
theorem conj_dot (a b : List (Cplx R)) : (dot a b).conj = dot b a := by
  induction a generalizing b with
  | nil => simp
  | cons x a ih =>
      cases b with
      | nil => simp
      | cons y b =>
          rw [dot_cons, dot_cons, Cplx.conj_add, Cplx.conj_mul, Cplx.conj_conj, ih, mul_comm]

theorem dot_eq_zero {a : List (Cplx R)} (h : ∀ z ∈ a, z = 0) (b : List (Cplx R)) : dot a b = 0 := by
  induction a generalizing b with
  | nil => rfl
  | cons x a ih =>
      obtain ⟨rfl, ha⟩ := List.forall_mem_cons.1 h
      cases b with
      | nil => rfl
      | cons y b => rw [dot_cons, ih ha, Cplx.conj_zero, zero_mul, zero_add]

theorem dot_eq_zero_right (a : List (Cplx R)) {b : List (Cplx R)} (h : ∀ z ∈ b, z = 0) :
    dot a b = 0 := by
  rw [← conj_dot, dot_eq_zero h, Cplx.conj_zero]

/-- The inner product of a column with itself. -/
theorem dot_self (a : List (Cplx R)) : dot a a = Cplx.ofReal (a.map Cplx.normSq).sum := by
  induction a with
  | nil => rfl
  | cons x a ih =>
      rw [dot_cons, ih, Cplx.conj_mul_self, List.map_cons, List.sum_cons, Cplx.ofReal_add]

/-! ### Reflections on an axis -/

/-- Inner products are linear in the second column. -/
theorem dot_zipWith {u y : List (Cplx R)} (hlength : u.length = y.length) (x : List (Cplx R))
    (k t : Cplx R) :
    dot x (List.zipWith (fun a c => k * a + t * c) u y) = k * dot x u + t * dot x y := by
  induction x generalizing u y with
  | nil => simp
  | cons z x ih =>
      cases u with
      | nil =>
          obtain rfl := List.eq_nil_of_length_eq_zero hlength.symm
          simp
      | cons a u =>
          obtain ⟨c, y, rfl⟩ := List.exists_cons_of_length_eq_add_one hlength.symm
          rw [List.zipWith_cons_cons, dot_cons, dot_cons, dot_cons, ih (Nat.succ.inj hlength)]
          ring

@[simp] theorem length_apply {u y : List (Cplx R)} (hlength : u.length = y.length) (t : Cplx R) :
    (apply u t y).length = y.length := by
  rw [apply, List.length_zipWith, hlength, Nat.min_self]

variable {u : List (Cplx R)}

theorem scale_twice (t : Cplx R) : t.scale (-(1 + 1)) = -((1 + 1) * t) := by
  ext <;> simp only [Cplx.scale, Cplx.re_neg, Cplx.im_neg, Cplx.re_mul, Cplx.im_mul, Cplx.re_add,
    Cplx.im_add, Cplx.re_one, Cplx.im_one] <;> ring

/-- What a reflection does to the inner products with a column. -/
theorem dot_apply {y : List (Cplx R)} (hy : u.length = y.length) (x : List (Cplx R)) (t : Cplx R) :
    dot x (apply u t y) = t * (dot x y - (1 + 1) * (dot x u * dot u y)) := by
  rw [apply, dot_zipWith hy, scale_twice]
  ring

theorem apply_dot {x : List (Cplx R)} (hx : u.length = x.length) (t : Cplx R) (y : List (Cplx R)) :
    dot (apply u t x) y = t.conj * (dot x y - (1 + 1) * (dot x u * dot u y)) := by
  rw [← conj_dot, dot_apply hx]
  simp only [Cplx.conj_mul, Cplx.conj_sub, Cplx.conj_add, Cplx.conj_one, conj_dot]
  ring

/-- A reflection that is turned back moves to the other side of an inner product. -/
theorem apply_dot_eq {x y : List (Cplx R)} (hx : u.length = x.length) (hy : u.length = y.length)
    (t : Cplx R) :
    dot (apply u t x) y = dot x (apply u t.conj y) := by
  rw [apply_dot hx, dot_apply hy]

/-- **Reflections keep inner products**, and those on no axis as well. -/
theorem dot_apply_apply {x y : List (Cplx R)} (hu : dot u u = 1 ∨ ∀ z ∈ u, z = 0)
    (hx : u.length = x.length) (hy : u.length = y.length) {t : Cplx R} (ht : t.normSq = 1) :
    dot (apply u t x) (apply u t y) = dot x y := by
  rw [dot_apply hy, apply_dot hx, apply_dot hx]
  have hturn := Cplx.conj_mul_self_of_normSq ht
  cases hu with
  | inl hone =>
      rw [hone]
      linear_combination (dot x y) * hturn
  | inr hzero =>
      rw [dot_eq_zero hzero, dot_eq_zero hzero, dot_eq_zero_right x hzero]
      linear_combination (dot x y) * hturn

theorem dot_map_mul (x v : List (Cplx R)) (k : Cplx R) : dot x (v.map (· * k)) = dot x v * k := by
  induction x generalizing v with
  | nil => simp
  | cons z x ih =>
      cases v with
      | nil => simp
      | cons a v =>
          rw [List.map_cons, dot_cons, dot_cons, ih]
          ring

theorem map_mul_dot (v y : List (Cplx R)) (k : Cplx R) :
    dot (v.map (· * k)) y = k.conj * dot v y := by
  rw [← conj_dot, dot_map_mul, Cplx.conj_mul, conj_dot, mul_comm]

/-- The reflection on an axis of any length that is scaled to length one. -/
theorem apply_map_mul {v y : List (Cplx R)} {k : Cplx R}
    (hscale : (1 + 1) * dot v y * (k.conj * k) = 1) (t : Cplx R) :
    apply (v.map (· * k)) t y = List.zipWith (fun a c => t * (c - a)) v y := by
  rw [apply, List.zipWith_map_left]
  refine congrArg (fun f => List.zipWith f v y) (funext fun a => funext fun c => ?_)
  rw [map_mul_dot, scale_twice]
  linear_combination (-(t * a)) * hscale

/-- Without an axis nothing is reflected. -/
theorem apply_of_forall_eq_zero (hu : ∀ z ∈ u, z = 0) {y : List (Cplx R)}
    (hy : u.length = y.length) :
    apply u 1 y = y := by
  rw [apply, dot_eq_zero hu, zero_mul]
  induction u generalizing y with
  | nil => exact (List.eq_nil_of_length_eq_zero hy.symm).symm
  | cons a u ih =>
      obtain ⟨c, y, rfl⟩ := List.exists_cons_of_length_eq_add_one hy.symm
      rw [List.zipWith_cons_cons,
        ih (fun z hz => hu z (List.mem_cons_of_mem a hz)) (Nat.succ.inj hy), zero_mul, zero_add,
        one_mul]

end

/-! ### The reflection for a column -/

section

variable {F : Type} [Field F] [LinearOrder F] [IsStrictOrderedRing F]

theorem sum_normSq_nonneg (a : List (Cplx F)) : 0 ≤ (a.map Cplx.normSq).sum := by
  refine List.sum_nonneg fun x hx => ?_
  obtain ⟨z, -, rfl⟩ := List.mem_map.1 hx
  exact z.normSq_nonneg

/-- A column without length has no entries but zero. -/
theorem eq_zero_of_sum_normSq {a : List (Cplx F)} (h : (a.map Cplx.normSq).sum = 0) :
    ∀ z ∈ a, z = 0 := by
  induction a with
  | nil => simp
  | cons x a ih =>
      obtain ⟨hx, ha⟩ := (add_eq_zero_iff_of_nonneg x.normSq_nonneg (sum_normSq_nonneg a)).1 h
      exact List.forall_mem_cons.2 ⟨Cplx.eq_zero_of_normSq hx, ih ha⟩

variable [RealFunctions F]

/-- What is known about the reflection that is made for a column. -/
structure Reflects (r : Reflection F) (column : List (Cplx F)) : Prop where
  length_axis : r.axis.length = column.length
  unit : dot r.axis r.axis = 1 ∨ ∀ z ∈ r.axis, z = 0
  apply_column : apply r.axis r.diagonal.phase.conj column =
    Cplx.ofReal r.diagonal.modulus :: column.tail.map fun _ => 0
  improper : r.proper = false → ∀ y : List (Cplx F), y.length = column.length →
    apply r.axis r.diagonal.phase.conj y = y

variable (hF : ExactPolar F)

include hF

/-- The axis before it is scaled: its inner products with the column and with itself. -/
theorem dot_axis (first : Cplx F) (rest : List (Cplx F)) {length : F}
    (hlength : Cplx.ofReal (length * length) = dot (first :: rest) (first :: rest)) :
    dot ((first + first.phase.scale length) :: rest) (first :: rest) =
        Cplx.ofReal (length * length + first.modulus * length) ∧
      dot ((first + first.phase.scale length) :: rest)
        ((first + first.phase.scale length) :: rest) =
        Cplx.ofReal ((length * length + first.modulus * length) * (1 + 1)) := by
  have hphase := hF.conj_phase_mul first
  have hphase' : first.conj * first.phase = Cplx.ofReal first.modulus := by
    rw [← Cplx.conj_ofReal, ← hphase, Cplx.conj_mul, Cplx.conj_conj, mul_comm]
  have hcircle := Cplx.conj_mul_self_of_normSq (hF.normSq_phase first)
  rw [dot_cons, Cplx.ofReal_mul] at hlength
  simp only [dot_cons, Cplx.scale_eq, Cplx.conj_add, Cplx.conj_mul, Cplx.conj_ofReal,
    Cplx.ofReal_mul, Cplx.ofReal_add, Cplx.ofReal_one]
  constructor
  · linear_combination Cplx.ofReal length * hphase - hlength
  · linear_combination Cplx.ofReal length * (hphase + hphase') +
      Cplx.ofReal length * Cplx.ofReal length * hcircle - hlength

variable {first : Cplx F} {rest : List (Cplx F)} {length : F}

/-- Nothing is reflected for a column without length. -/
theorem reflects_improper
    (hlength : Cplx.ofReal (length * length) = dot (first :: rest) (first :: rest))
    (hnonneg : 0 ≤ length) (hfactor : (length * length + first.modulus * length) * (1 + 1) = 0) :
    Reflects ⟨(first + first.phase.scale length) :: rest, first.phase.scale length, false⟩
      (first :: rest) := by
  have hzero : length = 0 := by
    have hproduct := mul_nonneg (hF.modulus_nonneg first) hnonneg
    exact mul_self_eq_zero.1 (le_antisymm (by linarith) (mul_self_nonneg length))
  subst hzero
  rw [dot_self, mul_zero] at hlength
  obtain ⟨rfl, hrest⟩ :=
    List.forall_mem_cons.1 (eq_zero_of_sum_normSq (congrArg Cplx.re hlength).symm)
  have hmodulus : (0 : Cplx F).modulus = 0 := hF.modulus_eq_zero_iff.2 rfl
  have hsigned : (0 : Cplx F).phase.scale 0 = 0 := by rw [Cplx.scale_eq, Cplx.ofReal_zero, mul_zero]
  have hphase : (0 : Cplx F).phase.conj = 1 := by
    rw [Cplx.phase, hmodulus, if_pos BEq.rfl, Cplx.conj_one]
  rw [hsigned, add_zero]
  have haxis : ∀ z ∈ (0 : Cplx F) :: rest, z = 0 := List.forall_mem_cons.2 ⟨rfl, hrest⟩
  have hfixed : ∀ y : List (Cplx F), y.length = ((0 : Cplx F) :: rest).length →
      apply (0 :: rest) (0 : Cplx F).phase.conj y = y := by
    intro y hy
    rw [hphase, apply_of_forall_eq_zero haxis hy.symm]
  refine ⟨rfl, .inr haxis, ?_, fun _ => hfixed⟩
  -- the column is zero throughout, and so is what it is sent to
  have hmap : (rest.map fun _ => (0 : Cplx F)) = rest :=
    (List.map_congr_left fun z hz => (hrest z hz).symm).trans (List.map_id rest)
  change apply (0 :: rest) (0 : Cplx F).phase.conj (0 :: rest) =
    Cplx.ofReal (0 : Cplx F).modulus :: _
  rw [hfixed _ rfl, hmodulus, Cplx.ofReal_zero, List.tail_cons, hmap]

/-- The reflection for a column with a length. -/
theorem reflects_proper
    (hlength : Cplx.ofReal (length * length) = dot (first :: rest) (first :: rest))
    (hnonneg : 0 ≤ length) (hfactor : (length * length + first.modulus * length) * (1 + 1) ≠ 0) :
    Reflects ⟨((first + first.phase.scale length) :: rest).map
      (·.unscale (RealFunctions.sqrt ((length * length + first.modulus * length) * (1 + 1)))),
        -first.phase.scale length, true⟩ (first :: rest) := by
  obtain ⟨hcolumn, hself⟩ := dot_axis hF first rest hlength
  set factor := (length * length + first.modulus * length) * (1 + 1) with hdef
  set signed := first.phase.scale length
  have hpos : 0 ≤ factor := by
    have hproduct := mul_nonneg (hF.modulus_nonneg first) hnonneg
    have hsquare := mul_self_nonneg length
    linarith
  have hroot : (RealFunctions.sqrt factor)⁻¹ * (RealFunctions.sqrt factor)⁻¹ * factor = 1 := by
    rw [← mul_inv, hF.sqrt_mul_self factor hpos, inv_mul_cancel₀ hfactor]
  simp only [Cplx.unscale_eq]
  set k := Cplx.ofReal (RealFunctions.sqrt factor)⁻¹ with hk
  -- the factor is the squared length of the axis, so that `k` scales it to length one
  have hscale : k.conj * k * Cplx.ofReal factor = 1 := by
    rw [hk, Cplx.conj_ofReal, ← Cplx.ofReal_mul, ← Cplx.ofReal_mul, hroot, Cplx.ofReal_one]
  refine ⟨by simp, .inl ?_, ?_, fun h => by cases h⟩
  · rw [map_mul_dot, dot_map_mul, hself, ← hscale]
    ring
  -- it is also twice the inner product with the column, so that the reflection
  -- takes the axis off the column
  · have htwice : (1 + 1) * dot ((first + signed) :: rest) (first :: rest) * (k.conj * k) = 1 := by
      have hdouble : (1 + 1) * dot ((first + signed) :: rest) (first :: rest) =
          Cplx.ofReal factor := by
        rw [hcolumn, hdef, Cplx.ofReal_mul _ (1 + 1), Cplx.ofReal_add 1 1, Cplx.ofReal_one,
          mul_comm]
      rw [hdouble, mul_comm, hscale]
    have hfirst : (-signed).phase.conj * (first - (first + signed)) =
        Cplx.ofReal (-signed).modulus := by
      rw [← hF.conj_phase_mul]
      ring
    change apply _ (-signed).phase.conj _ = Cplx.ofReal (-signed).modulus :: _
    rw [apply_map_mul htwice, List.zipWith_cons_cons, hfirst, List.zipWith_self]
    simp only [sub_self, mul_zero, List.tail_cons]

/-- **The reflection that is made for a column** sends it to a multiple of the first unit vector. -/
theorem ofColumn_reflects {column : List (Cplx F)} (h : column ≠ []) :
    (ofColumn column).Reflects column := by
  obtain ⟨first, rest, rfl⟩ := List.exists_cons_of_ne_nil h
  set lengthSq := realSum ((first :: rest).map Cplx.normSq) with hdef
  have hsum : lengthSq = ((first :: rest).map Cplx.normSq).sum := by rw [hdef, realSum_eq_sum]
  have hpos : 0 ≤ lengthSq := by
    rw [hsum]
    exact sum_normSq_nonneg _
  have hsquare := hF.sqrt_mul_self lengthSq hpos
  have hlength : Cplx.ofReal (RealFunctions.sqrt lengthSq * RealFunctions.sqrt lengthSq) =
      dot (first :: rest) (first :: rest) := by rw [hsquare, hsum, dot_self]
  have hnonneg := hF.sqrt_nonneg lengthSq hpos
  rw [ofColumn, ← hdef]
  generalize RealFunctions.sqrt lengthSq = length at *
  rw [← hsquare]
  split
  · next hfactor => exact reflects_improper hF hlength hnonneg (beq_iff_eq.1 hfactor)
  · next hfactor =>
      exact reflects_proper hF hlength hnonneg fun hzero => hfactor (beq_iff_eq.2 hzero)

end

/-! ### Bordered matrices -/

section

variable {R : Type} [CommRing R]

/-- The inner products of two lists of columns. -/
def gram (a b : List (List (Cplx R))) : List (List (Cplx R)) := a.map fun x => b.map (dot x)

/-- A row above another matrix, whose rows begin with zero. -/
def bordered (row : List (Cplx R)) (m : List (List (Cplx R))) : List (List (Cplx R)) :=
  row :: m.map (0 :: ·)

/-- The identity of a size. -/
def identity : ℕ → List (List (Cplx R))
  | 0 => []
  | n + 1 => bordered (1 :: List.replicate n 0) (identity n)

/-- A matrix that is upper triangular, with its diagonal. -/
inductive IsTriangular : List (List (Cplx R)) → List (Cplx R) → Prop
  | nil : IsTriangular [] []
  | border {d row m ds} : IsTriangular m ds → IsTriangular (bordered (d :: row) m) (d :: ds)

/-- The first row is taken off, and with it the zeros below its diagonal entry. -/
theorem IsTriangular.of_cons {d : Cplx R} {row : List (Cplx R)} {m : List (List (Cplx R))}
    {ds : List (Cplx R)} (h : IsTriangular ((d :: row) :: m) ds) :
    ∃ ds', ds = d :: ds' ∧ (∀ x ∈ m, x.headD 0 = 0) ∧ IsTriangular (m.map List.tail) ds' := by
  cases h with
  | @border _ _ m ds h =>
      refine ⟨ds, rfl, List.forall_mem_map.2 fun _ _ => rfl, ?_⟩
      rw [List.map_map]
      exact (List.map_id m).symm ▸ h

/-- The inner products with a factor that is bordered by the first unit vector: the first column has
a single entry, so that its inner products with the smaller factor vanish. -/
theorem gram_bordered (inner : List (List (Cplx R))) (d : Cplx R) {s : List (Cplx R)}
    (hs : ∀ z ∈ s, z = 0) (b : List (List (Cplx R))) :
    gram (bordered (1 :: inner.map fun _ => 0) inner) ((d :: s) :: b) =
      bordered (d :: b.map (·.headD 0)) (gram inner (b.map List.tail)) := by
  have hborder : dot (1 :: inner.map fun _ => 0) = fun y : List (Cplx R) => y.headD 0 := by
    funext y
    have hzero : ∀ z ∈ inner.map fun _ => (0 : Cplx R), z = 0 := by simp
    cases y with
    | nil => rfl
    | cons x y =>
        rw [dot_cons, dot_eq_zero hzero, Cplx.conj_one, one_mul, add_zero, List.headD_cons]
  have hinner : ∀ q : List (Cplx R), dot (0 :: q) = fun y => dot q y.tail := by
    intro q
    funext y
    cases y with
    | nil => rw [dot_nil_right, List.tail_nil, dot_nil_right]
    | cons x y => rw [dot_cons, Cplx.conj_zero, zero_mul, zero_add, List.tail_cons]
  simp only [gram, bordered, List.map_cons, List.map_map, Function.comp_def, hborder, hinner,
    List.headD_cons, List.tail_cons, dot_eq_zero_right _ hs]

variable {u : List (Cplx R)} {a : List (List (Cplx R))}

theorem gram_map_apply (hu : dot u u = 1 ∨ ∀ z ∈ u, z = 0) (ha : ∀ x ∈ a, u.length = x.length)
    {t : Cplx R} (ht : t.normSq = 1) : gram (a.map (apply u t)) (a.map (apply u t)) = gram a a := by
  rw [gram, gram, List.map_map]
  refine List.map_congr_left fun x hx => ?_
  rw [Function.comp_apply, List.map_map]
  exact List.map_congr_left fun y hy => dot_apply_apply hu (ha x hx) (ha y hy) ht

theorem gram_map_apply_left (ha : ∀ x ∈ a, u.length = x.length) {b : List (List (Cplx R))}
    (hb : ∀ y ∈ b, u.length = y.length) (t : Cplx R) :
    gram (a.map (apply u t)) b = gram a (b.map (apply u t.conj)) := by
  rw [gram, gram, List.map_map]
  refine List.map_congr_left fun x hx => ?_
  rw [Function.comp_apply, List.map_map]
  exact List.map_congr_left fun y hy => apply_dot_eq (ha x hx) (hb y hy) t

end

/-! ### The unitary factor -/

section

variable {F : Type} [Field F] [LinearOrder F] [RealFunctions F]

/-- Columns that are orthonormal and make others triangular. -/
structure Resolves (n : ℕ) (columns q : List (List (Cplx F)))
    (diagonal : List (Cplx F)) : Prop where
  length : q.length = n
  length_mem : ∀ x ∈ q, x.length = n
  gram_self : gram q q = identity n
  triangular : IsTriangular (gram q columns) diagonal

/-- The first column is reflected, and the same problem is left for the others. -/
theorem ofColumns_cons {column : List (Cplx F)} {others : List (List (Cplx F))}
    (hr : (ofColumn column).Reflects column) (hothers : ∀ y ∈ others, y.length = column.length) :
    ofColumns (column :: others) = ofColumn column :: ofColumns
      ((others.map (apply (ofColumn column).axis (ofColumn column).diagonal.phase.conj)).map
        List.tail) := by
  rw [ofColumns]
  split
  · rfl
  · next himproper =>
      have hfixed := hr.improper (Bool.eq_false_iff.2 himproper)
      rw [List.map_congr_left fun y hy => hfixed y (hothers y hy), List.map_id']

variable [IsStrictOrderedRing F] (hF : ExactPolar F)

include hF

omit [IsStrictOrderedRing F] in
/-- One reflection more: a factor of the smaller problem, bordered and reflected. -/
theorem Resolves.reflect {n : ℕ} {r : Reflection F} {column : List (Cplx F)}
    {others inner : List (List (Cplx F))} {diagonal : List (Cplx F)} (hr : r.Reflects column)
    (hcolumn : column.length = n + 1) (hothers : ∀ y ∈ others, y.length = n + 1)
    (h : Resolves n ((others.map (apply r.axis r.diagonal.phase.conj)).map List.tail)
      inner diagonal) :
    Resolves (n + 1) (column :: others)
      ((bordered (1 :: inner.map fun _ => 0) inner).map (apply r.axis r.diagonal.phase))
      (Cplx.ofReal r.diagonal.modulus :: diagonal) := by
  have haxis : r.axis.length = n + 1 := hr.length_axis.trans hcolumn
  have hbordered : ∀ x ∈ bordered (1 :: inner.map fun _ => 0) inner, r.axis.length = x.length := by
    simp only [bordered, List.forall_mem_cons, List.forall_mem_map, List.length_cons,
      List.length_map, h.length, haxis, true_and]
    exact fun x hx => congrArg (· + 1) (h.length_mem x hx).symm
  have hzero : ∀ z ∈ inner.map fun _ => (0 : Cplx F), z = 0 := by simp
  constructor
  case length => simp [bordered, h.length]
  case length_mem =>
    refine List.forall_mem_map.2 fun x hx => ?_
    rw [length_apply (hbordered x hx), ← hbordered x hx, haxis]
  case gram_self =>
    rw [gram_map_apply hr.unit hbordered (hF.normSq_phase _)]
    have hheads : ((inner.map (0 :: ·)).map fun y : List (Cplx F) => y.headD 0) =
        List.replicate n 0 := by
      simp only [List.map_map, Function.comp_def, List.headD_cons, List.map_const', h.length]
    have htails : (inner.map ((0 : Cplx F) :: ·)).map List.tail = inner := by
      simp only [List.map_map, Function.comp_def, List.tail_cons, List.map_id']
    exact (gram_bordered inner 1 hzero (inner.map (0 :: ·))).trans
      (by rw [hheads, htails, h.gram_self, identity])
  case triangular =>
    have hcolumns : ∀ y ∈ column :: others, r.axis.length = y.length :=
      List.forall_mem_cons.2 ⟨hr.length_axis, fun y hy => haxis.trans (hothers y hy).symm⟩
    rw [gram_map_apply_left hbordered hcolumns, List.map_cons, hr.apply_column, gram_bordered]
    · exact .border h.triangular
    · simp

/-- **The factor that is built from the reflections** is unitary and makes the columns
triangular. -/
theorem resolves_unitary {n : ℕ} {columns : List (List (Cplx F))} (hlength : columns.length = n)
    (hcolumns : ∀ y ∈ columns, y.length = n) :
    Resolves n columns (unitary (ofColumns columns))
      ((ofColumns columns).map fun r => Cplx.ofReal r.diagonal.modulus) := by
  induction n generalizing columns with
  | zero =>
      obtain rfl := List.eq_nil_of_length_eq_zero hlength
      rw [ofColumns]
      exact ⟨rfl, by simp [unitary], rfl, .nil⟩
  | succ n ih =>
      obtain ⟨column, others, rfl⟩ := List.exists_cons_of_length_eq_add_one hlength
      obtain ⟨hcolumn, hothers⟩ := List.forall_mem_cons.1 hcolumns
      have hr := ofColumn_reflects hF (List.ne_nil_of_length_eq_add_one hcolumn)
      rw [ofColumns_cons hr fun y hy => (hothers y hy).trans hcolumn.symm]
      refine Resolves.reflect hF hr hcolumn hothers (ih ?_ ?_)
      · rw [List.length_map, List.length_map, Nat.succ.inj hlength]
      · simp only [List.forall_mem_map, List.length_tail]
        intro y hy
        rw [length_apply (hr.length_axis.trans (hcolumn.trans (hothers y hy).symm)), hothers y hy,
          Nat.add_sub_cancel]

end

end Reflection

/-! ### Three columns -/

namespace Mat3

/-- The columns as lists. -/
def columns {R : Type} (m : Mat3 R) : List (List (Cplx R)) :=
  [m.col0.toList, m.col1.toList, m.col2.toList]

section

variable {R : Type} [CommRing R]

theorem dot_toList (v w : Vec3 R) : Reflection.dot v.toList w.toList = v.dot w := by
  simp only [Vec3.toList, Reflection.dot_cons, Reflection.dot_nil, add_zero, ← add_assoc, Vec3.dot]

/-- The inner products of columns are the rows of the product with the adjoint. -/
theorem gram_columns (m k : Mat3 R) :
    Reflection.gram m.columns k.columns = (m.adjoint * k).rows.map Vec3.toList := by
  rw [adjoint_mul_eq]
  simp only [Reflection.gram, columns, List.map_cons, List.map_nil, dot_toList, rows]
  rfl

omit [CommRing R] in
theorem exists_columns_eq {q : List (List (Cplx R))} (hq : q.length = 3)
    (hmem : ∀ x ∈ q, x.length = 3) :
    ∃ m : Mat3 R, q = m.columns := by
  have hvector : ∀ x : List (Cplx R), x.length = 3 → ∃ v : Vec3 R, x = v.toList := by
    intro x hx
    obtain ⟨a, b, c, rfl⟩ := List.length_eq_three.1 hx
    exact ⟨⟨a, b, c⟩, rfl⟩
  obtain ⟨x, y, z, rfl⟩ := List.length_eq_three.1 hq
  obtain ⟨v, rfl⟩ := hvector x (hmem x (by simp))
  obtain ⟨w, rfl⟩ := hvector y (hmem y (by simp))
  obtain ⟨u, rfl⟩ := hvector z (hmem z (by simp))
  exact ⟨⟨v, w, u⟩, rfl⟩

theorem eq_one_of_rows {m : Mat3 R} (h : m.rows.map Vec3.toList = Reflection.identity 3) :
    m = 1 := by
  simp only [rows, Vec3.toList, Reflection.identity, Reflection.bordered, List.map_cons,
    List.map_nil, List.replicate, List.cons.injEq, and_true] at h
  obtain ⟨⟨h00, h01, h02⟩, ⟨h10, h11, h12⟩, h20, h21, h22⟩ := h
  ext1 <;> ext1
  all_goals assumption

theorem isUpper_of_rows {m : Mat3 R} {ds : List (Cplx R)}
    (h : Reflection.IsTriangular (m.rows.map Vec3.toList) ds) :
    m.IsUpper ∧ ds = m.diagonalPart.toList := by
  obtain ⟨ds, rfl, hbelow, h⟩ := h.of_cons
  obtain ⟨ds, rfl, hbelow', h⟩ := h.of_cons
  obtain ⟨ds, rfl, -, h⟩ := h.of_cons
  cases h
  exact ⟨⟨hbelow _ (.head _), hbelow _ (.tail _ (.head _)), hbelow' _ (.head _)⟩, rfl⟩

end

variable {F : Type} [Field F] [LinearOrder F] [IsStrictOrderedRing F] [RealFunctions F]

omit [IsStrictOrderedRing F] in
theorem unitaryTriangular_eq {b q : Mat3 F} {d : Vec3 F}
    (hq : Reflection.unitary (Reflection.ofColumns b.columns) = q.columns)
    (hd : ((Reflection.ofColumns b.columns).map fun r => Cplx.ofReal r.diagonal.modulus) =
      d.toList) :
    unitaryTriangular b = (q, d) := by
  simp only [columns, Cplx.ofReal] at hq hd
  simp only [unitaryTriangular, hq, hd]
  rfl

/-- **The matrices that reflections yield are factors**: a unitary one, and the diagonal of an upper
triangular one. -/
theorem factors_unitaryTriangular (hF : ExactPolar F) (b : Mat3 F) :
    ∃ r, Factors b (unitaryTriangular b).1 r ∧ r.diagonalPart = (unitaryTriangular b).2 := by
  have hcolumns : ∀ x ∈ b.columns, x.length = 3 := by simp [columns, Vec3.toList]
  obtain ⟨hlength, hmem, hself, htriangular⟩ := Reflection.resolves_unitary hF rfl hcolumns
  obtain ⟨q, hq⟩ := exists_columns_eq hlength hmem
  rw [hq, gram_columns] at hself htriangular
  obtain ⟨hupper, hdiagonal⟩ := isUpper_of_rows htriangular
  have hunitary : q.IsUnitary := isUnitary_of_adjoint_mul_self (eq_one_of_rows hself)
  have hinverse : q * q.adjoint = 1 := hunitary
  rw [unitaryTriangular_eq hq hdiagonal]
  exact ⟨_, ⟨hunitary, hupper, by rw [← mul_assoc, hinverse, one_mul]⟩, rfl⟩

end Mat3

end PureGauge
