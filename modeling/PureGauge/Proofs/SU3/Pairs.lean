/-
**Pairs of matrices in the pool.**

A pool is made of random matrices, each followed by its adjoint, so that matrices whose numbers
differ in the last binary digit are adjoints of each other.  If the matrices are unitary, then what
one of them does is undone by the other one, and as many of them lead from one matrix to another one
as lead back.

Main definitions:

* `PureGauge.Pool.Paired` — a pool of unitary matrices in pairs of adjoints;
* `PureGauge.Pool.moves` — the numbers of the matrices that lead from one matrix to another one.

Main results:

* `PureGauge.Pool.generate_eq_some_iff`, `PureGauge.Pool.generate_cases` — a pool is made, unless
  there is no room for it;
* `PureGauge.Pool.paired_of_made` — it consists of pairs;
* `PureGauge.Pool.Paired.card_moves` — as many matrices lead there as back.
-/
import Mathlib.Data.Finset.Card
import PureGauge.Proofs.Random.Draw
import PureGauge.Proofs.Scalar.Ring
import PureGauge.Proofs.Lattice.Numbering

namespace PureGauge

/-! ### Partners -/

theorem xor_one_even (j : ℕ) : (2 * j) ^^^ 1 = 2 * j + 1 := by
  have hdiv : ((2 * j) ^^^ 1) / 2 = j := by
    rw [Nat.xor_div_two]
    simp
  have hmod : ((2 * j) ^^^ 1) % 2 = 1 := by
    rw [Nat.xor_mod_two_eq_one]
    omega
  omega

theorem xor_one_odd (j : ℕ) : (2 * j + 1) ^^^ 1 = 2 * j := by
  rw [← xor_one_even, Nat.xor_assoc, Nat.xor_self, Nat.xor_zero]

/-- A number is the first or the second one of a pair. -/
theorem exists_pair (i : ℕ) :
    ∃ j, i = 2 * j ∧ i ^^^ 1 = 2 * j + 1 ∨ i = 2 * j + 1 ∧ i ^^^ 1 = 2 * j := by
  refine ⟨i / 2, ?_⟩
  rcases Nat.even_or_odd' i with ⟨j, rfl | rfl⟩
  · have hj : 2 * j / 2 = j := by omega
    exact Or.inl ⟨by rw [hj], by rw [hj, xor_one_even]⟩
  · have hj : (2 * j + 1) / 2 = j := by omega
    exact Or.inr ⟨by rw [hj], by rw [hj, xor_one_odd]⟩

namespace Pool

/-! ### Making a pool -/

section

variable {R : Type} [Neg R]

/-- Each matrix followed by its adjoint. -/
def withAdjoints (made : List (Mat3 R)) : List (Mat3 R) := made.flatMap fun m => [m, m.adjoint]

theorem length_withAdjoints (made : List (Mat3 R)) :
    (withAdjoints made).length = 2 * made.length := by
  induction made with
  | nil => rfl
  | cons m made ih =>
      have hcons : withAdjoints (m :: made) = m :: m.adjoint :: withAdjoints made := rfl
      rw [hcons, List.length_cons, List.length_cons, ih, List.length_cons]
      omega

theorem getElem?_withAdjoints (made : List (Mat3 R)) (j : ℕ) :
    (withAdjoints made)[2 * j]? = made[j]? ∧
      (withAdjoints made)[2 * j + 1]? = made[j]?.map Mat3.adjoint := by
  induction made generalizing j with
  | nil => exact ⟨rfl, rfl⟩
  | cons m made ih =>
      have hcons : withAdjoints (m :: made) = m :: m.adjoint :: withAdjoints made := rfl
      rw [hcons]
      cases j with
      | zero => exact ⟨rfl, rfl⟩
      | succ j =>
          rw [Nat.mul_add, Nat.mul_one]
          exact ih j

variable {G : Type} [WordSource G] [Zero R] [One R] [Add R] [Sub R] [Mul R] [Div R] [NatCast R]
  [BEq R] [LT R] [DecidableLT R] [RealFunctions R]

/-- Random matrices close to the identity are made from every source that does not stop. -/
theorem total_nearUnity (hG : Endless G) (s : Spread R) :
    (Mat3.nearUnity s : Draw G (Mat3 R)).Total := by
  have hdisc : (Cplx.inUnitDisc : Draw G (Cplx R)).Total :=
    Draw.total_bind (Draw.total_fraction52 hG) fun r =>
      Draw.total_bind (Draw.total_fraction52 hG) fun t => Draw.total_pure _
  have hcolumn : (do
      let x ← Cplx.inUnitDisc
      let y ← Cplx.inUnitDisc
      let z ← Cplx.inUnitDisc
      return ⟨x, y, z⟩ : Draw G (Vec3 R)).Total :=
    Draw.total_bind hdisc fun x => Draw.total_bind hdisc fun y =>
      Draw.total_bind hdisc fun z => Draw.total_pure _
  rw [Mat3.nearUnity]
  split
  · exact Draw.total_pure _
  · exact Draw.total_bind hcolumn fun c0 => Draw.total_bind hcolumn fun c1 =>
      Draw.total_bind hcolumn fun c2 => Draw.total_pure _

/-- There is no pool without a pair. -/
theorem generate_eq_none_iff {pairs : ℕ} {s : Spread R} {g g' : G} :
    generate pairs s g = .ok none g' ↔ pairs = 0 ∧ g' = g := by
  rw [generate]
  split
  case isTrue hpairs => simp [hpairs, eq_comm]
  case isFalse hpairs =>
    refine iff_of_false (fun h => ?_) fun h => hpairs h.1
    obtain ⟨size, _, -, h⟩ := Draw.bind_eq_ok_iff.1 h
    obtain ⟨_, _, -, h⟩ := Draw.bind_eq_ok_iff.1 h
    obtain ⟨made, _, -, h⟩ := Draw.bind_eq_ok_iff.1 h
    cases h

/-- A pool is made exactly if there are pairs, room for their matrices, and the first one of each
pair is drawn. -/
theorem generate_eq_some_iff {pairs : ℕ} {s : Spread R} {pool : Pool R} {g g' : G} :
    generate pairs s g = .ok (some pool) g' ↔
      0 < pairs ∧ Storage.Fits Storage.matrixBytes (2 * pairs) ∧
      ∃ made, Draw.times pairs (Mat3.nearUnity s) g = .ok made g' ∧
        pool = ⟨(withAdjoints made).toArray, s⟩ := by
  rw [generate]
  split
  case isTrue hpairs =>
    refine iff_of_false (fun h => ?_) fun h => h.1.ne' hpairs
    cases h
  case isFalse hpairs =>
    constructor
    · intro h
      obtain ⟨size, _, hsize, hroom⟩ := Draw.bind_eq_ok_iff.1 h
      obtain ⟨_, _, hroom, htimes⟩ := Draw.bind_eq_ok_iff.1 hroom
      obtain ⟨made, _, hmade, hpool⟩ := Draw.bind_eq_ok_iff.1 htimes
      obtain ⟨hword, rfl⟩ := Draw.checked_eq_ok_iff.1 hsize
      obtain ⟨hfits, rfl⟩ := Draw.checked_eq_ok_iff.1 hroom
      obtain ⟨-, rfl⟩ := Word.mul_eq_ok_iff.1 hword
      cases hpool
      exact ⟨Nat.pos_of_ne_zero hpairs, Storage.room_eq_ok_iff.1 hfits, made, hmade, rfl⟩
    · rintro ⟨-, hfits, made, hmade, rfl⟩
      have hmul : Word.mul 2 pairs = .ok (2 * pairs) := by
        rw [Word.mul_eq_ok_iff]
        refine ⟨?_, rfl⟩
        have hle : ((144 * (2 * pairs) : ℕ) : ℤ) ≤ 2 ^ 63 - 1 := hfits
        simp only [UInt64.size]
        omega
      rw [hmul, Draw.checked_ok_bind, Storage.room_eq_ok_iff.2 hfits, Draw.checked_ok_bind,
        Draw.bind_of_ok hmade]
      rfl

/-- A pool of so many pairs is made from a source that does not stop, unless there is no room for
the matrices. -/
theorem generate_cases (hG : Endless G) {pairs : ℕ} (hpairs : 0 < pairs) (s : Spread R) (g : G) :
    (Storage.Fits Storage.matrixBytes (2 * pairs) ∧ ∃ made g', made.length = pairs ∧
        Draw.times pairs (Mat3.nearUnity s) g = .ok made g' ∧
        generate pairs s g = .ok (some ⟨(withAdjoints made).toArray, s⟩) g') ∨
      ¬ Storage.Fits Storage.matrixBytes (2 * pairs) ∧
        ∃ fault, generate pairs s g = .error fault g := by
  by_cases hfits : Storage.Fits Storage.matrixBytes (2 * pairs)
  · obtain ⟨made, g', hmade, hlength⟩ := Draw.times_of_total (total_nearUnity hG s) pairs g
    exact Or.inl ⟨hfits, made, g', hlength, hmade,
      generate_eq_some_iff.2 ⟨hpairs, hfits, made, hmade, rfl⟩⟩
  · refine Or.inr ⟨hfits, ?_⟩
    rw [generate, if_neg hpairs.ne']
    cases hmul : Word.mul 2 pairs with
    | error fault => exact ⟨fault, rfl⟩
    | ok size =>
        obtain ⟨-, rfl⟩ := Word.mul_eq_ok_iff.1 hmul
        refine ⟨.storageTooLarge, ?_⟩
        rw [Draw.checked_ok_bind, Storage.room, if_neg hfits]
        rfl

end

/-! ### Pairs -/

variable {R : Type} [CommRing R]

/-- Unitary matrices in pairs: matrices whose numbers differ in the last binary digit are adjoints
of each other. -/
structure Paired (pool : Pool R) : Prop where
  unitary : ∀ m ∈ pool.matrices, m.IsUnitary
  partner : ∀ (i : ℕ) (m : Mat3 R),
    pool.matrices[i]? = some m → pool.matrices[i ^^^ 1]? = some m.adjoint

/-- Unitary matrices and their adjoints are a pool of pairs. -/
theorem paired_of_made {made : List (Mat3 R)} (h : ∀ m ∈ made, m.IsUnitary) (s : Spread R) :
    Paired (⟨(withAdjoints made).toArray, s⟩ : Pool R) where
  unitary := by
    intro m hm
    obtain ⟨k, hk, hm⟩ := List.mem_flatMap.1 (List.mem_toArray.1 hm)
    rcases List.mem_pair.1 hm with rfl | rfl
    · exact h m hk
    · rw [Mat3.IsUnitary, Mat3.adjoint_adjoint]
      exact (h k hk).adjoint_mul_self
  partner := by
    intro i m hi
    rw [List.getElem?_toArray] at hi ⊢
    obtain ⟨j, ⟨rfl, hpartner⟩ | ⟨rfl, hpartner⟩⟩ := exists_pair i
    · rw [(getElem?_withAdjoints made j).1] at hi
      rw [hpartner, (getElem?_withAdjoints made j).2, hi, Option.map_some]
    · rw [(getElem?_withAdjoints made j).2, Option.map_eq_some_iff] at hi
      obtain ⟨k, hk, rfl⟩ := hi
      rw [hpartner, (getElem?_withAdjoints made j).1, hk, Mat3.adjoint_adjoint]

/-- The numbers of the matrices that lead from `m` to `k`. -/
def moves [DecidableEq R] (pool : Pool R) (m k : Mat3 R) : Finset ℕ :=
  (Finset.range pool.matrices.size).filter fun i => (pool.matrices[i]?.map (m * ·)) = some k

theorem mem_moves [DecidableEq R] {pool : Pool R} {m k : Mat3 R} {i : ℕ} :
    i ∈ pool.moves m k ↔ ∃ factor, pool.matrices[i]? = some factor ∧ m * factor = k := by
  rw [moves, Finset.mem_filter, Finset.mem_range, Option.map_eq_some_iff]
  refine ⟨fun h => h.2, fun h => ⟨?_, h⟩⟩
  obtain ⟨factor, hfactor, -⟩ := h
  exact (Array.getElem?_eq_some_iff.1 hfactor).1

namespace Paired

variable {pool : Pool R}

/-- What a matrix of the pool does is undone by its partner. -/
theorem mul_partner (h : pool.Paired) {factor : Mat3 R} (hfactor : factor ∈ pool.matrices)
    (m : Mat3 R) : m * factor * factor.adjoint = m := by
  rw [mul_assoc, h.unitary factor hfactor, mul_one]

variable [DecidableEq R]

/-- A matrix that leads from `m` to `k` has a partner that leads back. -/
theorem xor_one_mem_moves (h : pool.Paired) {m k : Mat3 R} {i : ℕ} (hi : i ∈ pool.moves m k) :
    i ^^^ 1 ∈ pool.moves k m := by
  obtain ⟨factor, hfactor, rfl⟩ := mem_moves.1 hi
  exact mem_moves.2 ⟨factor.adjoint, h.partner i factor hfactor,
    h.mul_partner (Array.mem_of_getElem? hfactor) m⟩

/-- As many matrices of the pool lead from one matrix to another one as lead back. -/
theorem card_moves (h : pool.Paired) (m k : Mat3 R) :
    (pool.moves m k).card = (pool.moves k m).card := by
  have hinvolution : ∀ i : ℕ, i ^^^ 1 ^^^ 1 = i := by
    intro i
    rw [Nat.xor_assoc, Nat.xor_self, Nat.xor_zero]
  exact Finset.card_nbij' (· ^^^ 1) (· ^^^ 1) (fun i hi => h.xor_one_mem_moves hi)
    (fun i hi => h.xor_one_mem_moves hi) (fun i _ => hinvolution i) fun i _ => hinvolution i

end Paired

end Pool

end PureGauge
