/-
**Moves that can be undone.**

A proposal multiplies the matrix of a link with a matrix of the pool.  If that is carried out, then
the partner of this matrix in the pool proposes the matrix that the link had before, and the action
would change by the opposite amount: with more than one point because the staple does not contain
the link, and with a single point because the two local actions are computed from the same two
fields.

Main definitions:

* `PureGauge.LatticeState.Offers` — what a matrix of the pool proposes for a link.

Main results:

* `PureGauge.LatticeState.actionChange_replaced` — the way back changes the action by the opposite
  amount;
* `PureGauge.Pool.reversible` — the pool is symmetric, and every move can be undone.
-/
import PureGauge.Proofs.SU3.Pairs
import PureGauge.Proofs.State.Replacement
import PureGauge.Proofs.Sweep.Energy
import PureGauge.Proofs.Sweep.Trials

namespace PureGauge

/-! ### Directions -/

/-- Only the four directions have orthogonal ones. -/
theorem Direction.exists_along_of_orthogonal {d : Direction} {ds : List Direction}
    (h : d.orthogonal = .ok ds) : ∃ μ, d = .along μ := by
  refine Direction.exists_along ?_
  by_contra hlarge
  have hall : ∀ e ∈ Direction.all, e.index.toNat < Direction.count := by decide
  have hother : ∀ e ∈ Direction.all, decide (e ≠ d) = true := by
    intro e he
    rw [decide_eq_true_eq]
    rintro rfl
    exact hlarge (hall e he)
  rw [orthogonal, List.filter_eq_self.2 hother] at h
  cases h

namespace LatticeState

/-! ### The way back -/

section

variable {F : Type} [Field F] {n : ℕ} [NeZero n] {s : LatticeState F}

/-- A change of the action is only computed for links in one of the four directions. -/
theorem exists_along_of_actionChange {k : Link} {old m : Mat3 F} {δ : F}
    (h : s.actionChange k old m = .ok δ) : ∃ p μ, k = ⟨p, .along μ⟩ := by
  obtain ⟨p, d⟩ := k
  have horthogonal : ∃ ds, d.orthogonal = .ok ds := by
    rw [actionChange] at h
    split at h
    · obtain ⟨after, hafter, -⟩ := Checked.bind_eq_ok_iff.1 h
      rw [localActionReplacing] at hafter
      obtain ⟨i, -, hafter⟩ := Checked.bind_eq_ok_iff.1 hafter
      obtain ⟨links, -, hafter⟩ := Checked.bind_eq_ok_iff.1 hafter
      obtain ⟨sum, hsum, -⟩ := Checked.bind_eq_ok_iff.1 hafter
      rw [LinkField.plaquetteSum] at hsum
      obtain ⟨ds, hds, -⟩ := Checked.bind_eq_ok_iff.1 hsum
      exact ⟨ds, hds⟩
    · obtain ⟨staple, hstaple, -⟩ := Checked.bind_eq_ok_iff.1 h
      rw [LatticeState.staple] at hstaple
      obtain ⟨ds, hds, -⟩ := Checked.bind_eq_ok_iff.1 hstaple
      exact ⟨ds, hds⟩
  obtain ⟨ds, hds⟩ := horthogonal
  obtain ⟨μ, rfl⟩ := Direction.exists_along_of_orthogonal hds
  exact ⟨p, μ, rfl⟩

/-- **The way back changes the action by the opposite amount**, with any number of points and at
whatever point the change can be computed. -/
theorem actionChange_replaced (h : s.links.Fills s.lattice n) {p : Point} {μ : Fin 4} {m : Mat3 F}
    {δ : F} (hδ : s.actionChange ⟨p, .along μ⟩ (s.links.configuration n (p.site n) μ) m = .ok δ) :
    (s.replaced (p.site n) μ m).actionChange ⟨p, .along μ⟩ m
      (s.links.configuration n (p.site n) μ) = .ok (-δ) := by
  have hlattice : (s.replaced (p.site n) μ m).lattice = s.lattice := rfl
  rw [actionChange] at hδ ⊢
  rw [hlattice]
  by_cases hdim : s.lattice.dim = 1
  · -- both local actions are computed anew, and they only change places
    rw [if_pos hdim, localActionReplacing_eq_localAction h] at hδ
    rw [if_pos hdim, localActionReplacing_eq_localAction (fills_replaced h (p.site n) μ m),
      replaced_replaced h]
    obtain ⟨after, hafter, hδ⟩ := Checked.bind_eq_ok_iff.1 hδ
    obtain ⟨before, hbefore, hδ⟩ := Checked.bind_eq_ok_iff.1 hδ
    rw [Checked.pure_eq, Except.ok.injEq] at hδ
    rw [hbefore, Checked.ok_bind, hafter, Checked.ok_bind, Checked.pure_eq, ← hδ, neg_sub]
  · -- the staple is the same in both states
    have hn : 2 ≤ n := by
      have hpos := NeZero.pos n
      have hne : n ≠ 1 := by
        intro hn
        refine hdim (UInt64.toNat_inj.1 ?_)
        rw [h.numbered.dim_eq, hn]
        rfl
      omega
    rw [if_neg hdim] at hδ ⊢
    rw [staple_replaced h hn]
    obtain ⟨staple, hstaple, hδ⟩ := Checked.bind_eq_ok_iff.1 hδ
    rw [Checked.pure_eq, Except.ok.injEq] at hδ
    rw [hstaple, Checked.ok_bind, Checked.pure_eq, ← hδ, neg_sub]
    rfl

end

/-! ### Offers -/

/-- What the matrix with number `i` of a pool proposes for a link: the matrix `m`, which changes the
action by `δ`. -/
def Offers {R : Type} [Zero R] [One R] [Add R] [Sub R] [Mul R] [Neg R] [Div R] [NatCast R]
    (s : LatticeState R) (pool : Pool R) (k : Link) (i : ℕ) (m : Mat3 R) (δ : R) : Prop :=
  ∃ old factor, s.links.link s.lattice k = .ok old ∧ pool.matrices[i]? = some factor ∧
    m = old * factor ∧ s.actionChange k old m = .ok δ

variable {F : Type} [Field F] {s : LatticeState F} {pool : Pool F} {k : Link} {i : ℕ} {m : Mat3 F}
  {δ : F}

/-- A source from which the number of a matrix is drawn lets it be proposed. -/
theorem Offers.propose [Acceptance F] {G : Type} [WordSource G] (h : s.Offers pool k i m δ)
    (hG : Endless G) {g g₁ : G} (hi : pool.chooseIndex g = .ok i g₁) :
    ∃ u g₂, propose pool s k g = .ok u g₂ ∧ u.proposed = m ∧ u.change = δ := by
  obtain ⟨old, factor, hold, hfactor, rfl, hδ⟩ := h
  have hchoose : pool.choose g = .ok factor g₁ := by
    rw [Pool.choose, Draw.bind_of_ok hi, hfactor]
    rfl
  obtain ⟨decided, g₂, hdecided⟩ := decideChange_ok hG δ g₁
  refine ⟨⟨old * factor, δ, decided.1, decided.2⟩, g₂, ?_, rfl, rfl⟩
  rw [PureGauge.propose, hold, Draw.checked_ok_bind, Draw.bind_of_ok hchoose]
  simp only [hδ, Draw.checked_ok_bind]
  exact Draw.bind_of_ok hdecided

/-- Every matrix of the pool makes a proposal for a link whose point is away from the ends of the
signed words. -/
theorem Complete.exists_offers (h : s.Complete) (hdir : k.dir.index.toNat < Direction.count)
    (hpos : k.pos.Inner) (hi : i < pool.matrices.size) : ∃ m δ, s.Offers pool k i m δ := by
  have : NeZero s.lattice.dim.toNat := ⟨h.dim_pos.ne'⟩
  obtain ⟨p, d⟩ := k
  obtain ⟨μ, rfl⟩ := Direction.exists_along hdir
  exact ⟨_, _, _, pool.matrices[i], h.fills.link_eq p μ, Array.getElem?_eq_getElem hi, rfl,
    actionChange_eq h.fills (hpos.clear μ) _ _⟩

/-- What is proposed can be carried out, and then the partner in the pool proposes the matrix that
the link had before, which changes the action by the opposite amount. -/
theorem Complete.offers_back (h : s.Complete) (hpool : pool.Paired)
    (hoffer : s.Offers pool k i m δ) :
    ∃ old t, s.links.link s.lattice k = .ok old ∧ s.setLink k m = .ok t ∧ t.Complete ∧
      t.Offers pool k (i ^^^ 1) old (-δ) := by
  have : NeZero s.lattice.dim.toNat := ⟨h.dim_pos.ne'⟩
  obtain ⟨old, factor, hold, hfactor, rfl, hδ⟩ := hoffer
  obtain ⟨p, μ, rfl⟩ := exists_along_of_actionChange hδ
  have hold' := h.fills.link_eq p μ
  rw [hold, Except.ok.injEq] at hold'
  subst hold'
  set old := s.links.configuration s.lattice.dim.toNat (p.site s.lattice.dim.toNat) μ
  have hback := hpool.mul_partner (Array.mem_of_getElem? hfactor) old
  set t := s.replaced (p.site s.lattice.dim.toNat) μ (old * factor) with ht
  have hfills : t.links.Fills s.lattice s.lattice.dim.toNat := fills_replaced h.fills _ μ _
  refine ⟨old, t, hold, setLink_eq h.fills p μ _, ⟨h.dim_pos, h.links_lt, hfills.size_eq⟩,
    old * factor, factor.adjoint, ?_,
    hpool.partner i factor hfactor, hback.symm, ?_⟩
  · refine (hfills.link_eq p μ).trans ?_
    rw [ht, configuration_replaced h.fills, Configuration.set_self]
  · exact actionChange_replaced h.fills hδ

end LatticeState

/-! ### The pool -/

/-- **The proposals are symmetric, and every move can be undone.**  Let the matrices that are made
from an endless source be unitary.  Then the pool is made, unless there is no room for it, and it
has two matrices for each pair.  As many of them lead from one matrix to another one as lead back.
In a complete state every matrix of the pool makes a proposal for every link away from the ends of
the signed words.  Whatever is proposed for a link can be carried out, and then the partner of the
matrix proposes what the link had before, with the opposite change of the action; a source from
which the number of a matrix is drawn leads to its proposal. -/
theorem Pool.reversible {F G : Type} [Field F] [DecidableEq F] [LT F] [DecidableLT F]
    [RealFunctions F] [Acceptance F] [WordSource G] (hG : Endless G) {pairs : ℕ}
    (hpairs : 0 < pairs) (spread : Spread F) (g : G)
    (hunitary : ∀ made g', Draw.times pairs (Mat3.nearUnity spread) g = .ok made g' →
      ∀ m ∈ made, m.IsUnitary) :
    (∃ pool g', generate pairs spread g = .ok (some pool) g' ∧ pool.matrices.size = 2 * pairs ∧
        (∀ m k, (pool.moves m k).card = (pool.moves k m).card) ∧
        ∀ (s : LatticeState F) (k : Link), s.Complete →
          (k.dir.index.toNat < Direction.count → k.pos.Inner →
            ∀ i < 2 * pairs, ∃ m δ, s.Offers pool k i m δ) ∧
          ∀ i m δ, s.Offers pool k i m δ →
            (∀ g g₁ : G, pool.chooseIndex g = .ok i g₁ →
              ∃ u g₂, propose pool s k g = .ok u g₂ ∧ u.proposed = m ∧ u.change = δ) ∧
            ∃ old t, s.links.link s.lattice k = .ok old ∧ s.setLink k m = .ok t ∧
              t.Offers pool k (i ^^^ 1) old (-δ) ∧
              ∀ g g₁ : G, pool.chooseIndex g = .ok (i ^^^ 1) g₁ →
                ∃ u g₂, propose pool t k g = .ok u g₂ ∧ u.proposed = old ∧ u.change = -δ) ∨
      ¬ Storage.Fits Storage.matrixBytes (2 * pairs) ∧
        ∃ fault, (generate pairs spread g : EStateM.Result Fault G (Option (Pool F))) =
          .error fault g := by
  rcases generate_cases hG hpairs spread g with ⟨-, made, g', hlength, hmade, hpool⟩ | hroom
  · have hpaired : Paired (⟨(withAdjoints made).toArray, spread⟩ : Pool F) :=
      paired_of_made (hunitary made g' hmade) spread
    have hsize : (withAdjoints made).toArray.size = 2 * pairs := by
      rw [List.size_toArray, length_withAdjoints, hlength]
    refine Or.inl ⟨_, g', hpool, hsize, hpaired.card_moves, fun s k hs => ⟨?_, ?_⟩⟩
    · intro hdir hpos i hi
      exact hs.exists_offers hdir hpos (hi.trans_eq hsize.symm)
    · intro i m δ hoffer
      obtain ⟨old, t, hold, hset, -, hback⟩ := hs.offers_back hpaired hoffer
      exact ⟨fun g g₁ hi => hoffer.propose hG hi, old, t, hold, hset, hback,
        fun g g₁ hi => hback.propose hG hi⟩
  · exact Or.inr hroom

/-! ### A pool over the rational numbers -/

/-- A source that reads a list of words and yields zeros after them. -/
structure Tape where
  words : List UInt64

instance : WordSource Tape where
  next
    | ⟨[]⟩ => .ok (0, ⟨[]⟩)
    | ⟨w :: rest⟩ => .ok (w, ⟨rest⟩)

theorem Tape.endless : Endless Tape := by
  rintro ⟨_ | ⟨w, rest⟩⟩
  · exact ⟨0, ⟨[]⟩, rfl⟩
  · exact ⟨w, ⟨rest⟩, rfl⟩

/-- The root of a fraction whose parts in lowest terms are squares. -/
def rationalRoot (q : ℚ) : ℚ := (Nat.sqrt q.num.toNat : ℚ) / (Nat.sqrt q.den : ℚ)

/-- Functions of rational numbers in the place of the real ones: roots are taken of squares only,
and no angle turns anything. -/
instance rationalFunctions : RealFunctions ℚ where
  epsilon := 0
  pi := 3
  sqrt := rationalRoot
  cbrt := fun x => x
  exp := fun x => 1 + x
  log := fun x => x - 1
  sin := fun _ => 0
  cos := fun _ => 1
  angle := fun _ _ => 0
  hypotenuse := fun x y => rationalRoot (x * x + y * y)
  isFinite := fun _ => true

/-- A tape whose first word stands for one half. -/
def halfTape : Tape := ⟨[0x8000000000000000]⟩

theorem reversible_halfTape :
    ∃ pool g', Pool.generate 2 ⟨8 / 3⟩ halfTape = .ok (some pool) g' ∧ pool.matrices.size = 4 ∧
      (∀ m k, (pool.moves m k).card = (pool.moves k m).card) ∧
      ∃ m δ old t, coldState.Offers pool ⟨.origin, .along 3⟩ 0 m δ ∧
        coldState.setLink ⟨.origin, .along 3⟩ m = .ok t ∧
        t.Offers pool ⟨.origin, .along 3⟩ 1 old (-δ) := by
  have hunitary : ∀ (made : List (Mat3 ℚ)) (g' : Tape),
      Draw.times 2 (Mat3.nearUnity ⟨8 / 3⟩) halfTape = .ok made g' → ∀ m ∈ made, m.IsUnitary := by
    have hall : (match (Draw.times 2 (Mat3.nearUnity ⟨8 / 3⟩) halfTape :
          EStateM.Result Fault Tape (List (Mat3 ℚ))) with
        | .ok made _ => made.all fun m => decide (m * m.adjoint = 1)
        | .error _ _ => false) = true := by
      decide +kernel
    intro made g' hmade m hm
    rw [hmade] at hall
    have hproduct := List.all_eq_true.1 hall m hm
    rw [decide_eq_true_eq] at hproduct
    exact hproduct
  have hcomplete : coldState.Complete := ⟨by decide, by decide, by decide⟩
  rcases Pool.reversible Tape.endless Nat.two_pos ⟨8 / 3⟩ halfTape hunitary with
    ⟨pool, g', hpool, hsize, hmoves, hstates⟩ | ⟨hroom, -⟩
  · obtain ⟨hoffers, hback⟩ := hstates coldState ⟨.origin, .along 3⟩ hcomplete
    obtain ⟨m, δ, hoffer⟩ := hoffers (by decide) (by decide) 0 (by decide)
    obtain ⟨-, old, t, -, hset, hreturn, -⟩ := hback 0 m δ hoffer
    exact ⟨pool, g', hpool, hsize, hmoves, m, δ, old, t, hoffer, hset, hreturn⟩
  · exact absurd (by decide) hroom

end PureGauge
