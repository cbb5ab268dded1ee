/-
**What a proposal reads.**

The proposal for a link is made from the matrix of the link and from its staple, so that two states
that agree at the link and at the links around it are proposed the same update.  On a complete state
with at least two points in each direction nothing goes wrong while a proposal is made, except that
the choice of a factor may be given up after all its attempts were rejected.

Main definitions:

* `PureGauge.Pool.Serves` — a factor is chosen for every link;
* `PureGauge.proposal` — a proposal made from the matrix of a link and the changes of the action.

Main results:

* `PureGauge.propose_eq_of_neighbours` — a proposal reads the link and those around it;
* `PureGauge.evaluate_eq` — evaluating a link makes that proposal, with the generator of the link;
* `PureGauge.evaluate_cases` — the only fault of an evaluation.
-/
import PureGauge.Sweep.Engine
import PureGauge.Proofs.Random.Draw
import PureGauge.Proofs.State.Sites

namespace PureGauge

variable {G R : Type} [Zero R] [One R] [Add R] [Sub R] [Mul R] [Div R] [NatCast R] [Acceptance R]

/-- A factor is chosen for each of so many links in a sweep with a given word, whatever the state
is. -/
def Pool.Serves {R : Type} (pool : Pool R) (seed : UInt64) (links : ℕ) : Prop :=
  ∀ i < links, Draw.Settles pool.choose (linkSource seed i)

instance decidableServes {R : Type} (pool : Pool R) (seed : UInt64) (links : ℕ) :
    Decidable (pool.Serves seed links) :=
  inferInstanceAs (Decidable (∀ i < links, Draw.Settles pool.choose (linkSource seed i)))

/-- A proposal for a link with the matrix `old`, where `change` tells by how much another matrix
changes the action. -/
def proposal [WordSource G] (pool : Pool R) (old : Mat3 R) (change : Mat3 R → R) :
    Draw G (LinkUpdate R) := do
  let factor ← pool.choose
  let decided ← decideChange (change (old * factor))
  return ⟨old * factor, change (old * factor), decided.1, decided.2⟩

omit [Zero R] [One R] [Add R] [Sub R] [Mul R] in
theorem decideChange_ok [WordSource G] (hG : Endless G) (δ : R) (g : G) :
    ∃ o g', decideChange δ g = .ok o g' := by
  rw [decideChange]
  split
  · exact ⟨_, g, rfl⟩
  · obtain ⟨w, g', hw⟩ := hG g
    have hword : Draw.word g = .ok w g' := by rw [Draw.word, hw]
    have hdraw : (Draw.fraction53 : Draw G R) g = .ok (Draw.fraction53OfWord w) g' :=
      Draw.bind_of_ok hword
    exact ⟨_, g', Draw.bind_of_ok hdraw⟩

/-- A nonempty pool and an endless source make a proposal, unless no attempt to choose a factor was
accepted. -/
theorem proposal_cases [WordSource G] (hG : Endless G) {pool : Pool R}
    (hpool : 0 < pool.matrices.size) (old : Mat3 R) (change : Mat3 R → R) (g : G) :
    (∃ u g', proposal pool old change g = .ok u g') ∨
      (∃ g', proposal pool old change g = .error .unsettled g') ∧ ¬ Draw.Settles pool.choose g := by
  rcases pool.choose_cases hG hpool g with ⟨m, g', hm, -⟩ | ⟨g', hg'⟩
  · obtain ⟨o, g'', ho⟩ := decideChange_ok hG (change (old * m)) g'
    exact Or.inl ⟨_, g'', (Draw.bind_of_ok hm).trans (Draw.bind_of_ok ho)⟩
  · exact Or.inr ⟨⟨g', Draw.bind_of_error hg'⟩, Draw.not_settles_of_error hg'⟩

/-- The change of the action that a proposal tells is that of the matrix it proposes. -/
theorem proposal_change [WordSource G] {pool : Pool R} {old : Mat3 R} {change : Mat3 R → R}
    {g g' : G} {u : LinkUpdate R} (h : proposal pool old change g = .ok u g') :
    u.change = change u.proposed := by
  rw [proposal] at h
  obtain ⟨factor, g₁, -, h⟩ := Draw.bind_eq_ok_iff.1 h
  obtain ⟨decided, g₂, -, h⟩ := Draw.bind_eq_ok_iff.1 h
  rw [Draw.pure_apply, EStateM.Result.ok.injEq] at h
  rw [← h.1]

theorem Lattice.dim_ne_one {l : Lattice} (h : 2 ≤ l.dim.toNat) : l.dim ≠ 1 := by
  intro h1
  rw [h1] at h
  exact absurd h (by decide)

variable [Neg R] {n : ℕ} [NeZero n] {s t : LatticeState R} {pool : Pool R}

omit [NeZero n] in
/-- With more than one point, states that agree in lattice, coupling, a link and the links around it
are proposed the same update for the link, and the source is left the same. -/
theorem propose_eq_of_neighbours [WordSource G] (hlattice : t.lattice = s.lattice)
    (hbeta : t.beta = s.beta) (hdim : s.lattice.dim ≠ 1) {k : Link}
    (h : ∀ j ∈ k :: k.neighbours, t.links.link s.lattice j = s.links.link s.lattice j) :
    (propose pool t k : Draw G (LinkUpdate R)) = propose pool s k := by
  have hown := h k (List.mem_cons_self ..)
  have hstaple := LatticeState.staple_eq_of_neighbours hlattice fun j hj =>
    h j (List.mem_cons_of_mem _ hj)
  simp only [propose, LatticeState.actionChange, hlattice, if_neg hdim, hown, hstaple,
    LatticeState.stapleAction, hbeta]

omit [NeZero n] in
theorem evaluate_eq_of_neighbours (hlattice : t.lattice = s.lattice) (hbeta : t.beta = s.beta)
    (hdim : s.lattice.dim ≠ 1) (seed : UInt64) {k : Link}
    (h : ∀ j ∈ k :: k.neighbours, t.links.link s.lattice j = s.links.link s.lattice j) :
    evaluate pool seed t k = evaluate pool seed s k := by
  simp only [evaluate, hlattice, propose_eq_of_neighbours hlattice hbeta hdim h]

theorem propose_eq [WordSource G] (h : s.links.Fills s.lattice n) (hn : 2 ≤ n) {p : Point}
    (hp : p.Inner) (μ : Fin 4) :
    (propose pool s ⟨p, .along μ⟩ : Draw G (LinkUpdate R)) =
      proposal pool (s.links.configuration n (p.site n) μ) fun m =>
        s.stapleAction m ((s.links.configuration n).staple (p.site n) μ) -
          s.stapleAction (s.links.configuration n (p.site n) μ)
            ((s.links.configuration n).staple (p.site n) μ) := by
  have hdim : s.lattice.dim ≠ 1 := Lattice.dim_ne_one (hn.trans_eq h.numbered.dim_eq.symm)
  rw [propose, h.link_eq, Draw.checked_ok_bind]
  simp only [LatticeState.actionChange, if_neg hdim, LatticeState.staple_eq h hp,
    Checked.ok_bind, Checked.pure_eq, Draw.checked_ok_bind]
  rfl

/-- Evaluating a link makes a proposal with the generator of the link. -/
theorem evaluate_eq (h : s.links.Fills s.lattice n) (hn : 2 ≤ n) (seed : UInt64) (x : Site n)
    (μ : Fin 4) :
    evaluate pool seed s ⟨x.point, .along μ⟩ =
      match proposal pool (s.links.configuration n x μ)
          (fun m => s.stapleAction m ((s.links.configuration n).staple x μ) -
            s.stapleAction (s.links.configuration n x μ) ((s.links.configuration n).staple x μ))
          (linkSource seed (x.linkNumber μ)) with
      | .ok update _ => .ok (x.linkNumber μ, update)
      | .error fault _ => .error fault := by
  have hlt := h.numbered.lt_65536
  rw [evaluate, h.numbered.linkIndex_eq, Checked.ok_bind,
    propose_eq h hn (Site.point_inner (by omega) x), Site.site_point (by omega)]
  rfl

/-- The update for a link carries the number of the link, and the only fault is that no attempt to
choose a factor was accepted. -/
theorem evaluate_cases (h : s.links.Fills s.lattice n) (hn : 2 ≤ n)
    (hpool : 0 < pool.matrices.size) (seed : UInt64) (x : Site n) (μ : Fin 4) :
    (∃ u, evaluate pool seed s ⟨x.point, .along μ⟩ = .ok (x.linkNumber μ, u)) ∨
      evaluate pool seed s ⟨x.point, .along μ⟩ = .error .unsettled ∧
        ¬ Draw.Settles pool.choose (linkSource seed (x.linkNumber μ)) := by
  rw [evaluate_eq h hn]
  rcases proposal_cases Xoshiro.endless hpool (s.links.configuration n x μ)
    (fun m => s.stapleAction m ((s.links.configuration n).staple x μ) -
      s.stapleAction (s.links.configuration n x μ) ((s.links.configuration n).staple x μ))
    (linkSource seed (x.linkNumber μ)) with ⟨u, g, hu⟩ | ⟨⟨g, hg⟩, hsettles⟩
  · exact Or.inl ⟨u, by rw [hu]⟩
  · exact Or.inr ⟨by rw [hg], hsettles⟩

/-- The update for a link tells the change of its local action, computed from the staple. -/
theorem evaluate_change (h : s.links.Fills s.lattice n) (hn : 2 ≤ n) {seed : UInt64} {x : Site n}
    {μ : Fin 4} {iu : ℕ × LinkUpdate R}
    (hiu : evaluate pool seed s ⟨x.point, .along μ⟩ = .ok iu) :
    iu.1 = x.linkNumber μ ∧
      iu.2.change = s.stapleAction iu.2.proposed ((s.links.configuration n).staple x μ) -
        s.stapleAction (s.links.configuration n x μ) ((s.links.configuration n).staple x μ) := by
  rw [evaluate_eq h hn] at hiu
  split at hiu
  case h_1 u g hu =>
    rw [Except.ok.injEq] at hiu
    subst hiu
    exact ⟨rfl, proposal_change hu⟩
  case h_2 fault g hfault => simp at hiu

end PureGauge
