/-
**Trials and what they leave behind.**

A trial is a proposal for a link together with the matrix of the pool that it was made with.  A
trial that is accepted multiplies the matrix of its link with that factor from the right, and one
that is not accepted leaves it as it is, so that after any number of trials each matrix is the
product of what it was and of the factors of the accepted trials for its link, in their order.

Main definitions:

* `PureGauge.Trial` — a proposal and its factor, with `PureGauge.Trial.of`;
* `PureGauge.Trial.acceptedFactors`, `PureGauge.Trial.acceptedCount` — the factors of the accepted
  trials for a link, and the number of all accepted ones;
* `PureGauge.LinkField.Multiplied` — a field that is reached from another one by multiplying
  factors.

Main results:

* `PureGauge.evaluate_trial` — evaluating a link makes a trial, with any number of points;
* `PureGauge.multiplied_commit` — what carrying out a trial does.
-/
import PureGauge.Proofs.State.Change
import PureGauge.Proofs.Sweep.Executions

namespace PureGauge

variable {G R : Type}

/-- A proposal that was made for a link: the number of the link, the matrix of the pool that was
chosen for it, and what was decided. -/
structure Trial (R : Type) where
  number : ℕ
  factor : Mat3 R
  update : LinkUpdate R

namespace Trial

/-- The trial of an update that was made with random words from a source. -/
def of [WordSource G] (pool : Pool R) (g : G) (iu : ℕ × LinkUpdate R) : Checked (Trial R) :=
  match pool.choose g with
  | .ok factor _ => .ok ⟨iu.1, factor, iu.2⟩
  | .error fault _ => .error fault

/-- The factors of the accepted trials for the link with number `i`, in order. -/
def acceptedFactors (i : ℕ) (ts : List (Trial R)) : List (Mat3 R) :=
  (ts.filter fun t => decide (t.number = i) && t.update.accepted).map factor

/-- The number of accepted trials. -/
def acceptedCount (ts : List (Trial R)) : ℕ := ts.countP fun t => t.update.accepted

theorem of_eq [WordSource G] {pool : Pool R} {g g' : G} {factor : Mat3 R}
    (h : pool.choose g = .ok factor g') (iu : ℕ × LinkUpdate R) :
    of pool g iu = .ok ⟨iu.1, factor, iu.2⟩ := by
  rw [of, h]

@[simp] theorem acceptedFactors_nil (i : ℕ) : acceptedFactors i ([] : List (Trial R)) = [] := rfl

theorem acceptedFactors_append (i : ℕ) (ts us : List (Trial R)) :
    acceptedFactors i (ts ++ us) = acceptedFactors i ts ++ acceptedFactors i us := by
  simp only [acceptedFactors, List.filter_append, List.map_append]

theorem acceptedFactors_of_not_mem {i : ℕ} {ts : List (Trial R)} (h : i ∉ ts.map number) :
    acceptedFactors i ts = [] := by
  rw [acceptedFactors, List.map_eq_nil_iff, List.filter_eq_nil_iff]
  intro t ht hti
  rw [Bool.and_eq_true, decide_eq_true_eq] at hti
  exact h (List.mem_map.2 ⟨t, ht, hti.1⟩)

/-- Among trials for different links at most one is for the link of a given trial. -/
theorem acceptedFactors_of_mem {ts : List (Trial R)} (hnodup : (ts.map number).Nodup) {t : Trial R}
    (ht : t ∈ ts) :
    acceptedFactors t.number ts = if t.update.accepted then [t.factor] else [] := by
  induction ts with
  | nil => simp at ht
  | cons u ts ih =>
      rw [List.map_cons, List.nodup_cons] at hnodup
      have hsplit := acceptedFactors_append t.number [u] ts
      rw [List.singleton_append] at hsplit
      rcases List.mem_cons.1 ht with rfl | ht
      · rw [hsplit, acceptedFactors_of_not_mem hnodup.1, List.append_nil, acceptedFactors]
        cases haccepted : t.update.accepted with
        | false => simp [haccepted]
        | true => simp [haccepted]
      · have hne : t.number ≠ u.number := fun heq =>
          hnodup.1 (heq ▸ List.mem_map.2 ⟨t, ht, rfl⟩)
        have hother : t.number ∉ [u].map number := by simpa using hne
        rw [hsplit, acceptedFactors_of_not_mem hother, List.nil_append, ih hnodup.2 ht]

theorem acceptedCount_cons (t : Trial R) (ts : List (Trial R)) :
    acceptedCount (t :: ts) = acceptedCount [t] + acceptedCount ts := by
  simp only [acceptedCount, List.countP_cons, List.countP_nil]
  omega

theorem acceptedCount_le (ts : List (Trial R)) : acceptedCount ts ≤ ts.length :=
  List.countP_le_length

end Trial

/-! ### Multiplied fields -/

section

variable [Zero R] [One R] [Add R] [Sub R] [Mul R]

/-- Every matrix of the second field is that of the first one times the factors of the accepted
trials for its link, multiplied from the left to the right. -/
def LinkField.Multiplied (f f' : LinkField R) (ts : List (Trial R)) : Prop :=
  ∀ i, f'.data[i]? = f.data[i]?.map fun m => (Trial.acceptedFactors i ts).foldl (· * ·) m

namespace LinkField.Multiplied

variable {f f' f'' : LinkField R} {ts us : List (Trial R)}

theorem refl (f : LinkField R) : f.Multiplied f [] := by
  intro i
  simp

theorem trans (h : f.Multiplied f' ts) (h' : f'.Multiplied f'' us) :
    f.Multiplied f'' (ts ++ us) := by
  intro i
  rw [h' i, h i, Option.map_map, Trial.acceptedFactors_append]
  refine congrArg (Option.map · f.data[i]?) (funext fun m => ?_)
  rw [Function.comp_apply, List.foldl_append]

/-- A matrix for whose link there is no trial is what it was. -/
theorem of_not_mem (h : f.Multiplied f' ts) {i : ℕ} (hi : i ∉ ts.map Trial.number) :
    f'.data[i]? = f.data[i]? := by
  rw [h i, Trial.acceptedFactors_of_not_mem hi]
  simp

end LinkField.Multiplied

/-- A trial that is not accepted leaves the field as it is. -/
theorem LinkField.multiplied_of_rejected (f : LinkField R) {t : Trial R}
    (h : t.update.accepted = false) : f.Multiplied f [t] := by
  intro i
  simp [Trial.acceptedFactors, h]

/-- A trial that is accepted multiplies the matrix of its link with the factor. -/
theorem LinkField.multiplied_of_accepted {f : LinkField R} {t : Trial R} {old : Mat3 R}
    (h : t.update.accepted = true) (hold : f.data[t.number]? = some old) :
    f.Multiplied ⟨f.data.setIfInBounds t.number (old * t.factor)⟩ [t] := by
  obtain ⟨hlt, rfl⟩ := Array.getElem?_eq_some_iff.1 hold
  intro i
  by_cases hi : t.number = i
  · subst hi
    simp [Trial.acceptedFactors, h, hlt]
  · simp [Trial.acceptedFactors, hi, Array.getElem?_setIfInBounds_ne hi]

/-- Carrying out a trial that was made for the matrix of its link multiplies that matrix with the
factor if the trial was accepted, and does nothing else. -/
theorem multiplied_commit {sn : LatticeState R × ℕ} {t : Trial R} {old : Mat3 R}
    (hold : sn.1.links.data[t.number]? = some old)
    (hproposed : t.update.proposed = old * t.factor) :
    ∃ tn, commit sn (t.number, t.update) = .ok tn ∧ sn.1.SameShape tn.1 ∧
      tn.2 = sn.2 + Trial.acceptedCount [t] ∧ sn.1.links.Multiplied tn.1.links [t] := by
  obtain ⟨hlt, -⟩ := Array.getElem?_eq_some_iff.1 hold
  refine ⟨_, commit_eq_carry hlt, (sameOff_carry sn _).mono fun _ _ => trivial, ?_⟩
  rw [carry]
  cases haccepted : t.update.accepted with
  | false =>
      exact ⟨by simp [Trial.acceptedCount, haccepted], sn.1.links.multiplied_of_rejected haccepted⟩
  | true =>
      rw [if_pos rfl, hproposed]
      exact ⟨by simp [Trial.acceptedCount, haccepted],
        LinkField.multiplied_of_accepted haccepted hold⟩

end

/-! ### Making trials -/

/-- A matrix that is chosen is one of the pool. -/
theorem Pool.mem_of_choose [WordSource G] {pool : Pool R} {g g' : G} {m : Mat3 R}
    (h : pool.choose g = .ok m g') : m ∈ pool.matrices := by
  rw [choose] at h
  obtain ⟨i, g₁, -, h⟩ := Draw.bind_eq_ok_iff.1 h
  cases hi : pool.matrices[i]? with
  | none =>
      simp only [hi] at h
      cases h
  | some m' =>
      simp only [hi] at h
      cases h
      exact Array.mem_of_getElem? hi

variable [Zero R] [One R] [Add R] [Sub R] [Mul R] [Div R] [NatCast R] [Acceptance R]

/-- What is proposed is the matrix of the link times the factor that was chosen. -/
theorem proposal_factor [WordSource G] {pool : Pool R} {old : Mat3 R} {change : Mat3 R → R}
    {g g' : G} {u : LinkUpdate R} (h : proposal pool old change g = .ok u g') :
    ∃ factor g₁, pool.choose g = .ok factor g₁ ∧ u.proposed = old * factor := by
  rw [proposal] at h
  obtain ⟨factor, g₁, hfactor, h⟩ := Draw.bind_eq_ok_iff.1 h
  obtain ⟨decided, g₂, -, h⟩ := Draw.bind_eq_ok_iff.1 h
  rw [Draw.pure_apply, EStateM.Result.ok.injEq] at h
  exact ⟨factor, g₁, hfactor, by rw [← h.1]⟩

variable [Neg R] {n : ℕ} [NeZero n] {s : LatticeState R} {pool : Pool R}

/-- With any number of points a proposal is made from the matrix of the link and the change of the
action. -/
theorem propose_eq_proposal [WordSource G] (h : s.links.Fills s.lattice n) {p : Point} {μ : Fin 4}
    (hp : p.Clear μ) :
    (propose pool s ⟨p, .along μ⟩ : Draw G (LinkUpdate R)) =
      proposal pool (s.links.configuration n (p.site n) μ)
        (s.changeAt (p.site n) μ (s.links.configuration n (p.site n) μ)) := by
  rw [propose, h.link_eq, Draw.checked_ok_bind]
  simp only [LatticeState.actionChange_eq h hp, Draw.checked_ok_bind]
  rfl

/-- A proposal for a link is a trial, unless no attempt to choose a factor was accepted. -/
theorem propose_trial [WordSource G] (hG : Endless G) (h : s.links.Fills s.lattice n)
    (hpool : 0 < pool.matrices.size) {p : Point} (hp : p.Inner) (μ : Fin 4) (g : G) :
    (∃ (t : Trial R) (g' : G), propose pool s ⟨p, .along μ⟩ g = .ok t.update g' ∧
        t.number = (p.site n).linkNumber μ ∧ (∃ g₁, pool.choose g = .ok t.factor g₁) ∧
        t.update.proposed = s.links.configuration n (p.site n) μ * t.factor) ∨
      (∃ g', propose pool s ⟨p, .along μ⟩ g = .error .unsettled g') ∧
        ¬ Draw.Settles pool.choose g := by
  rw [propose_eq_proposal h (hp.clear μ)]
  refine (proposal_cases hG hpool _ _ g).imp_left ?_
  rintro ⟨u, g', hu⟩
  obtain ⟨factor, g₁, hfactor, hproposed⟩ := proposal_factor hu
  exact ⟨⟨(p.site n).linkNumber μ, factor, u⟩, g', hu, rfl, ⟨g₁, hfactor⟩, hproposed⟩

/-- Evaluating a link in a sweep makes a trial with the generator of the link, unless no attempt to
choose a factor was accepted. -/
theorem evaluate_trial (h : s.links.Fills s.lattice n) (hpool : 0 < pool.matrices.size)
    (seed : UInt64) (x : Site n) (μ : Fin 4) :
    (∃ t : Trial R, evaluate pool seed s ⟨x.point, .along μ⟩ = .ok (t.number, t.update) ∧
        t.number = x.linkNumber μ ∧
        (∃ g, pool.choose (linkSource seed t.number) = .ok t.factor g) ∧
        t.update.proposed = s.links.configuration n x μ * t.factor) ∨
      evaluate pool seed s ⟨x.point, .along μ⟩ = .error .unsettled ∧
        ¬ Draw.Settles pool.choose (linkSource seed (x.linkNumber μ)) := by
  have hlt := h.numbered.lt_65536
  have hsite := Site.site_point (n := n) (by omega) x
  rw [evaluate, h.numbered.linkIndex_eq, Checked.ok_bind, hsite]
  have hcases := propose_trial Xoshiro.endless h hpool (Site.point_inner (by omega) x) μ
    (linkSource seed (x.linkNumber μ))
  rw [hsite] at hcases
  rcases hcases with ⟨t, g, ht, hnumber, hfactor, hproposed⟩ | ⟨⟨g, hg⟩, hsettles⟩
  · exact Or.inl ⟨t, by rw [ht, hnumber]; rfl, hnumber, hnumber ▸ hfactor, hproposed⟩
  · exact Or.inr ⟨by rw [hg], hsettles⟩

end PureGauge
