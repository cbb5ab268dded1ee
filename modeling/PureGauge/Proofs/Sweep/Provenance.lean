/-
**Where the matrices come from in a sweep.**

A sweep makes one trial for each link.  Since no link is visited twice, a trial is made for the
matrix that the link had at the beginning of the sweep, and since a trial writes at most to its own
link, the sweep leaves that matrix or its product with the factor of the one trial.  This holds for
the execution that carries out each proposal before it evaluates the next one, and the two
executions evaluate the same updates.

Main definitions:

* `PureGauge.Trial.Account` — what a part of a sweep has evaluated and what it has done.

Main results:

* `PureGauge.tracedSweep_sequential` — all phases are gone through like a single one;
* `PureGauge.account_sequentialTraced` — the account of a list of links, each visited once;
* `PureGauge.LatticeState.Complete.account_sweep` — the account of a whole sweep.
-/
import PureGauge.Proofs.Sweep.Coverage
import PureGauge.Proofs.Sweep.Trials

namespace PureGauge

variable {R : Type} [Zero R] [One R] [Add R] [Sub R] [Mul R] [Neg R] [Div R] [NatCast R]
  [Acceptance R] {pool : Pool R} {seed : UInt64} {s : LatticeState R}

/-! ### All phases as one -/

theorem sequentialTraced_append {sn : LatticeState R × ℕ} (ks js : List Link) :
    sequentialTraced pool seed sn (ks ++ js) = (do
      let first ← sequentialTraced pool seed sn ks
      let second ← sequentialTraced pool seed first.1 js
      return (second.1, first.2 ++ second.2)) := by
  induction ks generalizing sn with
  | nil =>
      rw [List.nil_append, sequentialTraced, Checked.pure_eq, Checked.ok_bind]
      cases sequentialTraced pool seed sn js with
      | error fault => rfl
      | ok second => rfl
  | cons k ks ih =>
      rw [List.cons_append, sequentialTraced, sequentialTraced]
      cases evaluate pool seed sn.1 k with
      | error fault => rfl
      | ok iu =>
          rw [Checked.ok_bind, Checked.ok_bind]
          cases commit sn iu with
          | error fault => rfl
          | ok tn =>
              rw [Checked.ok_bind, Checked.ok_bind, ih]
              cases sequentialTraced pool seed tn ks with
              | error fault => rfl
              | ok first =>
                  rw [Checked.ok_bind, Checked.ok_bind]
                  cases hjs : sequentialTraced pool seed first.1 js with
                  | error fault =>
                      simp only [hjs, Checked.error_bind, Checked.pure_eq, Checked.ok_bind]
                  | ok second => simp only [hjs, Checked.pure_eq, Checked.ok_bind, List.cons_append]

/-- Phases that are carried out link by link are gone through like a single one. -/
theorem foldlM_sequentialTraced (phases : List (List Link))
    (c : (LatticeState R × ℕ) × List (ℕ × LinkUpdate R)) :
    phases.foldlM (fun c phase => do
        let traced ← tracedPhase pool seed .sequential c.1 phase
        return (traced.1, c.2 ++ traced.2)) c = (do
      let traced ← sequentialTraced pool seed c.1 phases.flatten
      return (traced.1, c.2 ++ traced.2)) := by
  induction phases generalizing c with
  | nil => simp [sequentialTraced]
  | cons phase phases ih =>
      rw [List.foldlM_cons, List.flatten_cons, sequentialTraced_append, tracedPhase]
      cases sequentialTraced pool seed c.1 phase with
      | error fault => rfl
      | ok first =>
          rw [Checked.ok_bind, Checked.ok_bind, Checked.pure_eq, Checked.ok_bind, ih]
          cases sequentialTraced pool seed first.1 phases.flatten with
          | error fault => rfl
          | ok second => simp [List.append_assoc]

/-- A sweep that carries out each proposal before the next one is evaluated goes through its phases
as if they were a single one. -/
theorem tracedSweep_sequential {n : ℕ} [NeZero n] (h : s.lattice.Numbered n) :
    tracedSweep pool .sequential seed s =
      sequentialTraced pool seed (s, 0) (Lattice.phaseList n).flatten := by
  have hallowed : s.lattice.allowed .sequential = .sequential := by
    rw [Lattice.allowed, ite_self]
  rw [tracedSweep, h.phases_eq, Checked.ok_bind, hallowed, foldlM_sequentialTraced]
  change (do
    let traced ← sequentialTraced pool seed (s, 0) (Lattice.phaseList n).flatten
    return (traced.1, [] ++ traced.2)) = _
  cases sequentialTraced pool seed (s, 0) (Lattice.phaseList n).flatten with
  | error fault => rfl
  | ok traced => rfl

/-! ### Accounts -/

/-- What a part of a sweep has done: `us` are the updates it has evaluated and `ts` the trials that
they were, each made for the matrix that its link had at the beginning, and the fields differ by the
factors of the accepted ones. -/
structure Trial.Account (pool : Pool R) (seed : UInt64) (sn tn : LatticeState R × ℕ)
    (us : List (ℕ × LinkUpdate R)) (ts : List (Trial R)) : Prop where
  trials_eq : us.mapM (fun iu => Trial.of pool (linkSource seed iu.1) iu) = .ok ts
  sameShape : sn.1.SameShape tn.1
  accepted_eq : tn.2 = sn.2 + Trial.acceptedCount ts
  multiplied : sn.1.links.Multiplied tn.1.links ts
  chosen : ∀ t ∈ ts, ∃ g, pool.choose (linkSource seed t.number) = .ok t.factor g
  proposed : ∀ t ∈ ts, ∃ old, sn.1.links.data[t.number]? = some old ∧
    t.update.proposed = old * t.factor

namespace Trial.Account

variable {sn tn un : LatticeState R × ℕ} {us : List (ℕ × LinkUpdate R)} {ts : List (Trial R)}

omit [Neg R] [Div R] [NatCast R] [Acceptance R] in
theorem nil (sn : LatticeState R × ℕ) : Account pool seed sn sn [] [] where
  trials_eq := rfl
  sameShape := .refl sn.1
  accepted_eq := rfl
  multiplied := .refl sn.1.links
  chosen := fun t ht => by simp at ht
  proposed := fun t ht => by simp at ht

omit [Neg R] [Div R] [NatCast R] [Acceptance R] in
/-- A trial that is carried out before the others, for a link for which there is no other one. -/
theorem cons {t : Trial R} {g : Xoshiro} {old : Mat3 R}
    (hchosen : pool.choose (linkSource seed t.number) = .ok t.factor g)
    (hold : sn.1.links.data[t.number]? = some old) (hproposed : t.update.proposed = old * t.factor)
    (hshape : sn.1.SameShape tn.1) (haccepted : tn.2 = sn.2 + acceptedCount [t])
    (hmultiplied : sn.1.links.Multiplied tn.1.links [t]) (h : Account pool seed tn un us ts)
    (hnumber : t.number ∉ ts.map number) :
    Account pool seed sn un ((t.number, t.update) :: us) (t :: ts) where
  trials_eq := by
    have hof : of pool (linkSource seed t.number) (t.number, t.update) = .ok t := of_eq hchosen _
    rw [List.mapM_cons, hof, Checked.ok_bind, h.trials_eq, Checked.ok_bind, Checked.pure_eq]
  sameShape := hshape.trans h.sameShape
  accepted_eq := by
    rw [h.accepted_eq, haccepted, acceptedCount_cons t ts, Nat.add_assoc]
  multiplied := hmultiplied.trans h.multiplied
  chosen := by
    intro u hu
    rcases List.mem_cons.1 hu with rfl | hu
    · exact ⟨g, hchosen⟩
    · exact h.chosen u hu
  proposed := by
    intro u hu
    rcases List.mem_cons.1 hu with rfl | hu
    · exact ⟨old, hold, hproposed⟩
    · -- the trial before has not written to the link of this one
      obtain ⟨old, hold, hproposed⟩ := h.proposed u hu
      have hne : u.number ∉ [t].map number := by
        intro hmem
        rw [List.map_singleton, List.mem_singleton] at hmem
        exact hnumber (hmem ▸ List.mem_map.2 ⟨u, hu, rfl⟩)
      rw [hmultiplied.of_not_mem hne] at hold
      exact ⟨old, hold, hproposed⟩

end Trial.Account

variable {n : ℕ} [NeZero n]

/-- Links that are visited one after the other, each of them once. -/
theorem account_sequentialTraced {sn : LatticeState R × ℕ} (h : sn.1.links.Fills sn.1.lattice n)
    (hpool : 0 < pool.matrices.size) (seed : UInt64) {ks : List Link}
    (hks : ∀ k ∈ ks, ∃ (x : Site n) (μ : Fin 4), k = ⟨x.point, .along μ⟩)
    (hnodup : (ks.map (Link.number n)).Nodup) :
    (∃ traced ts, sequentialTraced pool seed sn ks = .ok traced ∧
        Trial.Account pool seed sn traced.1 traced.2 ts ∧
        ts.map Trial.number = ks.map (Link.number n)) ∨
      sequentialTraced pool seed sn ks = .error .unsettled ∧ ¬ pool.Serves seed (4 * n ^ 4) := by
  induction ks generalizing sn with
  | nil => exact Or.inl ⟨(sn, []), [], rfl, .nil sn, rfl⟩
  | cons k ks ih =>
      obtain ⟨x, μ, rfl⟩ := hks k (by simp)
      have hnumber := Link.number_along h.numbered.periodic.lt x μ
      rw [List.map_cons, List.nodup_cons, hnumber] at hnodup
      rw [sequentialTraced]
      rcases evaluate_trial h hpool seed x μ with ⟨t, ht, htx, ⟨g, hchosen⟩, hproposed⟩ |
        ⟨herr, hsettles⟩
      · have hold : sn.1.links.data[t.number]? = some (sn.1.links.configuration n x μ) := by
          rw [htx]
          exact h.getElem?_eq x μ
        obtain ⟨tn, htn, hshape, haccepted, hmultiplied⟩ := multiplied_commit hold hproposed
        rw [ht, Checked.ok_bind, htn, Checked.ok_bind]
        rcases ih (hshape.fills h) (fun k hk => hks k (by simp [hk])) hnodup.2 with
          ⟨traced, ts, htraced, haccount, hnumbers⟩ | ⟨herr, hserves⟩
        · rw [htraced]
          refine Or.inl ⟨_, t :: ts, rfl, haccount.cons hchosen hold hproposed hshape haccepted
            hmultiplied ?_, ?_⟩
          · rw [hnumbers, htx]
            exact hnodup.1
          · rw [List.map_cons, List.map_cons, hnumbers, htx, hnumber]
        · rw [herr]
          exact Or.inr ⟨rfl, hserves⟩
      · rw [herr]
        exact Or.inr ⟨rfl, fun hserves => hsettles (hserves _ (Site.linkNumber_lt x μ))⟩

omit [NeZero n] in
/-- A sweep in either execution evaluates each link once and leaves what its trials tell, unless for
some link no attempt to choose a factor was accepted. -/
theorem LatticeState.Complete.account_sweep (h : s.Complete) (hpool : 0 < pool.matrices.size)
    (seed : UInt64) (e : Execution) :
    (∃ traced ts, tracedSweep pool e seed s = .ok traced ∧
        Trial.Account pool seed (s, 0) traced.1 traced.2 ts ∧
        (ts.map Trial.number).Perm (List.range (4 * s.lattice.dim.toNat ^ 4))) ∨
      tracedSweep pool e seed s = .error .unsettled ∧
        ¬ pool.Serves seed (4 * s.lattice.dim.toNat ^ 4) := by
  have : NeZero s.lattice.dim.toNat := ⟨h.dim_pos.ne'⟩
  have hperm := Lattice.numbers_flatten_phaseList h.fills.numbered.periodic.lt
  rw [h.tracedSweep_eq hpool seed e .sequential, tracedSweep_sequential h.fills.numbered]
  have hstart : ((s, 0) : LatticeState R × ℕ).1.links.Fills s.lattice s.lattice.dim.toNat := h.fills
  rcases account_sequentialTraced hstart hpool seed
    (fun k hk => Lattice.mem_flatten_phaseList.1 hk) (hperm.nodup_iff.2 List.nodup_range) with
    ⟨traced, ts, htraced, haccount, hnumbers⟩ | hfault
  · exact Or.inl ⟨traced, ts, htraced, haccount, hnumbers ▸ hperm⟩
  · exact Or.inr hfault

end PureGauge
