/-
**Samples of a sound simulation.**

With a source that never stops only two things can keep a sound simulation from making steps: no
attempt to choose a matrix of the pool is accepted, or the number of sweeps is not a word any more.
Otherwise a series of measurements has all its samples, if there is room for them, and each of them
is the average plaquette after a number of steps that is known beforehand.

Main definitions:

* `PureGauge.Simulation.Interrupted` — why so many steps are not made.

Main results:

* `PureGauge.Simulation.Sound.after_cases` — so many steps are made, or it is known why not;
* `PureGauge.Simulation.Sound.series_cases` — the same for a series of measurements.
-/
import PureGauge.Proofs.Simulation.Requests

namespace PureGauge

variable {R G : Type}

/-! ### Steps -/

section

variable [WordSource G] [Zero R] [One R] [Add R] [Sub R] [Mul R] [Neg R] [Div R] [NatCast R]
  [LE R] [DecidableLE R] [RealFunctions R] [Acceptance R]

namespace Simulation

variable {s t : Simulation R G} {m n : ℕ} {fault : Fault}

/-- Why a simulation does not make so many steps: at one of them no attempt to choose a matrix of
the pool is accepted, or the number of sweeps is not a word any more. -/
def Interrupted (s : Simulation R G) (n : ℕ) (fault : Fault) : Prop :=
  (fault = .unsettled ∧ ∃ m < n, ∃ t, s.after m = .ok t ∧ Call.sweep.Starved t.chain) ∨
    fault = .sumTooLarge ∧ 2 ^ 64 ≤ s.sweeps + n

theorem Interrupted.mono (h : s.Interrupted m fault) (hmn : m ≤ n) : s.Interrupted n fault := by
  rcases h with ⟨hfault, k, hk, t, ht⟩ | ⟨hfault, hlarge⟩
  · exact Or.inl ⟨hfault, k, by omega, t, ht⟩
  · exact Or.inr ⟨hfault, by omega⟩

/-- An interruption can be counted from an earlier simulation. -/
theorem Interrupted.of_after (ht : s.after m = .ok t) (h : t.Interrupted n fault) :
    s.Interrupted (m + n) fault := by
  obtain ⟨hsweeps, -⟩ := of_after_eq_ok ht
  rcases h with ⟨hfault, k, hk, u, hu, hstarved⟩ | ⟨hfault, hlarge⟩
  · exact Or.inl ⟨hfault, m + k, by omega, u, (after_of_after ht k).symm.trans hu, hstarved⟩
  · exact Or.inr ⟨hfault, by omega⟩

/-- A step leaves a sound simulation, or it is interrupted. -/
theorem Sound.step_outcome (h : s.Sound 0) (hG : Endless G) :
    (∃ t, s.step = .ok t ∧ t.Sound 0) ∨ ∃ fault, s.step = .error fault ∧ s.Interrupted 1 fault := by
  by_cases hlt : s.sweeps + 1 < 2 ^ 64
  · have hnext : s.Sound (0 + 1) := ⟨h.ready, h.planes_lt, hlt⟩
    rcases hnext.step_cases hG with hstep | ⟨herr, hstarved⟩
    · exact Or.inl hstep
    · exact Or.inr ⟨.unsettled, herr, Or.inl ⟨rfl, 0, Nat.one_pos, s, rfl, hstarved⟩⟩
  · -- the chain may still sweep, but this sweep cannot be counted
    have hcount : Word.add s.sweeps 1 = .error .sumTooLarge := if_neg hlt
    rcases h.call_cases hG (c := .sweep) trivial with ⟨d, hrun, -⟩ | ⟨⟨d, hrun⟩, hstarved⟩
    · obtain ⟨report, hsweep⟩ := Call.run_sweep_eq_ok_iff.1 hrun
      refine Or.inr ⟨.sumTooLarge, ?_, Or.inr ⟨rfl, Nat.le_of_not_lt hlt⟩⟩
      rw [step, hsweep]
      simp only [hcount, Checked.error_bind]
    · have hsweep := Call.run_sweep_eq_error_iff.1 hrun
      refine Or.inr ⟨.unsettled, ?_, Or.inl ⟨rfl, 0, Nat.one_pos, s, rfl, hstarved⟩⟩
      rw [step, hsweep]

/-- So many steps leave a sound simulation, or they are interrupted. -/
theorem Sound.after_cases (h : s.Sound 0) (hG : Endless G) (n : ℕ) :
    (∃ t, s.after n = .ok t ∧ t.Sound 0) ∨
      ∃ fault, s.after n = .error fault ∧ s.Interrupted n fault := by
  induction n generalizing s with
  | zero => exact Or.inl ⟨s, rfl, h⟩
  | succ n ih =>
      rw [after]
      rcases h.step_outcome hG with ⟨t, ht, hsound⟩ | ⟨fault, herr, hfault⟩
      · have hone : s.after 1 = .ok t := by rw [after, ht, Checked.ok_bind, after]
        rw [ht, Checked.ok_bind]
        refine (ih hsound).imp_right ?_
        rintro ⟨fault, herr, hfault⟩
        exact ⟨fault, herr, (hfault.of_after hone).mono (by omega)⟩
      · rw [herr, Checked.error_bind]
        exact Or.inr ⟨fault, rfl, hfault.mono (by omega)⟩

/-! ### Measurements -/

/-- A measurement after so many steps can be made if the steps can. -/
theorem Sound.measured_cases (h : s.Sound 0) (hG : Endless G) (total number steps : ℕ) :
    (∃ t average events, s.measured .blind total number steps = .ok ((average, ()), events) ∧
        s.after steps = .ok t ∧ t.average = .ok average) ∨
      ∃ fault, s.measured .blind total number steps = .error fault ∧ s.Interrupted steps fault := by
  rw [measured]
  rcases h.after_cases hG steps with ⟨t, ht, hsound⟩ | ⟨fault, herr, hfault⟩
  · obtain ⟨average, haverage⟩ := hsound.ready.complete.exists_average hsound.planes_lt
    have haverage : t.average = .ok average := haverage
    rw [ht, Checked.ok_bind, haverage]
    exact Or.inl ⟨t, average, _, rfl, rfl, haverage⟩
  · rw [herr]
    exact Or.inr ⟨fault, rfl, hfault⟩

/-- A series of measurements is made if there is room for it and its steps can be made. -/
theorem Sound.series_cases (h : s.Sound 0) (hG : Endless G) (steps : ℕ) :
    (∃ found, s.series .blind steps = .ok found ∧ found.length = s.measurements ∧
        ∀ k (hk : k < found.length), ∃ t, s.after (steps + (k + 1) * s.spacing) = .ok t ∧
          t.average = .ok found[k].1.1) ∨
      ∃ fault, s.series .blind steps = .error fault ∧
        (fault = .storageTooLarge ∧ ¬ Storage.Fits Storage.wordBytes s.measurements ∨
          s.Interrupted (steps + s.measurements * s.spacing) fault) := by
  rw [series]
  by_cases hroom : Storage.Fits Storage.wordBytes s.measurements
  · rw [Storage.room_eq_ok_iff.2 hroom, Checked.ok_bind]
    cases hloop : (List.range s.measurements).mapM fun k =>
        s.measured .blind s.measurements k (steps + (k + 1) * s.spacing) with
    | ok found =>
        have hall := Checked.forall₂_of_mapM_eq_ok hloop
        have hlength := hall.length_eq
        rw [List.length_range] at hlength
        refine Or.inl ⟨found, rfl, hlength.symm, fun k hk => ?_⟩
        have hmeasured := hall.get (i := k) (by rw [List.length_range]; omega) hk
        rw [List.get_eq_getElem, List.getElem_range, List.get_eq_getElem] at hmeasured
        rcases h.measured_cases hG s.measurements k (steps + (k + 1) * s.spacing) with
          ⟨t, average, events, hok, ht, haverage⟩ | ⟨fault, herr, -⟩
        · rw [hok, Except.ok.injEq] at hmeasured
          exact ⟨t, ht, by rw [haverage, ← hmeasured]⟩
        · rw [herr] at hmeasured
          cases hmeasured
    | error fault =>
        obtain ⟨k, hk, herr⟩ := Checked.mapM_eq_error hloop
        rw [List.mem_range] at hk
        have hle : (k + 1) * s.spacing ≤ s.measurements * s.spacing := Nat.mul_le_mul_right _ hk
        rcases h.measured_cases hG s.measurements k (steps + (k + 1) * s.spacing) with
          ⟨t, average, events, hok, -⟩ | ⟨fault', herr', hfault⟩
        · rw [hok] at herr
          cases herr
        · rw [herr', Except.error.injEq] at herr
          exact Or.inr ⟨fault, rfl, Or.inr (herr ▸ hfault.mono (by omega))⟩
  · rw [Storage.room, if_neg hroom]
    exact Or.inr ⟨.storageTooLarge, rfl, Or.inl ⟨rfl, hroom⟩⟩

end Simulation

end

end PureGauge
