/-
**Fair orders, and workers that act in turn.**

A worker that has not stopped alternates between taking a job and running it, so the number of its
actions tells how many jobs it has taken.  It cannot have taken more jobs than there are, and so an
order in which every worker acts often enough is complete.  The rounds in which the workers act in
turn are such an order, and the answer that they yield is one of those of which the laws of complete
orders speak.

Main definitions:

* `PureGauge.WorkerPool.Turns` — the number of the actions of a worker that has not stopped.

Main results:

* `PureGauge.WorkerPool.complete_of_fair` — an order in which every worker acts often enough is
  complete;
* `PureGauge.runJobs_eq_answer` — the answer of several workers is that of a complete order.
-/
import PureGauge.Proofs.WorkerPool.Answers

namespace PureGauge

variable {D α : Type}

namespace WorkerPool

variable {jobs workers : ℕ} {job : Job D α} {init : ℕ → D} {order : List ℕ} {taken : List (ℕ × ℕ)}
  {p : WorkerPool D α}

/-! ### Turns -/

/-- A worker that is free has acted twice for each job it has taken, and one that is at work has
still to run the last of them. -/
def Turns (order : List ℕ) (taken : List (ℕ × ℕ)) (p : WorkerPool D α) : Prop :=
  ∀ (w : ℕ) (worker : Worker D α), p.workers[w]? = some worker →
    match worker with
    | .free _ _ => order.count w = 2 * (share w taken).length
    | .busy _ _ _ => order.count w + 1 = 2 * (share w taken).length
    | .finished _ | .panicked _ => True

theorem turns_start (init : ℕ → D) (workers : ℕ) :
    Turns [] [] (start init workers : WorkerPool D α) := by
  intro w worker hw
  rw [start, List.getElem?_map, Option.map_eq_some_iff] at hw
  obtain ⟨v, -, rfl⟩ := hw
  rfl

/-- The turns of the workers that do not act. -/
theorem Turns.set (h : Turns order taken p) {w : ℕ} {new : Worker D α} {ts : List (ℕ × ℕ)}
    {next : ℕ} (hts : ∀ t ∈ ts, t.1 = w)
    (hnew : match new with
      | .free _ _ => order.count w + 1 = 2 * (share w taken ++ share w ts).length
      | .busy _ _ _ => order.count w + 1 + 1 = 2 * (share w taken ++ share w ts).length
      | .finished _ | .panicked _ => True) :
    Turns (order ++ [w]) (taken ++ ts) ⟨next, p.workers.set w new⟩ := by
  intro v worker hv
  rw [share_append, List.count_append]
  by_cases hvw : v = w
  · subst hvw
    have hlt : v < p.workers.length := by
      obtain ⟨hlt, -⟩ := List.getElem?_eq_some_iff.1 hv
      rwa [List.length_set] at hlt
    rw [List.getElem?_set_self hlt, Option.some.injEq] at hv
    rw [← hv, List.count_singleton_self]
    exact hnew
  · rw [List.getElem?_set_ne (Ne.symm hvw)] at hv
    have hcount : [w].count v = 0 := List.count_eq_zero.2 (by simpa using hvw)
    rw [share_of_ne fun t ht => (hts t ht).trans_ne (Ne.symm hvw), hcount, List.append_nil,
      Nat.add_zero]
    exact h v worker hv

/-- An action of a worker is one of its turns. -/
theorem Turns.step (h : Turns order taken p) (jobs : ℕ) (job : Job D α) (w : ℕ) :
    Turns (order ++ [w]) (taken ++ (taken? jobs p w).toList) (p.step jobs job w) := by
  rcases step_cases jobs job p w with ⟨e, noted, hw, hnext, hstep, htaken, -⟩ |
    ⟨e, noted, hw, hnext, hstep, htaken, -⟩ | ⟨i, e, noted, a, e', hw, hjob, hstep, htaken, -⟩ |
    ⟨i, e, noted, fault, hw, hjob, hstep, htaken, -⟩ | ⟨hstopped, hstep, htaken, -⟩
  · have hcount : order.count w = 2 * (share w taken).length := h w _ hw
    rw [hstep, htaken, Option.toList_some]
    refine h.set (by simp) ?_
    rw [share_singleton, List.length_append, List.length_singleton]
    omega
  · rw [hstep, htaken]
    exact h.set (by simp) trivial
  · have hcount : order.count w + 1 = 2 * (share w taken).length := h w _ hw
    rw [hstep, htaken, Option.toList_none]
    refine h.set (by simp) ?_
    rwa [share_nil, List.append_nil]
  · rw [hstep, htaken]
    exact h.set (by simp) trivial
  · -- a worker that has stopped may act any number of times
    rw [hstep, htaken, Option.toList_none, List.append_nil]
    intro v worker hv
    by_cases hvw : v = w
    · subst hvw
      have hv' := hstopped worker hv
      cases worker with
      | free e noted => cases hv'
      | busy i e noted => cases hv'
      | finished noted => trivial
      | panicked payload => trivial
    · have hcount : [w].count v = 0 := List.count_eq_zero.2 (by simpa using hvw)
      rw [List.count_append, hcount, Nat.add_zero]
      exact h v worker hv

theorem Turns.run {done : List ℕ} (h : Turns done taken p) (jobs : ℕ) (job : Job D α)
    (order : List ℕ) :
    Turns (done ++ order) (taken ++ takings jobs job order p) (p.run jobs job order) := by
  induction order generalizing done taken p with
  | nil => simpa [takings, log, WorkerPool.run] using h
  | cons w order ih =>
      have hrest := ih (h.step jobs job w)
      rw [List.append_assoc, List.append_assoc] at hrest
      exact hrest

/-! ### Fair orders -/

/-- **An order in which every worker acts more than twice as often as there are jobs is
complete.** -/
theorem complete_of_fair (jobs : ℕ) (job : Job D α) (init : ℕ → D) (order : List ℕ)
    (h : ∀ w < workers, 2 * jobs < order.count w) :
    ((start init workers).run jobs job order).complete = true := by
  have htracked := (tracked_start jobs job init workers).run order
  have hturns := (turns_start init workers).run jobs job order
  rw [List.nil_append, List.nil_append] at hturns
  refine List.all_eq_true.2 fun worker hworker => ?_
  obtain ⟨w, hw⟩ := List.getElem?_of_mem hworker
  have hlt : w < workers := by
    obtain ⟨hlt, -⟩ := List.getElem?_eq_some_iff.1 hw
    rwa [htracked.length_eq] at hlt
  -- nobody can have taken more jobs than there are
  have hshare : (share w (takings jobs job order (start init workers))).length ≤ jobs := by
    have hsublist := (htracked.share_sublist w).length_le
    rw [List.length_range, List.nil_append] at hsublist
    exact hsublist.trans htracked.next_le
  have hoften := h w hlt
  have hworkerTurns := hturns w worker hw
  cases worker with
  | free e noted =>
      have hcount : order.count w =
          2 * (share w (takings jobs job order (start init workers))).length :=
        hworkerTurns
      omega
  | busy i e noted =>
      have hcount :
          order.count w + 1 = 2 * (share w (takings jobs job order (start init workers))).length :=
        hworkerTurns
      omega
  | finished noted => rfl
  | panicked payload => rfl

/-! ### Workers that act in turn -/

theorem run_append (jobs : ℕ) (job : Job D α) (first second : List ℕ) (p : WorkerPool D α) :
    p.run jobs job (first ++ second) = (p.run jobs job first).run jobs job second :=
  List.foldl_append ..

theorem length_run (jobs : ℕ) (job : Job D α) (order : List ℕ) (p : WorkerPool D α) :
    (p.run jobs job order).workers.length = p.workers.length := by
  induction order generalizing p with
  | nil => rfl
  | cons w order ih =>
      refine (ih (p.step jobs job w)).trans ?_
      rcases step_cases jobs job p w with ⟨e, noted, -, -, hstep, -⟩ | ⟨e, noted, -, -, hstep, -⟩ |
        ⟨i, e, noted, a, e', -, -, hstep, -⟩ | ⟨i, e, noted, fault, -, -, hstep, -⟩ | ⟨-, hstep, -⟩
      all_goals simp only [hstep, List.length_set]

/-- Rounds are an order of actions: either it is complete, or every worker has acted once in each
round. -/
theorem rounds_eq_run (jobs : ℕ) (job : Job D α) (n : ℕ) (p : WorkerPool D α) :
    ∃ order, p.rounds jobs job n = p.run jobs job order ∧
      ((p.run jobs job order).complete = true ∨ ∀ w < p.workers.length, order.count w = n) := by
  induction n generalizing p with
  | zero => exact ⟨[], rfl, Or.inr fun w _ => rfl⟩
  | succ n ih =>
      rw [rounds]
      by_cases hcomplete : p.complete = true
      · exact ⟨[], if_pos hcomplete, Or.inl hcomplete⟩
      · obtain ⟨order, hrounds, hend⟩ := ih (p.run jobs job (List.range p.workers.length))
        rw [length_run] at hend
        refine ⟨List.range p.workers.length ++ order, ?_, ?_⟩
        · rw [if_neg hcomplete, hrounds, run_append]
        · rw [run_append]
          refine hend.imp_right fun hcount w hw => ?_
          have honce : (List.range p.workers.length).count w = 1 :=
            List.count_eq_one_of_mem List.nodup_range (List.mem_range.2 hw)
          rw [List.count_append, honce, hcount w hw, Nat.add_comm]

/-- Workers that act in turn come to an end. -/
theorem complete_rounds (jobs : ℕ) (job : Job D α) (init : ℕ → D) (workers : ℕ) {n : ℕ}
    (hn : 2 * jobs < n) :
    ∃ order, (start init workers).rounds jobs job n = (start init workers).run jobs job order ∧
      ((start init workers).run jobs job order).complete = true := by
  obtain ⟨order, hrounds, hcomplete | hcount⟩ := rounds_eq_run jobs job n (start init workers)
  · exact ⟨order, hrounds, hcomplete⟩
  · refine ⟨order, hrounds, complete_of_fair jobs job init order fun w hw => ?_⟩
    rwa [hcount w (by rwa [start, List.length_map, List.length_range])]

end WorkerPool

/-- **The answer of several workers is that of a complete order**, if there is room for the
results. -/
theorem runJobs_eq_answer {bytes jobs workers : ℕ} (job : Job D α) (init : ℕ → D)
    (hworkers : 2 ≤ workers) (hhandles : Storage.room WorkerPool.workerBytes workers = .ok ())
    (hresults : Storage.room (bytes + Storage.wordBytes) jobs = .ok ()) :
    ∃ order, ((WorkerPool.start init workers).run jobs job order).complete = true ∧
      runJobs bytes jobs job init workers =
        .ok (WorkerPool.answer jobs
          ((WorkerPool.start init workers).run jobs job order).workers) := by
  obtain ⟨order, hrounds, hcomplete⟩ :=
    WorkerPool.complete_rounds jobs job init workers (n := 2 * jobs + 2) (by omega)
  refine ⟨order, hcomplete, ?_⟩
  rw [runJobs, if_neg (by omega), if_neg (by omega), hhandles, Checked.ok_bind, hresults,
    Checked.ok_bind, hrounds]
  rfl

end PureGauge
