/-
**Panics of jobs.**

A worker stops in the panic of the first job that panics, and no other worker runs that job again.
So the panics in which the workers have stopped are those of the runs, one by one.  The workers are
joined in order, up to the first that has stopped in a panic.  If there is no other such worker then
this panic is the answer, with the text that it has; but a second panic, which is still to be
joined, puts something in the place of the answer that has no text.

With at least two workers this is not up to the order in which they act, as long as the number of a
job decides whether it panics.  A worker that has not stopped in a panic has seen the counter used
up; so if a single run has panicked then all jobs were run, and only one of them panics.

Main definitions:

* `PureGauge.JobRun.panic?` — the panic of a run;
* `PureGauge.Job.PanicsOn` — jobs whose number decides whether they panic.

Main results:

* `PureGauge.WorkerPool.panics_step`, `PureGauge.WorkerPool.panics_run` — the panics of workers and
  of runs;
* `PureGauge.WorkerPool.answer_of_single_panic`, `PureGauge.WorkerPool.answer_of_panics` — what
  joining the workers yields;
* `PureGauge.WorkerPool.two_le_panics_iff_of_complete` — when two workers have stopped in a panic;
* `PureGauge.WorkerPool.panicMessage_of_complete` — when the text of a panic is kept.
-/
import Mathlib.Algebra.Group.Nat.Defs
import Mathlib.Data.Finset.Card
import Mathlib.Data.Finset.Range
import PureGauge.Proofs.WorkerPool.Answers
import PureGauge.Word

namespace PureGauge

variable {D α : Type}

/-- The panic of a run, if it panics. -/
def JobRun.panic? (job : Job D α) (r : JobRun D) : Option JobPanic :=
  match job r.data r.job with
  | .ok _ => none
  | .error fault => some fault.payload

theorem JobRun.panic?_of_ok {job : Job D α} {r : JobRun D} {done : α × D}
    (h : job r.data r.job = .ok done) :
    r.panic? job = none := by
  rw [panic?, h]

theorem JobRun.panic?_of_error {job : Job D α} {r : JobRun D} {fault : Fault}
    (h : job r.data r.job = .error fault) : r.panic? job = some fault.payload := by
  rw [panic?, h]

theorem JobRun.isSome_panic?_iff (job : Job D α) (r : JobRun D) :
    (r.panic? job).isSome = true ↔ ∃ fault, job r.data r.job = .error fault := by
  cases h : job r.data r.job with
  | ok done => simp [panic?_of_ok h]
  | error fault => simp [panic?_of_error h]

/-- The number of a job decides whether it panics: it does if the number is in the set. -/
def Job.PanicsOn (job : Job D α) (bad : Set ℕ) : Prop :=
  ∀ d i, (∃ fault, job d i = .error fault) ↔ i ∈ bad

namespace WorkerPool

variable {jobs workers : ℕ} {job : Job D α} {init : ℕ → D} {p : WorkerPool D α}

/-! ### Panics of workers and of runs -/

/-- An item that is dropped is replaced: what the other items are mapped to stays. -/
theorem filterMap_set_perm {β γ : Type} (f : β → Option γ) {items : List β} {w : ℕ} {old : β}
    (hold : items[w]? = some old) (hdropped : f old = none) (new : β) :
    ((items.set w new).filterMap f).Perm (items.filterMap f ++ (f new).toList) := by
  induction items generalizing w with
  | nil => simp at hold
  | cons item items ih =>
      cases w with
      | zero =>
          rw [List.getElem?_cons_zero, Option.some.injEq] at hold
          subst hold
          rw [List.set_cons_zero, List.filterMap_cons_none hdropped]
          cases hnew : f new with
          | none => simp [hnew]
          | some payload =>
              rw [List.filterMap_cons_some hnew]
              exact (List.perm_append_singleton payload _).symm
      | succ w =>
          rw [List.getElem?_cons_succ] at hold
          rw [List.set_cons_succ]
          cases hitem : f item with
          | none =>
              rw [List.filterMap_cons_none hitem, List.filterMap_cons_none hitem]
              exact ih hold
          | some payload =>
              rw [List.filterMap_cons_some hitem, List.filterMap_cons_some hitem]
              exact (ih hold).cons payload

/-- A worker stops in a panic when it runs a job that panics. -/
theorem panics_step (jobs : ℕ) (job : Job D α) (p : WorkerPool D α) (w : ℕ) :
    ((p.step jobs job w).workers.filterMap Worker.panic?).Perm
      (p.workers.filterMap Worker.panic? ++ (ran? p w).toList.filterMap (JobRun.panic? job)) := by
  rcases step_cases jobs job p w with ⟨e, noted, hw, -, hstep, -, hran⟩ |
    ⟨e, noted, hw, -, hstep, -, hran⟩ | ⟨i, e, noted, a, e', hw, hjob, hstep, -, hran⟩ |
    ⟨i, e, noted, fault, hw, hjob, hstep, -, hran⟩ | ⟨-, hstep, -, hran⟩
  · rw [hstep, hran]
    exact filterMap_set_perm Worker.panic? hw rfl _
  · rw [hstep, hran]
    exact filterMap_set_perm Worker.panic? hw rfl _
  · have hpanic : JobRun.panic? job ⟨w, i, e⟩ = none := JobRun.panic?_of_ok hjob
    rw [hstep, hran, Option.toList_some, List.filterMap_cons_none hpanic]
    exact filterMap_set_perm Worker.panic? hw rfl _
  · have hpanic : JobRun.panic? job ⟨w, i, e⟩ = some fault.payload := JobRun.panic?_of_error hjob
    rw [hstep, hran, Option.toList_some, List.filterMap_cons_some hpanic]
    exact filterMap_set_perm Worker.panic? hw rfl _
  · rw [hstep, hran]
    simp

/-- The panics in which workers have stopped are those of the runs. -/
theorem panics_run (jobs : ℕ) (job : Job D α) (order : List ℕ) (p : WorkerPool D α) :
    ((p.run jobs job order).workers.filterMap Worker.panic?).Perm
      (p.workers.filterMap Worker.panic? ++
        (runs jobs job order p).filterMap (JobRun.panic? job)) := by
  induction order generalizing p with
  | nil => simp [runs, log, run]
  | cons w order ih =>
      have hstep := (panics_step jobs job p w).append_right
        ((runs jobs job order (p.step jobs job w)).filterMap (JobRun.panic? job))
      rw [List.append_assoc, ← List.filterMap_append] at hstep
      exact (ih (p.step jobs job w)).trans hstep

theorem panics_start (init : ℕ → D) (workers : ℕ) :
    (start init workers : WorkerPool D α).workers.filterMap Worker.panic? = [] := by
  rw [start, List.filterMap_map, List.filterMap_eq_nil_iff]
  intro w _
  rfl

/-! ### Joining the workers -/

/-- Joining comes to the first panic, and the others are behind it. -/
theorem firstPanic_panics (workers : List (Worker D α)) :
    (firstPanic workers = none ∧ workers.filterMap Worker.panic? = []) ∨
      ∃ payload rest, firstPanic workers = some (payload, rest) ∧
        workers.filterMap Worker.panic? = payload :: rest.filterMap Worker.panic? := by
  induction workers with
  | nil => exact Or.inl ⟨rfl, rfl⟩
  | cons worker workers ih =>
      cases hworker : worker.panic? with
      | some payload =>
          refine Or.inr ⟨payload, workers, ?_, List.filterMap_cons_some hworker⟩
          rw [firstPanic, hworker]
      | none =>
          rw [firstPanic, hworker, List.filterMap_cons_none hworker]
          exact ih

/-- There is a panic behind the first one if and only if there are further panics. -/
theorem any_panic_iff (workers : List (Worker D α)) :
    (workers.any fun w => w.panic?.isSome) = true ↔ workers.filterMap Worker.panic? ≠ [] := by
  rw [Ne, List.filterMap_eq_nil_iff, List.any_eq_true]
  push Not
  exact exists_congr fun w => and_congr_right' Option.isSome_iff_ne_none

/-- A single panic is the answer. -/
theorem answer_of_single_panic (jobs : ℕ) {workers : List (Worker D α)} {payload : JobPanic}
    (h : workers.filterMap Worker.panic? = [payload]) :
    answer jobs workers = .error (.panic payload) := by
  rcases firstPanic_panics workers with ⟨-, hnil⟩ | ⟨first, rest, hfirst, hcons⟩
  · rw [h] at hnil
    cases hnil
  · rw [h, List.cons.injEq] at hcons
    obtain ⟨rfl, hrest⟩ := hcons
    have hany : ¬ (rest.any fun w => w.panic?.isSome) = true :=
      fun hany => (any_panic_iff rest).1 hany hrest.symm
    rw [answer, hfirst]
    simp only [if_neg hany]

/-- Several panics leave an answer without a text. -/
theorem answer_of_panics (jobs : ℕ) {workers : List (Worker D α)}
    (h : 2 ≤ (workers.filterMap Worker.panic?).length) :
    answer jobs workers = .error (.panic .wordless) := by
  rcases firstPanic_panics workers with ⟨-, hnil⟩ | ⟨first, rest, hfirst, hcons⟩
  · rw [hnil] at h
    cases h
  · have hrest : rest.filterMap Worker.panic? ≠ [] := by
      intro hrest
      rw [hcons, hrest, List.length_singleton] at h
      omega
    rw [answer, hfirst]
    simp only [if_pos ((any_panic_iff rest).2 hrest)]

/-! ### Complete orders -/

/-- If no worker acts any more and one of them has not stopped in a panic, then the counter is used
up. -/
theorem Tracked.next_eq {taken : List (ℕ × ℕ)} {ran : List (JobRun D)}
    (h : Tracked jobs job init workers taken ran p) (hcomplete : p.complete = true)
    (hlt : (p.workers.filterMap Worker.panic?).length < workers) : p.next = jobs := by
  by_contra hnext
  have hall : ∀ worker ∈ p.workers, worker.panic?.isSome = true := by
    intro worker hworker
    have hstopped := List.all_eq_true.1 hcomplete worker hworker
    cases worker with
    | free e noted => cases hstopped
    | busy i e noted => cases hstopped
    | finished noted => exact absurd (h.used_up noted hworker) hnext
    | panicked payload => rfl
  have hlength : (p.workers.filterMap Worker.panic?).length = p.workers.length := by
    rw [List.length_filterMap_eq_countP]
    exact List.countP_eq_length.2 hall
  rw [hlength, h.length_eq] at hlt
  exact lt_irrefl _ hlt

/-- When no worker acts any more, two runs have panicked if and only if two of the jobs that were
taken panic. -/
theorem Tracked.two_le_panics_iff {taken : List (ℕ × ℕ)} {ran : List (JobRun D)} {bad : Set ℕ}
    (h : Tracked jobs job init workers taken ran p) (hcomplete : p.complete = true)
    (hbad : job.PanicsOn bad) :
    2 ≤ (ran.filterMap (JobRun.panic? job)).length ↔
      ∃ i j, i ≠ j ∧ i < p.next ∧ j < p.next ∧ i ∈ bad ∧ j ∈ bad := by
  classical
  have hcount : (ran.filterMap (JobRun.panic? job)).length =
      ((Finset.range p.next).filter fun i => i ∈ bad).card := by
    calc
      _ = ran.countP fun r => decide (r.job ∈ bad) := by
        rw [List.length_filterMap_eq_countP]
        refine List.countP_congr fun r _ => ?_
        rw [JobRun.isSome_panic?_iff, hbad r.data r.job, decide_eq_true_iff]
      _ = (ran.map JobRun.job).countP fun i => decide (i ∈ bad) := by
        rw [List.countP_map]
        rfl
      _ = (List.range p.next).countP fun i => decide (i ∈ bad) :=
        (h.perm_jobs hcomplete).countP_eq _
      _ = _ := List.countP_eq_length_filter
  rw [hcount, Nat.succ_le_iff, Finset.one_lt_card_iff]
  simp only [Finset.mem_filter, Finset.mem_range]
  constructor
  · rintro ⟨i, j, ⟨hi, hibad⟩, ⟨hj, hjbad⟩, hij⟩
    exact ⟨i, j, hij, hi, hj, hibad, hjbad⟩
  · rintro ⟨i, j, hij, hi, hj, hibad, hjbad⟩
    exact ⟨i, j, ⟨hi, hibad⟩, ⟨hj, hjbad⟩, hij⟩

/-- With two or more workers and none that acts any more, two workers have stopped in a panic if and
only if two of all the jobs panic. -/
theorem two_le_panics_iff_of_complete (hworkers : 2 ≤ workers) (order : List ℕ)
    (hcomplete : ((start init workers).run jobs job order).complete = true) {bad : Set ℕ}
    (hbad : job.PanicsOn bad) :
    2 ≤ (((start init workers).run jobs job order).workers.filterMap Worker.panic?).length ↔
      ∃ i j, i ≠ j ∧ i < jobs ∧ j < jobs ∧ i ∈ bad ∧ j ∈ bad := by
  have h := (tracked_start jobs job init workers).run order
  have hpanics := panics_run jobs job order (start init workers)
  rw [panics_start, List.nil_append] at hpanics
  have htwo := h.two_le_panics_iff hcomplete hbad
  rw [List.nil_append, ← hpanics.length_eq] at htwo
  constructor
  · intro hlength
    obtain ⟨i, j, hij, hi, hj, hibad, hjbad⟩ := htwo.1 hlength
    exact ⟨i, j, hij, hi.trans_le h.next_le, hj.trans_le h.next_le, hibad, hjbad⟩
  · rintro ⟨i, j, hij, hi, hj, hibad, hjbad⟩
    by_contra hlength
    -- a worker without a panic has seen the counter used up
    have hnext := h.next_eq hcomplete ((not_le.1 hlength).trans_le hworkers)
    rw [← hnext] at hi hj
    exact hlength (htwo.2 ⟨i, j, hij, hi, hj, hibad, hjbad⟩)

/-- **The text of a panic is kept if and only if no other job panics.**  Let the number of a job
decide whether it panics, let every panic have a text, and let two or more workers have acted in any
order after which none of them acts any more.  If a job has panicked then the answer is a panic.  If
no other job panics then the answer has the text of this panic.  If two jobs panic then the answer
has no text, whatever the order was. -/
theorem panicMessage_of_complete (jobs : ℕ) (job : Job D α) (init : ℕ → D) (hworkers : 2 ≤ workers)
    (order : List ℕ) (hcomplete : ((start init workers).run jobs job order).complete = true)
    {bad : Set ℕ} (hbad : job.PanicsOn bad)
    (htext : ∀ d i fault, job d i = .error fault → fault.payload ≠ .wordless)
    (hrun : ∃ r ∈ runs jobs job order (start init workers), r.job ∈ bad) :
    ∃ payload,
      answer jobs ((start init workers).run jobs job order).workers = .error (.panic payload) ∧
      ((∃ i j, i ≠ j ∧ i < jobs ∧ j < jobs ∧ i ∈ bad ∧ j ∈ bad) →
        (WorkerError.panic payload).panicMessage? = none ∧
          Explained.message (WorkerError.panic payload) = "a thread panicked") ∧
      ((∀ i j, i < jobs → j < jobs → i ∈ bad → j ∈ bad → i = j) →
        ∃ r ∈ runs jobs job order (start init workers), ∃ fault message,
          job r.data r.job = .error fault ∧ fault.payload = .text message ∧
          (WorkerError.panic payload).panicMessage? = some message ∧
          Explained.message (WorkerError.panic payload) =
            "a thread panicked with message: " ++ message) := by
  have hpanics := panics_run jobs job order (start init workers)
  rw [panics_start, List.nil_append] at hpanics
  have htwo := two_le_panics_iff_of_complete hworkers order hcomplete hbad
  by_cases hlength : 2 ≤
      (((start init workers).run jobs job order).workers.filterMap Worker.panic?).length
  · refine ⟨.wordless, answer_of_panics jobs hlength, fun _ => ⟨rfl, rfl⟩, fun hsingle => ?_⟩
    obtain ⟨i, j, hij, hi, hj, hibad, hjbad⟩ := htwo.1 hlength
    exact absurd (hsingle i j hi hj hibad hjbad) hij
  · obtain ⟨r, hr, hrbad⟩ := hrun
    obtain ⟨fault, hfault⟩ := (hbad r.data r.job).2 hrbad
    have hmem := hpanics.mem_iff.2 (List.mem_filterMap.2 ⟨r, hr, JobRun.panic?_of_error hfault⟩)
    have hone :
        (((start init workers).run jobs job order).workers.filterMap Worker.panic?).length = 1 := by
      have hpos := List.length_pos_of_mem hmem
      omega
    obtain ⟨payload, hpayload⟩ := List.length_eq_one_iff.1 hone
    rw [hpayload, List.mem_singleton] at hmem
    refine ⟨payload, answer_of_single_panic jobs hpayload,
      fun hpair => absurd (htwo.2 hpair) hlength, fun _ => ?_⟩
    cases payload with
    | wordless => exact absurd hmem (htext r.data r.job fault hfault)
    | text message => exact ⟨r, hr, fault, message, hfault, hmem, rfl, rfl⟩

/-- A job that counts what its worker has done and multiplies its number by a factor. -/
def scalingJob (factor : ℕ) : Job ℕ ℕ := fun seen i => do
  return (← Word.mul i factor, seen + 1)

theorem scalingJob_of_large {factor i : ℕ} (h : UInt64.size ≤ i * factor) (seen : ℕ) :
    scalingJob factor seen i = .error .productTooLarge := by
  rw [scalingJob, Word.mul, if_neg (not_lt.2 h)]
  rfl

theorem panicsOn_scalingJob (factor : ℕ) :
    (scalingJob factor).PanicsOn {i | UInt64.size ≤ i * factor} := by
  intro seen i
  constructor
  · rintro ⟨fault, hfault⟩
    by_contra hsmall
    rw [scalingJob, Word.mul, if_pos (not_le.1 hsmall)] at hfault
    cases hfault
  · intro hlarge
    exact ⟨_, scalingJob_of_large hlarge seen⟩

/-- The panics of the job have a text. -/
theorem payload_scalingJob {factor seen i : ℕ} {fault : Fault}
    (h : scalingJob factor seen i = .error fault) :
    fault.payload = .text "attempt to multiply with overflow" := by
  have hlarge : UInt64.size ≤ i * factor := (panicsOn_scalingJob factor seen i).1 ⟨fault, h⟩
  rw [scalingJob_of_large hlarge, Except.error.injEq] at h
  rw [← h]
  rfl

/-- Two workers that act in turn. -/
def inTurn : List ℕ := [0, 1, 0, 1, 0, 1, 0, 1]

/-- Of three jobs only the last one panics, and its text is kept; a fourth job takes it away. -/
theorem panicMessage_scalingJob :
    (∃ payload,
        answer 3 ((start (fun _ => 0) 2).run 3 (scalingJob (2 ^ 63)) inTurn).workers =
          .error (.panic payload) ∧
        (WorkerError.panic payload).panicMessage? = some "attempt to multiply with overflow") ∧
      ∃ payload,
        answer 4 ((start (fun _ => 0) 2).run 4 (scalingJob (2 ^ 63)) inTurn).workers =
          .error (.panic payload) ∧
        (WorkerError.panic payload).panicMessage? = none := by
  have htext : ∀ seen i fault, scalingJob (2 ^ 63) seen i = .error fault →
      fault.payload ≠ .wordless := by
    intro seen i fault hfault
    rw [payload_scalingJob hfault]
    exact JobPanic.noConfusion
  constructor
  · obtain ⟨payload, hanswer, -, hkept⟩ :=
      panicMessage_of_complete 3 (scalingJob (2 ^ 63)) (fun _ => 0) le_rfl inTurn (by decide)
        (panicsOn_scalingJob _) htext ⟨⟨0, 2, 1⟩, by decide, by decide⟩
    have hsingle : ∀ i j, i < 3 → j < 3 → i ∈ {i | UInt64.size ≤ i * 2 ^ 63} →
        j ∈ {i | UInt64.size ≤ i * 2 ^ 63} → i = j := by
      intro i j hi hj hibad hjbad
      simp only [Set.mem_ofPred_eq, UInt64.size] at hibad hjbad
      omega
    obtain ⟨r, -, fault, message, hfault, hmessage, hpanic, -⟩ := hkept hsingle
    rw [payload_scalingJob hfault, JobPanic.text.injEq] at hmessage
    exact ⟨payload, hanswer, hmessage ▸ hpanic⟩
  · obtain ⟨payload, hanswer, hlost, -⟩ :=
      panicMessage_of_complete 4 (scalingJob (2 ^ 63)) (fun _ => 0) le_rfl inTurn (by decide)
        (panicsOn_scalingJob _) htext ⟨⟨0, 2, 1⟩, by decide, by decide⟩
    exact ⟨payload, hanswer,
      (hlost ⟨2, 3, by decide, by decide, by decide, by decide, by decide⟩).1⟩

/-- Every panic of these four jobs has a text, and two of the jobs are run and panic, but the answer
of the two workers has no text. -/
theorem panicMessage_eq_none_of_two :
    ((start (fun _ => 0) 2).run 4 (scalingJob (2 ^ 63)) inTurn).complete = true ∧
      (∀ seen i fault, scalingJob (2 ^ 63) seen i = .error fault →
        fault.payload = .text "attempt to multiply with overflow") ∧
      (∃ r ∈ runs 4 (scalingJob (2 ^ 63)) inTurn (start (fun _ => 0) 2), ∃ fault,
        scalingJob (2 ^ 63) r.data r.job = .error fault) ∧
      ¬ ∃ payload message,
        answer 4 ((start (fun _ => 0) 2).run 4 (scalingJob (2 ^ 63)) inTurn).workers =
          .error (.panic payload) ∧
        (WorkerError.panic payload).panicMessage? = some message := by
  refine ⟨by decide, fun _ _ _ hfault => payload_scalingJob hfault,
    ⟨⟨0, 2, 1⟩, by decide, .productTooLarge, rfl⟩, ?_⟩
  have hanswer : answer 4 ((start (fun _ => 0) 2).run 4 (scalingJob (2 ^ 63)) inTurn).workers =
      .error (.panic .wordless) := by
    decide
  rintro ⟨payload, message, hpayload, hmessage⟩
  rw [hanswer] at hpayload
  cases hpayload
  cases hmessage

end WorkerPool

end PureGauge
