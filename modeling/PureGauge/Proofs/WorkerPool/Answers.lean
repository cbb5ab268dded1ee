/-
**What a pool of workers answers.**

When no worker acts any more, the jobs that were run are those that were taken from the counter,
each of them once.  If none of them panicked then all jobs were taken, and the results stand in the
places of their jobs; otherwise the answer is a panic.  So nothing is lost, done twice or put in
another place, in whichever order the workers have acted.

Main definitions:

* `PureGauge.Job.IgnoresData` — the results of a job do not depend on the data of the worker.

Main results:

* `PureGauge.WorkerPool.collect_cases` — the results that are collected are those that were noted;
* `PureGauge.WorkerPool.Tracked.perm` — what was taken was run;
* `PureGauge.WorkerPool.answer_of_complete` — the answer of every complete order of actions.
-/
import Mathlib.Data.List.Nodup
import Mathlib.Data.List.OfFn
import PureGauge.Proofs.Checked
import PureGauge.Proofs.WorkerPool.Shares

namespace PureGauge

variable {D α : Type}

namespace WorkerPool

/-! ### Collecting the results -/

/-- A result put in the place of its job. -/
def place (slots : Array (Option α)) (noted : ℕ × α) : Array (Option α) :=
  slots.setIfInBounds noted.1 (some noted.2)

theorem collect_eq (jobs : ℕ) (workers : List (Worker D α)) :
    collect jobs workers = List.filterMap id
      ((workers.flatMap Worker.noted).foldl place (Array.replicate jobs none)).toList :=
  rfl

theorem size_foldl_place (noted : List (ℕ × α)) (slots : Array (Option α)) :
    (noted.foldl place slots).size = slots.size := by
  induction noted generalizing slots with
  | nil => rfl
  | cons ia noted ih => rw [List.foldl_cons, ih, place, Array.size_setIfInBounds]

/-- A place holds a result that was noted for it, or else there is none and it is as it was. -/
theorem foldl_place_cases (noted : List (ℕ × α)) (slots : Array (Option α)) {i : ℕ}
    (hi : i < slots.size) :
    (∃ a, (i, a) ∈ noted ∧ (noted.foldl place slots)[i]? = some (some a)) ∨
      i ∉ noted.map Prod.fst ∧ (noted.foldl place slots)[i]? = slots[i]? := by
  induction noted generalizing slots with
  | nil => exact Or.inr ⟨by simp, rfl⟩
  | cons jb noted ih =>
      have hsize : i < (place slots jb).size := by
        rwa [place, Array.size_setIfInBounds]
      rw [List.foldl_cons]
      rcases ih _ hsize with ⟨a, ha, hplace⟩ | ⟨hnot, hplace⟩
      · exact Or.inl ⟨a, List.mem_cons_of_mem _ ha, hplace⟩
      · by_cases hij : jb.1 = i
        · subst hij
          rw [place, Array.getElem?_setIfInBounds_self_of_lt hi] at hplace
          exact Or.inl ⟨jb.2, List.mem_cons_self, hplace⟩
        · rw [place, Array.getElem?_setIfInBounds_ne hij] at hplace
          refine Or.inr ⟨?_, hplace⟩
          rw [List.map_cons, List.mem_cons, not_or]
          exact ⟨Ne.symm hij, hnot⟩

/-- If a result is noted for every job, then as many results are collected as there are jobs, and
each of them was noted for the job in whose place it stands. -/
theorem collect_cases {jobs : ℕ} {workers : List (Worker D α)}
    (h : ∀ i < jobs, i ∈ (workers.flatMap Worker.noted).map Prod.fst) :
    (collect jobs workers).length = jobs ∧
      ∀ i < jobs, ∃ a, (collect jobs workers)[i]? = some a ∧
        (i, a) ∈ workers.flatMap Worker.noted := by
  have hplace : ∀ i : Fin jobs, ∃ a, (i.val, a) ∈ workers.flatMap Worker.noted ∧
      ((workers.flatMap Worker.noted).foldl place (Array.replicate jobs none))[i.val]? =
        some (some a) := by
    intro i
    have hi : i.val < (Array.replicate jobs (none : Option α)).size := by
      rw [Array.size_replicate]
      exact i.isLt
    rcases foldl_place_cases (workers.flatMap Worker.noted) _ hi with hfound | ⟨hnot, -⟩
    · exact hfound
    · exact absurd (h i i.isLt) hnot
  choose result hresult hat using hplace
  have hcollect : collect jobs workers = List.ofFn result := by
    -- no place has stayed empty
    have hfull : ((workers.flatMap Worker.noted).foldl place (Array.replicate jobs none)).toList =
        (List.ofFn result).map some := by
      refine List.ext_getElem ?_ fun i hi _ => ?_
      · rw [Array.length_toList, size_foldl_place, Array.size_replicate, List.length_map,
          List.length_ofFn]
      · rw [Array.length_toList, size_foldl_place, Array.size_replicate] at hi
        have hi' := hat ⟨i, hi⟩
        rw [Array.getElem?_eq_some_iff] at hi'
        obtain ⟨_, hi'⟩ := hi'
        simpa using hi'
    rw [collect_eq, hfull, List.filterMap_map]
    exact List.filterMap_some
  rw [hcollect]
  refine ⟨List.length_ofFn, fun i hi => ⟨result ⟨i, hi⟩, ?_, hresult ⟨i, hi⟩⟩⟩
  simp [hi]

/-! ### Joining the workers -/

/-- The workers are joined without a panic, or with that of one of them, and there may be others
behind it. -/
theorem firstPanic_cases (workers : List (Worker D α)) :
    (firstPanic workers = none ∧ ∀ payload, .panicked payload ∉ workers) ∨
      ∃ payload rest, firstPanic workers = some (payload, rest) ∧ .panicked payload ∈ workers := by
  induction workers with
  | nil => exact Or.inl ⟨rfl, by simp⟩
  | cons worker workers ih =>
      cases worker with
      | panicked payload => exact Or.inr ⟨payload, workers, rfl, List.mem_cons_self⟩
      | _ =>
          rcases ih with ⟨hnone, hnot⟩ | ⟨payload, rest, hsome, hmem⟩
          · exact Or.inl ⟨hnone, by simpa using hnot⟩
          · exact Or.inr ⟨payload, rest, hsome, List.mem_cons_of_mem _ hmem⟩

/-- Without a panic the answer are the results. -/
theorem answer_of_no_panic {jobs : ℕ} {workers : List (Worker D α)}
    (h : ∀ payload, .panicked payload ∉ workers) :
    answer jobs workers = .ok (collect jobs workers) := by
  rcases firstPanic_cases workers with ⟨hnone, -⟩ | ⟨payload, -, -, hmem⟩
  · rw [answer, hnone]
  · exact absurd hmem (h payload)

/-- With a panic the answer is a panic: that of a worker, or one that cannot be read. -/
theorem answer_of_panic (jobs : ℕ) {workers : List (Worker D α)} {payload : JobPanic}
    (h : .panicked payload ∈ workers) :
    ∃ payload, answer jobs workers = .error (.panic payload) ∧
      (payload = .wordless ∨ .panicked payload ∈ workers) := by
  rcases firstPanic_cases workers with ⟨-, hnot⟩ | ⟨payload, rest, hsome, hmem⟩
  · exact absurd h (hnot payload)
  · rw [answer, hsome]
    by_cases hrest : (rest.any fun w => w.panic?.isSome) = true
    · exact ⟨.wordless, by simp only [hrest, if_true], Or.inl rfl⟩
    · exact ⟨payload, by simp only [hrest, if_false, Bool.false_eq_true], Or.inr hmem⟩

/-! ### Complete orders -/

/-- Lists with the same share for every worker are permutations of each other. -/
theorem perm_of_share_eq {taken taken' : List (ℕ × ℕ)} (h : ∀ w, share w taken = share w taken') :
    taken.Perm taken' := by
  have hcount : ∀ (ts : List (ℕ × ℕ)) (t : ℕ × ℕ), ts.count t = (share t.1 ts).count t.2 := by
    intro ts t
    rw [share, List.count, List.count, List.countP_map, List.countP_filter]
    congr 1
    funext u
    simp [Prod.ext_iff, Bool.and_comm, Bool.beq_eq_decide_eq]
  rw [List.perm_iff_count]
  intro t
  rw [hcount, hcount, h]

theorem share_map (w : ℕ) (ran : List (JobRun D)) :
    share w (ran.map fun r => (r.worker, r.job)) = (runsOf w ran).map JobRun.job := by
  rw [share, runsOf, List.filter_map, List.map_map]
  rfl

namespace Tracked

variable {jobs workers : ℕ} {job : Job D α} {init : ℕ → D} {taken : List (ℕ × ℕ)}
  {ran : List (JobRun D)} {p : WorkerPool D α}

theorem exists_worker (h : Tracked jobs job init workers taken ran p) {w : ℕ} (hw : w < workers) :
    ∃ worker, p.workers[w]? = some worker ∧
      worker.Follows job (init w) (share w taken) (runsOf w ran) := by
  have hlt : w < p.workers.length := hw.trans_eq h.length_eq.symm
  exact ⟨p.workers[w], List.getElem?_eq_getElem hlt, h.follows w _ (List.getElem?_eq_getElem hlt)⟩

/-- When no worker acts any more, the jobs that were taken have been run, each by the worker that
took it. -/
theorem perm (h : Tracked jobs job init workers taken ran p) (hcomplete : p.complete = true) :
    (ran.map fun r => (r.worker, r.job)).Perm taken := by
  refine perm_of_share_eq fun w => ?_
  rw [share_map]
  by_cases hw : w < workers
  · obtain ⟨worker, hworker, hfollows⟩ := h.exists_worker hw
    have hstopped := List.all_eq_true.1 hcomplete worker (List.mem_of_getElem? hworker)
    exact (hfollows.taken_eq hstopped).symm
  · rw [share_of_ne fun t ht => ?_, runsOf_of_ne fun r hr => ?_, List.map_nil]
    · exact (h.runs_lt r hr).trans_le (not_lt.1 hw) |>.ne
    · exact (h.taken_lt t ht).trans_le (not_lt.1 hw) |>.ne

/-- When no worker acts any more, every job that was taken has been run once. -/
theorem perm_jobs (h : Tracked jobs job init workers taken ran p) (hcomplete : p.complete = true) :
    (ran.map JobRun.job).Perm (List.range p.next) := by
  have hperm := (h.perm hcomplete).map Prod.snd
  rw [h.taken_eq, List.map_map] at hperm
  exact hperm

/-- The jobs that a worker takes are some of those that were taken from the counter. -/
theorem share_sublist (h : Tracked jobs job init workers taken ran p) (w : ℕ) :
    (share w taken).Sublist (List.range p.next) := by
  rw [← h.taken_eq]
  exact List.filter_sublist.map Prod.snd

/-- The jobs that a worker takes are taken in the order of their numbers. -/
theorem share_increasing (h : Tracked jobs job init workers taken ran p) (w : ℕ) :
    (share w taken).Pairwise (· < ·) :=
  List.pairwise_lt_range.sublist (h.share_sublist w)

/-- A worker that has stopped in a panic has run a job that panics. -/
theorem run_of_panicked (h : Tracked jobs job init workers taken ran p) {payload : JobPanic}
    (hpanicked : .panicked payload ∈ p.workers) :
    ∃ r ∈ ran, ∃ fault, job r.data r.job = .error fault ∧ payload = fault.payload := by
  obtain ⟨w, hw⟩ := List.getElem?_of_mem hpanicked
  obtain ⟨before, r, noted, fault, hruns, -, hjob, hpayload, -⟩ := h.follows w _ hw
  have hr : r ∈ runsOf w ran := by
    rw [hruns]
    exact List.mem_append_right _ (List.mem_singleton_self r)
  exact ⟨r, List.mem_of_mem_filter hr, fault, hjob, hpayload⟩

/-- When no worker acts any more, the worker of a run has finished or has stopped in a panic. -/
theorem worker_cases (h : Tracked jobs job init workers taken ran p) (hcomplete : p.complete = true)
    {r : JobRun D} (hr : r ∈ ran) :
    (∃ noted a d, .finished noted ∈ p.workers ∧ (r.job, a) ∈ noted ∧
        job r.data r.job = .ok (a, d)) ∨
      ∃ payload, .panicked payload ∈ p.workers := by
  obtain ⟨worker, hworker, hfollows⟩ := h.exists_worker (h.runs_lt r hr)
  have hmem := List.mem_of_getElem? hworker
  have hstopped := List.all_eq_true.1 hcomplete worker hmem
  cases worker with
  | free e noted => cases hstopped
  | busy i e noted => cases hstopped
  | panicked payload => exact Or.inr ⟨payload, hmem⟩
  | finished noted =>
      obtain ⟨e, hworked, -⟩ := hfollows
      have hmine : r ∈ runsOf r.worker ran := List.mem_filter.2 ⟨hr, by simp⟩
      obtain ⟨a, d, hjob, hnoted⟩ := hworked.noted_of_mem hmine
      exact Or.inl ⟨noted, a, d, hmem, hnoted, hjob⟩

/-- A result that a worker has noted is that of a run. -/
theorem run_of_noted (h : Tracked jobs job init workers taken ran p) {noted : List (ℕ × α)}
    (hmem : .finished noted ∈ p.workers) {i : ℕ} {a : α} (hi : (i, a) ∈ noted) :
    ∃ r ∈ ran, r.job = i ∧ ∃ d, job r.data r.job = .ok (a, d) := by
  obtain ⟨w, hw⟩ := List.getElem?_of_mem hmem
  obtain ⟨e, hworked, -⟩ := h.follows w _ hw
  obtain ⟨r, hr, rfl, hjob⟩ := hworked.run_of_noted hi
  exact ⟨r, List.mem_of_mem_filter hr, rfl, hjob⟩

/-- If no worker acts any more and no run has panicked, then all jobs were taken, and the answer
holds in the place of each job the result of its run. -/
theorem answer_of_ok (h : Tracked jobs job init workers taken ran p) (hcomplete : p.complete = true)
    (hworkers : 0 < workers) (hok : ∀ r ∈ ran, ∃ done, job r.data r.job = .ok done) :
    p.next = jobs ∧ ∃ results, answer jobs p.workers = .ok results ∧ results.length = jobs ∧
      ∀ r ∈ ran, ∃ a d, job r.data r.job = .ok (a, d) ∧ results[r.job]? = some a := by
  have hpanic : ∀ payload, .panicked payload ∉ p.workers := by
    intro payload hpanicked
    obtain ⟨r, hr, fault, hfault, -⟩ := h.run_of_panicked hpanicked
    obtain ⟨done, hdone⟩ := hok r hr
    rw [hfault] at hdone
    cases hdone
  have hfinished : ∀ worker ∈ p.workers, ∃ noted, worker = .finished noted := by
    intro worker hworker
    have hstopped := List.all_eq_true.1 hcomplete worker hworker
    cases worker with
    | free e noted => cases hstopped
    | busy i e noted => cases hstopped
    | finished noted => exact ⟨noted, rfl⟩
    | panicked payload => exact absurd hworker (hpanic payload)
  have hnext : p.next = jobs := by
    obtain ⟨worker, hworker, -⟩ := h.exists_worker hworkers
    obtain ⟨noted, rfl⟩ := hfinished worker (List.mem_of_getElem? hworker)
    exact h.used_up noted (List.mem_of_getElem? hworker)
  have hperm := h.perm_jobs hcomplete
  rw [hnext] at hperm
  have hnoted : ∀ i < jobs, i ∈ (p.workers.flatMap Worker.noted).map Prod.fst := by
    intro i hi
    obtain ⟨r, hr, rfl⟩ := List.mem_map.1 (hperm.mem_iff.2 (List.mem_range.2 hi))
    rcases h.worker_cases hcomplete hr with ⟨noted, a, d, hmem, hra, -⟩ | ⟨payload, hpanicked⟩
    · exact List.mem_map.2 ⟨(r.job, a), List.mem_flatMap.2 ⟨_, hmem, hra⟩, rfl⟩
    · exact absurd hpanicked (hpanic payload)
  obtain ⟨hlength, hplaces⟩ := collect_cases hnoted
  refine ⟨hnext, collect jobs p.workers, answer_of_no_panic hpanic, hlength, fun r hr => ?_⟩
  have hlt : r.job < jobs := List.mem_range.1 (hperm.mem_iff.1 (List.mem_map.2 ⟨r, hr, rfl⟩))
  obtain ⟨a, hplace, hmem⟩ := hplaces r.job hlt
  obtain ⟨worker, hworker, ha⟩ := List.mem_flatMap.1 hmem
  obtain ⟨noted, rfl⟩ := hfinished worker hworker
  obtain ⟨r', hr', hjob, d, hrun⟩ := h.run_of_noted hworker ha
  -- the run that was noted is the only one of this job
  have heq : r' = r := List.inj_on_of_nodup_map (hperm.nodup_iff.2 List.nodup_range) hr' hr hjob
  rw [heq] at hrun
  exact ⟨a, d, hrun, hplace⟩

/-- If no worker acts any more and some run has panicked, then the answer is a panic. -/
theorem answer_of_fault (h : Tracked jobs job init workers taken ran p)
    (hcomplete : p.complete = true) {r : JobRun D} (hr : r ∈ ran) {fault : Fault}
    (hfault : job r.data r.job = .error fault) :
    ∃ payload, answer jobs p.workers = .error (.panic payload) ∧ (payload = .wordless ∨
      ∃ r ∈ ran, ∃ fault, job r.data r.job = .error fault ∧ payload = fault.payload) := by
  rcases h.worker_cases hcomplete hr with ⟨noted, a, d, -, -, hok⟩ | ⟨payload, hpanicked⟩
  · rw [hfault] at hok
    cases hok
  · obtain ⟨payload, hanswer, hpayload⟩ := answer_of_panic jobs hpanicked
    exact ⟨payload, hanswer, hpayload.imp_right h.run_of_panicked⟩

end Tracked

end WorkerPool

/-! ### A single worker -/

/-- The results of a job do not depend on the data of the worker. -/
def Job.IgnoresData (job : Job D α) : Prop :=
  ∀ d e i, (job d i).map Prod.fst = (job e i).map Prod.fst

/-- A run of a job that ignores its data, with other data. -/
theorem Job.IgnoresData.run {job : Job D α} (h : job.IgnoresData) {e e' : D} {i : ℕ} {a : α}
    (hrun : job e i = .ok (a, e')) (d : D) : ∃ d', job d i = .ok (a, d') := by
  have hsame := h d e i
  rw [hrun, Checked.map_ok] at hsame
  cases hjob : job d i with
  | error fault =>
      rw [hjob] at hsame
      cases hsame
  | ok done =>
      rw [hjob, Checked.map_ok, Except.ok.injEq] at hsame
      exact ⟨done.2, congrArg Except.ok (Prod.ext hsame rfl)⟩

/-- One job more of a single worker, whose results stand with the last one first. -/
def aloneStep (job : Job D α) (done : List α × D) (i : ℕ) : Checked (List α × D) := do
  let next ← job done.2 i
  return (next.1 :: done.1, next.2)

theorem runAlone_eq_foldlM (jobs : ℕ) (job : Job D α) (data : D) :
    runAlone jobs job data =
      ((List.range jobs).foldlM (aloneStep job) ([], data)).map fun done => done.1.reverse := by
  change (do
    let done ← (List.range jobs).foldlM (aloneStep job) ([], data)
    return done.1.reverse) = _
  cases (List.range jobs).foldlM (aloneStep job) ([], data) with
  | error fault => rfl
  | ok done => rfl

/-- Jobs whose results are known whatever the data are, done by a single worker. -/
theorem foldlM_aloneStep {job : Job D α} (results : List α) (first : ℕ)
    (h : ∀ k a, results[k]? = some a → ∀ d, ∃ d', job d (first + k) = .ok (a, d')) (done : List α)
    (data : D) :
    ∃ d, (List.range' first results.length).foldlM (aloneStep job) (done, data) =
      .ok (results.reverse ++ done, d) := by
  induction results generalizing first done data with
  | nil => exact ⟨data, rfl⟩
  | cons a results ih =>
      obtain ⟨d', hjob⟩ := h 0 a rfl data
      have hrest : ∀ k b, results[k]? = some b →
          ∀ d, ∃ d', job d (first + 1 + k) = .ok (b, d') := by
        intro k b hb
        have := h (k + 1) b (by simpa using hb)
        rwa [Nat.add_assoc, Nat.add_comm 1 k]
      obtain ⟨d, hd⟩ := ih (first + 1) hrest (a :: done) d'
      refine ⟨d, ?_⟩
      have hstep : aloneStep job (done, data) first = .ok (a :: done, d') := by
        rw [aloneStep, ← Nat.add_zero first, hjob]
        rfl
      rw [List.length_cons, List.range'_succ, List.foldlM_cons, hstep, Checked.ok_bind, hd,
        List.reverse_cons, List.append_assoc, List.singleton_append]

/-- A single worker finds the results that do not depend on its data. -/
theorem runAlone_eq {job : Job D α} (hjob : job.IgnoresData) (results : List α)
    (h : ∀ i a, results[i]? = some a → ∃ e e', job e i = .ok (a, e')) (data : D) :
    runAlone results.length job data = .ok results := by
  have hall : ∀ k a, results[k]? = some a → ∀ d, ∃ d', job d (0 + k) = .ok (a, d') := by
    intro k a ha d
    obtain ⟨e, e', hrun⟩ := h k a ha
    rw [Nat.zero_add]
    exact hjob.run hrun d
  obtain ⟨d, hd⟩ := foldlM_aloneStep results 0 hall [] data
  rw [runAlone_eq_foldlM, List.range_eq_range', hd, Checked.map_ok, List.append_nil,
    List.reverse_reverse]

/-! ### The answer -/

namespace WorkerPool

/-- **Nothing is lost, done twice or put in another place.**  Let workers have acted in any order
after which none of them acts any more.  The numbers were taken from the counter one after the
other, and the jobs that were run are those that were taken, each run by the worker that took it.
Every worker has run its jobs in the order of their numbers, each with the data that the one before
has left.  If no run has panicked, then all jobs were run, and the answer holds in the place of each
job the result of its run; these are the results of a single worker if they do not depend on the
data.  If a run has panicked, then the answer is a panic. -/
theorem answer_of_complete (jobs : ℕ) (job : Job D α) (init : ℕ → D) {workers : ℕ}
    (hworkers : 0 < workers) (order : List ℕ)
    (hcomplete : ((start init workers).run jobs job order).complete = true) :
    let p := (start init workers).run jobs job order
    let taken := takings jobs job order (start init workers)
    let ran := runs jobs job order (start init workers)
    (taken.map Prod.snd = List.range p.next ∧ p.next ≤ jobs) ∧
      (ran.map fun r => (r.worker, r.job)).Perm taken ∧
      (∀ w < workers, (share w taken).Pairwise (· < ·) ∧ ∃ worker, p.workers[w]? = some worker ∧
        worker.Follows job (init w) (share w taken) (runsOf w ran)) ∧
      ((∀ r ∈ ran, ∃ done, job r.data r.job = .ok done) →
        p.next = jobs ∧ ∃ results, answer jobs p.workers = .ok results ∧ results.length = jobs ∧
          (∀ r ∈ ran, ∃ a d, job r.data r.job = .ok (a, d) ∧ results[r.job]? = some a) ∧
          (job.IgnoresData → ∀ data, runAlone jobs job data = .ok results)) ∧
      ((∃ r ∈ ran, ∃ fault, job r.data r.job = .error fault) →
        ∃ payload, answer jobs p.workers = .error (.panic payload) ∧ (payload = .wordless ∨
          ∃ r ∈ ran, ∃ fault, job r.data r.job = .error fault ∧ payload = fault.payload)) := by
  intro p taken ran
  have h : Tracked jobs job init workers taken ran p :=
    (tracked_start jobs job init workers).run order
  refine ⟨⟨h.taken_eq, h.next_le⟩, h.perm hcomplete,
    fun w hw => ⟨h.share_increasing w, h.exists_worker hw⟩, fun hok => ?_, ?_⟩
  · obtain ⟨hnext, results, hanswer, hlength, hplaces⟩ := h.answer_of_ok hcomplete hworkers hok
    refine ⟨hnext, results, hanswer, hlength, hplaces, fun hjob data => ?_⟩
    rw [← hlength]
    refine runAlone_eq hjob results (fun i a hi => ?_) data
    -- the place belongs to a job that was run
    obtain ⟨hlt, -⟩ := List.getElem?_eq_some_iff.1 hi
    have hmem : i ∈ List.range p.next := List.mem_range.2 (hlt.trans_eq (hlength.trans hnext.symm))
    obtain ⟨r, hr, rfl⟩ := List.mem_map.1 ((h.perm_jobs hcomplete).mem_iff.2 hmem)
    obtain ⟨b, e', hrun, hplace⟩ := hplaces r hr
    rw [hi, Option.some.injEq] at hplace
    exact ⟨r.data, e', hplace ▸ hrun⟩
  · rintro ⟨r, hr, fault, hfault⟩
    exact h.answer_of_fault hcomplete hr hfault

/-- A job that counts what its worker has done, and panics at one number. -/
def countingJob (bad : ℕ) : Job ℕ ℕ := fun seen i =>
  if i = bad then .error (.job .wordless) else .ok (10 * i + seen, seen + 1)

/-- Two workers, of which the second one does two of three jobs. -/
def threeJobs : List ℕ := [1, 0, 1, 1, 0, 0, 1, 1]

theorem answer_threeJobs :
    (∃ results,
        answer 3 ((start (fun w => w) 2).run 3 (countingJob 7) threeJobs).workers = .ok results ∧
        results.length = 3) ∧
      ∃ payload,
        answer 3 ((start (fun w => w) 2).run 3 (countingJob 2) threeJobs).workers =
          .error (.panic payload) := by
  constructor
  · obtain ⟨-, -, -, hok, -⟩ :=
      answer_of_complete 3 (countingJob 7) (fun w => w) Nat.two_pos threeJobs (by decide)
    have hgood : ∀ r ∈ runs 3 (countingJob 7) threeJobs (start (fun w => w) 2), r.job ≠ 7 := by
      decide
    obtain ⟨-, results, hanswer, hlength, -⟩ := hok fun r hr => ⟨_, if_neg (hgood r hr)⟩
    exact ⟨results, hanswer, hlength⟩
  · obtain ⟨-, -, -, -, hpanic⟩ :=
      answer_of_complete 3 (countingJob 2) (fun w => w) Nat.two_pos threeJobs (by decide)
    obtain ⟨payload, hanswer, -⟩ := hpanic ⟨⟨1, 2, 2⟩, by decide, _, rfl⟩
    exact ⟨payload, hanswer⟩

end WorkerPool

end PureGauge
