/-
**What the workers of a pool have done.**

While the workers act, two lists are kept beside the pool: the numbers that were taken from the
counter, each with the worker that took it, and the runs of the jobs, each with the worker and the
data that it was run with.  Whatever the order is in which the workers act, the numbers are taken
from the counter one after the other, and a worker runs exactly the jobs it has taken, each with the
data that the one before has left.

Main definitions:

* `PureGauge.WorkerPool.takings`, `PureGauge.WorkerPool.runs` — the two lists;
* `PureGauge.Worked` — jobs that were run one after the other;
* `PureGauge.Worker.Follows` — the state of a worker after the jobs it has taken and run;
* `PureGauge.WorkerPool.Tracked` — the invariant of the pool.

Main results:

* `PureGauge.WorkerPool.step_cases` — what one action of a worker can be;
* `PureGauge.WorkerPool.Tracked.step`, `PureGauge.WorkerPool.Tracked.run` — an action keeps the
  invariant, and so does every order of actions.
-/
import Mathlib.Data.List.Basic
import Mathlib.Data.Nat.Notation
import PureGauge.WorkerPool

namespace PureGauge

variable {D α : Type}

/-! ### Takings and runs -/

/-- A job that was run: by which worker, its number, and the data it was run with. -/
structure JobRun (D : Type) where
  worker : ℕ
  job : ℕ
  data : D
deriving DecidableEq

namespace WorkerPool

/-- The number that an action of worker `w` takes from the counter, if it takes one. -/
def taken? (jobs : ℕ) (p : WorkerPool D α) (w : ℕ) : Option (ℕ × ℕ) :=
  match p.workers[w]? with
  | some (.free _ _) => if p.next < jobs then some (w, p.next) else none
  | _ => none

/-- The job that an action of worker `w` runs, if it runs one. -/
def ran? (p : WorkerPool D α) (w : ℕ) : Option (JobRun D) :=
  match p.workers[w]? with
  | some (.busy i data _) => some ⟨w, i, data⟩
  | _ => none

/-- What is noted of the actions of the workers, in the order in which they act. -/
def log {β : Type} (jobs : ℕ) (job : Job D α) (note : WorkerPool D α → ℕ → Option β) :
    List ℕ → WorkerPool D α → List β
  | [], _ => []
  | w :: order, p => (note p w).toList ++ log jobs job note order (p.step jobs job w)

/-- The numbers that are taken from the counter, each behind the worker that took it. -/
def takings (jobs : ℕ) (job : Job D α) : List ℕ → WorkerPool D α → List (ℕ × ℕ) :=
  log jobs job (taken? jobs)

/-- The jobs that are run. -/
def runs (jobs : ℕ) (job : Job D α) : List ℕ → WorkerPool D α → List (JobRun D) :=
  log jobs job ran?

/-- The jobs that worker `w` has taken. -/
def share (w : ℕ) (taken : List (ℕ × ℕ)) : List ℕ := (taken.filter fun t => t.1 = w).map Prod.snd

/-- The runs of worker `w`. -/
def runsOf (w : ℕ) (runs : List (JobRun D)) : List (JobRun D) := runs.filter fun r => r.worker = w

@[simp] theorem share_nil (w : ℕ) : share w [] = [] := rfl

@[simp] theorem runsOf_nil (w : ℕ) : runsOf w ([] : List (JobRun D)) = [] := rfl

theorem share_append (w : ℕ) (taken taken' : List (ℕ × ℕ)) :
    share w (taken ++ taken') = share w taken ++ share w taken' := by
  simp only [share, List.filter_append, List.map_append]

theorem runsOf_append (w : ℕ) (runs runs' : List (JobRun D)) :
    runsOf w (runs ++ runs') = runsOf w runs ++ runsOf w runs' := List.filter_append ..

/-- What other workers take is not in the share of a worker. -/
theorem share_of_ne {w : ℕ} {taken : List (ℕ × ℕ)} (h : ∀ t ∈ taken, t.1 ≠ w) :
    share w taken = [] := by
  rw [share, List.map_eq_nil_iff, List.filter_eq_nil_iff]
  intro t ht
  simp [h t ht]

/-- What other workers run is no run of a worker. -/
theorem runsOf_of_ne {w : ℕ} {runs : List (JobRun D)} (h : ∀ r ∈ runs, r.worker ≠ w) :
    runsOf w runs = [] := by
  rw [runsOf, List.filter_eq_nil_iff]
  intro r hr
  simp [h r hr]

theorem share_singleton (w i : ℕ) : share w [(w, i)] = [i] := by simp [share]

theorem runsOf_singleton (r : JobRun D) : runsOf r.worker [r] = [r] := by simp [runsOf]

end WorkerPool

/-! ### Workers -/

/-- Jobs that were run one after the other, each with the data that the one before has left: the
data at the beginning, the runs, the results that were noted, the last one first, and the data at
the end. -/
inductive Worked (job : Job D α) : D → List (JobRun D) → List (ℕ × α) → D → Prop
  | nil (d : D) : Worked job d [] [] d
  | concat {d e e' : D} {rs : List (JobRun D)} {noted : List (ℕ × α)} {r : JobRun D} {a : α} :
      Worked job d rs noted e → r.data = e → job e r.job = .ok (a, e') →
        Worked job d (rs ++ [r]) ((r.job, a) :: noted) e'

namespace Worked

variable {job : Job D α} {d e : D} {rs : List (JobRun D)} {noted : List (ℕ × α)}

/-- A result is noted for every run. -/
theorem noted_of_mem (h : Worked job d rs noted e) {r : JobRun D} (hr : r ∈ rs) :
    ∃ a d', job r.data r.job = .ok (a, d') ∧ (r.job, a) ∈ noted := by
  induction h with
  | nil => simp at hr
  | concat hworked hdata hjob ih =>
      rcases List.mem_append.1 hr with hr | hr
      · obtain ⟨a, d', ha, hmem⟩ := ih hr
        exact ⟨a, d', ha, List.mem_cons_of_mem _ hmem⟩
      · rw [List.mem_singleton] at hr
        subst hr
        subst hdata
        exact ⟨_, _, hjob, List.mem_cons_self⟩

/-- A result that is noted is that of a run. -/
theorem run_of_noted (h : Worked job d rs noted e) {i : ℕ} {a : α} (hi : (i, a) ∈ noted) :
    ∃ r ∈ rs, r.job = i ∧ ∃ d', job r.data i = .ok (a, d') := by
  induction h with
  | nil => simp at hi
  | @concat e e' rs noted r b hworked hdata hjob ih =>
      rcases List.mem_cons.1 hi with hi | hi
      · obtain ⟨rfl, rfl⟩ := Prod.mk.inj hi
        exact ⟨r, by simp, rfl, e', hdata ▸ hjob⟩
      · obtain ⟨r', hr', hrun⟩ := ih hi
        exact ⟨r', List.mem_append_left _ hr', hrun⟩

end Worked

namespace Worker

/-- The state of a worker that began with the data `d`, has taken the jobs `taken` and has run `rs`:
it has run what it has taken, except for the job that it is at work on, and it has stopped at the
first panic. -/
def Follows (job : Job D α) (d : D) (taken : List ℕ) (rs : List (JobRun D)) : Worker D α → Prop
  | free e noted => Worked job d rs noted e ∧ taken = rs.map JobRun.job
  | busy i e noted => Worked job d rs noted e ∧ taken = rs.map JobRun.job ++ [i]
  | finished noted => ∃ e, Worked job d rs noted e ∧ taken = rs.map JobRun.job
  | panicked payload =>
      ∃ before r noted fault, rs = before ++ [r] ∧ Worked job d before noted r.data ∧
      job r.data r.job = .error fault ∧ payload = fault.payload ∧ taken = rs.map JobRun.job

variable {job : Job D α} {d : D} {taken : List ℕ} {rs : List (JobRun D)}

/-- A worker that has stopped has run what it has taken. -/
theorem Follows.taken_eq {worker : Worker D α} (h : worker.Follows job d taken rs)
    (hstopped : worker.stopped = true) : taken = rs.map JobRun.job := by
  cases worker with
  | free e noted => exact h.2
  | busy i e noted => cases hstopped
  | finished noted => exact h.choose_spec.2
  | panicked payload =>
      obtain ⟨-, -, -, -, -, -, -, -, htaken⟩ := h
      exact htaken

end Worker

namespace WorkerPool

variable {jobs : ℕ} {job : Job D α} {init : ℕ → D} {workers : ℕ} {p : WorkerPool D α}

/-! ### Single actions -/

/-- What one action of a worker can be: a free worker takes the next job or finishes, a worker at
work completes its job or panics, and otherwise nothing happens. -/
theorem step_cases (jobs : ℕ) (job : Job D α) (p : WorkerPool D α) (w : ℕ) :
    (∃ e noted, p.workers[w]? = some (.free e noted) ∧ p.next < jobs ∧
        p.step jobs job w = ⟨p.next + 1, p.workers.set w (.busy p.next e noted)⟩ ∧
        taken? jobs p w = some (w, p.next) ∧ ran? p w = none) ∨
      (∃ e noted, p.workers[w]? = some (.free e noted) ∧ jobs ≤ p.next ∧
        p.step jobs job w = ⟨p.next, p.workers.set w (.finished noted)⟩ ∧
        taken? jobs p w = none ∧ ran? p w = none) ∨
      (∃ i e noted a e', p.workers[w]? = some (.busy i e noted) ∧ job e i = .ok (a, e') ∧
        p.step jobs job w = ⟨p.next, p.workers.set w (.free e' ((i, a) :: noted))⟩ ∧
        taken? jobs p w = none ∧ ran? p w = some ⟨w, i, e⟩) ∨
      (∃ i e noted fault, p.workers[w]? = some (.busy i e noted) ∧ job e i = .error fault ∧
        p.step jobs job w = ⟨p.next, p.workers.set w (.panicked fault.payload)⟩ ∧
        taken? jobs p w = none ∧ ran? p w = some ⟨w, i, e⟩) ∨
      ((∀ worker, p.workers[w]? = some worker → worker.stopped = true) ∧
        p.step jobs job w = p ∧ taken? jobs p w = none ∧ ran? p w = none) := by
  rw [step, taken?, ran?]
  cases hw : p.workers[w]? with
  | none => simp
  | some worker =>
      cases worker with
      | free e noted =>
          by_cases hnext : p.next < jobs
          · exact Or.inl ⟨e, noted, rfl, hnext, by simp [hnext], by simp [hnext], rfl⟩
          · exact Or.inr (Or.inl ⟨e, noted, rfl, by omega, by simp [hnext], by simp [hnext], rfl⟩)
      | busy i e noted =>
          cases hjob : job e i with
          | ok ae =>
              refine Or.inr (Or.inr (Or.inl ⟨i, e, noted, ae.1, ae.2, rfl, hjob, ?_, rfl, rfl⟩))
              simp only [hjob]
          | error fault =>
              refine Or.inr (Or.inr (Or.inr (Or.inl ⟨i, e, noted, fault, rfl, hjob, ?_, rfl, rfl⟩)))
              simp only [hjob]
      | finished noted => simp [Worker.stopped]
      | panicked payload => simp [Worker.stopped]

/-! ### The invariant -/

/-- A pool of workers beside the list of what was taken and of what was run. -/
structure Tracked (jobs : ℕ) (job : Job D α) (init : ℕ → D) (workers : ℕ) (taken : List (ℕ × ℕ))
    (runs : List (JobRun D)) (p : WorkerPool D α) : Prop where
  next_le : p.next ≤ jobs
  taken_eq : taken.map Prod.snd = List.range p.next
  length_eq : p.workers.length = workers
  taken_lt : ∀ t ∈ taken, t.1 < workers
  runs_lt : ∀ r ∈ runs, r.worker < workers
  used_up : ∀ noted, .finished noted ∈ p.workers → p.next = jobs
  follows : ∀ (w : ℕ) (worker : Worker D α), p.workers[w]? = some worker →
    worker.Follows job (init w) (share w taken) (runsOf w runs)

theorem tracked_start (jobs : ℕ) (job : Job D α) (init : ℕ → D) (workers : ℕ) :
    Tracked jobs job init workers [] [] (start init workers) where
  next_le := Nat.zero_le jobs
  taken_eq := rfl
  length_eq := by rw [start, List.length_map, List.length_range]
  taken_lt := by simp
  runs_lt := by simp
  used_up := by simp [start]
  follows := by
    intro w worker hw
    rw [start, List.getElem?_map, Option.map_eq_some_iff] at hw
    obtain ⟨v, hv, rfl⟩ := hw
    obtain ⟨-, rfl⟩ := List.getElem?_eq_some_iff.1 hv
    rw [List.getElem_range]
    exact ⟨.nil (init w), rfl⟩

namespace Tracked

variable {taken ts : List (ℕ × ℕ)} {ran rs : List (JobRun D)}

/-- An action of worker `w` that takes `ts` and runs `rs`: it changes no other worker. -/
theorem set (h : Tracked jobs job init workers taken ran p) {w : ℕ} {old new : Worker D α}
    (hold : p.workers[w]? = some old) {next : ℕ} (hle : next ≤ jobs)
    (hused : p.next = jobs → next = jobs) (hts : ∀ t ∈ ts, t.1 = w) (hrs : ∀ r ∈ rs, r.worker = w)
    (hrange : (taken ++ ts).map Prod.snd = List.range next)
    (hfinished : ∀ noted, new = .finished noted → next = jobs)
    (hnew : new.Follows job (init w) (share w taken ++ share w ts) (runsOf w ran ++ runsOf w rs)) :
    Tracked jobs job init workers (taken ++ ts) (ran ++ rs) ⟨next, p.workers.set w new⟩ := by
  have hw : w < workers := by
    obtain ⟨hlt, -⟩ := List.getElem?_eq_some_iff.1 hold
    rwa [h.length_eq] at hlt
  constructor
  case next_le => exact hle
  case taken_eq => exact hrange
  case length_eq => rw [List.length_set, h.length_eq]
  case taken_lt =>
    intro t ht
    rcases List.mem_append.1 ht with ht | ht
    · exact h.taken_lt t ht
    · rwa [hts t ht]
  case runs_lt =>
    intro r hr
    rcases List.mem_append.1 hr with hr | hr
    · exact h.runs_lt r hr
    · rwa [hrs r hr]
  case used_up =>
    intro noted hnoted
    rcases List.mem_or_eq_of_mem_set hnoted with hmem | heq
    · exact hused (h.used_up noted hmem)
    · exact hfinished noted heq.symm
  case follows =>
    intro v worker hv
    rw [share_append, runsOf_append]
    by_cases hvw : v = w
    · subst hvw
      rw [List.getElem?_set_self (by rwa [h.length_eq])] at hv
      rwa [← Option.some.inj hv]
    · rw [List.getElem?_set_ne (Ne.symm hvw)] at hv
      rw [share_of_ne fun t ht => (hts t ht).trans_ne (Ne.symm hvw),
        runsOf_of_ne fun r hr => (hrs r hr).trans_ne (Ne.symm hvw),
        List.append_nil, List.append_nil]
      exact h.follows v worker hv

/-- Every action of a worker keeps the invariant. -/
theorem step (h : Tracked jobs job init workers taken ran p) (w : ℕ) :
    Tracked jobs job init workers (taken ++ (taken? jobs p w).toList) (ran ++ (ran? p w).toList)
      (p.step jobs job w) := by
  rcases step_cases jobs job p w with ⟨e, noted, hw, hnext, hstep, htaken, hran⟩ |
    ⟨e, noted, hw, hnext, hstep, htaken, hran⟩ |
    ⟨i, e, noted, a, e', hw, hjob, hstep, htaken, hran⟩ |
    ⟨i, e, noted, fault, hw, hjob, hstep, htaken, hran⟩ | ⟨-, hstep, htaken, hran⟩
  · -- the worker takes the next job
    obtain ⟨hworked, hshare⟩ := h.follows w _ hw
    rw [hstep, htaken, hran, Option.toList_some, Option.toList_none]
    refine h.set hw hnext (fun hused => by omega) (by simp) (by simp) ?_ (by simp) ⟨?_, ?_⟩
    · rw [List.map_append, h.taken_eq, List.range_succ]
      rfl
    · rwa [runsOf_nil, List.append_nil]
    · rw [share_singleton, hshare, runsOf_nil, List.append_nil]
  · -- the worker finishes
    obtain ⟨hworked, hshare⟩ := h.follows w _ hw
    rw [hstep, htaken, hran, Option.toList_none, Option.toList_none]
    refine h.set hw h.next_le id (by simp) (by simp) ?_ (fun _ _ => ?_) ⟨e, ?_, ?_⟩
    · rw [List.append_nil, h.taken_eq]
    · exact Nat.le_antisymm h.next_le hnext
    · rwa [runsOf_nil, List.append_nil]
    · rw [share_nil, runsOf_nil, List.append_nil, List.append_nil, hshare]
  · -- the worker completes its job
    obtain ⟨hworked, hshare⟩ := h.follows w _ hw
    rw [hstep, htaken, hran, Option.toList_some, Option.toList_none]
    refine h.set hw h.next_le id (by simp) (by simp) ?_ (by simp) ⟨?_, ?_⟩
    · rw [List.append_nil, h.taken_eq]
    · rw [runsOf_singleton ⟨w, i, e⟩]
      exact hworked.concat rfl hjob
    · rw [runsOf_singleton ⟨w, i, e⟩, share_nil, List.append_nil, hshare, List.map_append]
      rfl
  · -- the job panics
    obtain ⟨hworked, hshare⟩ := h.follows w _ hw
    rw [hstep, htaken, hran, Option.toList_some, Option.toList_none]
    refine h.set hw h.next_le id (by simp) (by simp) ?_ (by simp)
      ⟨runsOf w ran, ⟨w, i, e⟩, noted, fault, ?_, hworked, hjob, rfl, ?_⟩
    · rw [List.append_nil, h.taken_eq]
    · rw [runsOf_singleton ⟨w, i, e⟩]
    · rw [runsOf_singleton ⟨w, i, e⟩, share_nil, List.append_nil, hshare, List.map_append]
      rfl
  · rw [hstep, htaken, hran]
    simpa using h

/-- Every order of actions keeps the invariant. -/
theorem run (h : Tracked jobs job init workers taken ran p) (order : List ℕ) :
    Tracked jobs job init workers (taken ++ takings jobs job order p) (ran ++ runs jobs job order p)
      (p.run jobs job order) := by
  induction order generalizing taken ran p with
  | nil => simpa [takings, runs, log, WorkerPool.run] using h
  | cons w order ih =>
      have hrest := ih (h.step w)
      rw [List.append_assoc, List.append_assoc] at hrest
      exact hrest

end Tracked

end WorkerPool

end PureGauge
