/-
**A pool of workers.**

The jobs `0, …, n - 1` are done by workers that share one counter.  A worker takes the next number
from the counter, does that job with data of its own, notes the result, and comes back for the next;
it stops when the counter is used up, and for good when a job panics.  In which order the workers
act is up to a scheduler.  In the end the workers are joined in order, the results are put in the
places of their jobs, and the panic of a worker becomes the answer.  A panic that is met while
further workers with a panic are still to be joined leaves nothing that can be read.

A single worker does its jobs directly, and a panic is not caught.

Main definitions:

* `PureGauge.Worker`, `PureGauge.WorkerPool` — the states of a worker and of the pool;
* `PureGauge.WorkerPool.step` — one action of one worker;
* `PureGauge.WorkerPool.run` — the pool under a scheduler, `PureGauge.WorkerPool.rounds` — the
  scheduler that lets the workers act in turn;
* `PureGauge.WorkerPool.answer` — what joining the workers yields;
* `PureGauge.runJobs` — the answer of a pool of a given size.
-/
import PureGauge.Error
import PureGauge.Storage

namespace PureGauge

/-- What a fault in a job leaves behind. -/
def Fault.payload : Fault → JobPanic
  | job p => p
  | fault => .text fault.message

/-- A job: from the data of the worker and the number of the job to a result and the data after
it. -/
abbrev Job (D α : Type) := D → Nat → Checked (α × D)

/-- A worker: it is free with the results it has noted, the last one first, or at work on a job, or
it has stopped after its last job or in a panic. -/
inductive Worker (D α : Type) where
  | free (data : D) (noted : List (Nat × α))
  | busy (job : Nat) (data : D) (noted : List (Nat × α))
  | finished (noted : List (Nat × α))
  | panicked (panic : JobPanic)

namespace Worker

variable {D α : Type}

/-- The results a worker has noted. -/
def noted : Worker D α → List (Nat × α)
  | free _ noted | busy _ _ noted | finished noted => noted
  | panicked _ => []

/-- Whether a worker will not act any more. -/
def stopped : Worker D α → Bool
  | finished _ | panicked _ => true
  | _ => false

/-- The panic a worker has stopped in. -/
def panic? : Worker D α → Option JobPanic
  | panicked p => some p
  | _ => none

end Worker

/-- The counter of the jobs and the workers, in the order in which they are joined. -/
structure WorkerPool (D α : Type) where
  next : Nat
  workers : List (Worker D α)

namespace WorkerPool

variable {D α : Type}

/-- A pool before the first action; worker `w` starts with the data `init w`. -/
def start (init : Nat → D) (workers : Nat) : WorkerPool D α :=
  ⟨0, (List.range workers).map fun w => .free (init w) []⟩

/-- One action of worker `w`: a free worker takes the next of the `jobs` or finishes, one at work
completes its job or panics. -/
def step (jobs : Nat) (job : Job D α) (p : WorkerPool D α) (w : Nat) : WorkerPool D α :=
  match p.workers[w]? with
  | some (.free data noted) =>
      if p.next < jobs then ⟨p.next + 1, p.workers.set w (.busy p.next data noted)⟩
      else { p with workers := p.workers.set w (.finished noted) }
  | some (.busy i data noted) =>
      match job data i with
      | .ok (a, data) => { p with workers := p.workers.set w (.free data ((i, a) :: noted)) }
      | .error fault => { p with workers := p.workers.set w (.panicked fault.payload) }
  | _ => p

/-- The pool after the workers acted in a given order. -/
def run (jobs : Nat) (job : Job D α) (order : List Nat) (p : WorkerPool D α) : WorkerPool D α :=
  order.foldl (step jobs job) p

/-- Whether no worker will act any more. -/
def complete (p : WorkerPool D α) : Bool := p.workers.all Worker.stopped

/-- The pool after the workers acted in turn for so many rounds, or until none acts any more. -/
def rounds (jobs : Nat) (job : Job D α) : Nat → WorkerPool D α → WorkerPool D α
  | 0, p => p
  | n + 1, p =>
      if p.complete then p else rounds jobs job n (p.run jobs job (List.range p.workers.length))

/-- The first panic among the workers, and the workers behind it. -/
def firstPanic : List (Worker D α) → Option (JobPanic × List (Worker D α))
  | [] => none
  | w :: rest =>
      match w.panic? with
      | some p => some (p, rest)
      | none => firstPanic rest

/-- The results in the places of their jobs; a job without a result leaves no place. -/
def collect (jobs : Nat) (workers : List (Worker D α)) : List α :=
  let slots := (workers.flatMap Worker.noted).foldl
    (fun (slots : Array (Option α)) (i, a) => slots.setIfInBounds i (some a))
    (Array.replicate jobs none)
  slots.toList.filterMap id

/-- What joining the workers in order yields. -/
def answer (jobs : Nat) (workers : List (Worker D α)) : Except WorkerError (List α) :=
  match firstPanic workers with
  | none => .ok (collect jobs workers)
  | some (p, rest) =>
      if rest.any fun w => w.panic?.isSome then .error (.panic .wordless) else .error (.panic p)

end WorkerPool

/-- All jobs done by a single worker. -/
def runAlone {D α : Type} (jobs : Nat) (job : Job D α) (data : D) : Checked (List α) := do
  let (results, _) ← (List.range jobs).foldlM (fun (results, data) i => do
    let (a, data) ← job data i
    return (a :: results, data)) ([], data)
  return results.reverse

/-- The bytes that a pool keeps for each of its workers. -/
def WorkerPool.workerBytes : Nat := 3 * Storage.wordBytes

/-- All jobs done by a pool of the given size whose workers act in turn.  A result takes so many
bytes, and in a pool a word more, which tells whether it is there. -/
def runJobs {D α : Type} (bytes jobs : Nat) (job : Job D α) (init : Nat → D) (workers : Nat) :
    Checked (Except WorkerError (List α)) :=
  if workers = 0 then .ok (.error .noWorker)
  else if workers = 1 then do
    Storage.room bytes jobs
    return .ok (← runAlone jobs job (init 0))
  else do
    Storage.room WorkerPool.workerBytes workers
    Storage.room (bytes + Storage.wordBytes) jobs
    let last := (WorkerPool.start init workers).rounds jobs job (2 * jobs + 2)
    return WorkerPool.answer jobs last.workers

end PureGauge
