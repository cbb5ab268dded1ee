/-
**Everything a simulation does is made of single steps.**

A step is a sweep of the chain, after which the links are projected if the period of normalisation
divides the number of sweeps that have been made, this one included.  Sweeps, thermalisations and
measurements can be called for in any order, and each of them makes a number of sweeps that is known
beforehand.  What a run of them answers, which simulation it leaves and what it tells the journal
depends on the numbers of steps only, not on how the sweeps are divided among the calls: a
measurement is made of the simulation after so many steps counted from the beginning of the run.

What an operation does with a simulation is accounted for by a function from simulations to
accounts, and accounts are put together as the operations are.

Main definitions:

* `PureGauge.Simulation.step`, `PureGauge.Simulation.after` — one step, and so many;
* `PureGauge.Account`, `PureGauge.Run.Does` — what an operation answers, leaves and tells;
* `PureGauge.Observer` — a visitor of measurements that leaves the simulation as it is;
* `PureGauge.Stretch`, `PureGauge.Stretch.tell` — the calls, and what they answer and tell in terms
  of steps.

Main results:

* `PureGauge.Run.does_bind` — accounts of chains of operations;
* `PureGauge.Run.does_sweepTimes`, `PureGauge.Run.does_sampleWith` — the accounts of the loops;
* `PureGauge.Stretch.runAll_eq_ok_iff` — a run of calls in terms of steps.
-/
import PureGauge.Proofs.Checked
import PureGauge.Simulation.Basic
import Mathlib.Algebra.GroupWithZero.Nat
import Mathlib.Data.Option.Basic

namespace PureGauge

variable {R G α β : Type}

/-! ### Steps -/

/-- The links are to be projected after the sweep with the given number. -/
def Simulation.Due (s : Simulation R G) (n : ℕ) : Prop := ∃ p ∈ s.period, p.sweeps ∣ n

instance Simulation.decidableDue (s : Simulation R G) (n : ℕ) : Decidable (s.Due n) :=
  inferInstanceAs (Decidable (∃ p ∈ s.period, p.sweeps ∣ n))

theorem Simulation.normalisationDue_iff {s : Simulation R G} :
    s.normalisationDue = true ↔ s.Due s.sweeps := by
  unfold normalisationDue Due
  cases s.period with
  | none => simp
  | some p => simp [Nat.dvd_iff_mod_eq_zero]

/-- Two simulations with the same protocol of measurements. -/
structure Simulation.SameProtocol (s t : Simulation R G) : Prop where
  spacing_eq : t.spacing = s.spacing
  measurements_eq : t.measurements = s.measurements
  period_eq : t.period = s.period

section

variable [WordSource G] [Zero R] [One R] [Add R] [Sub R] [Mul R] [Neg R] [Div R] [NatCast R]
  [LE R] [DecidableLE R] [RealFunctions R] [Acceptance R]

namespace Simulation

/-- One step: a sweep of the chain, which is counted, and a projection of the links if it is due. -/
def step (s : Simulation R G) : Checked (Simulation R G) :=
  match s.chain.sweep with
  | .error fault _ => .error fault
  | .ok _ chain => do
      let count ← Word.add s.sweeps 1
      let swept : Simulation R G := { s with chain := chain, sweeps := count }
      return if s.Due count then swept.normalised else swept

/-- The simulation after so many steps. -/
def after (s : Simulation R G) : ℕ → Checked (Simulation R G)
  | 0 => .ok s
  | n + 1 => do
      let t ← s.step
      t.after n

theorem after_add (s : Simulation R G) (m n : ℕ) :
    s.after (m + n) = s.after m >>= fun t => t.after n := by
  induction m generalizing s with
  | zero => rw [Nat.zero_add, after, Checked.ok_bind]
  | succ m ih =>
      rw [Nat.succ_add, after, after]
      cases s.step with
      | error fault => rfl
      | ok t => exact ih t

/-- Steps can be counted from a later simulation. -/
theorem after_of_after {s t : Simulation R G} {m : ℕ} (h : s.after m = .ok t) (n : ℕ) :
    t.after n = s.after (m + n) := by
  rw [after_add, h, Checked.ok_bind]

/-- A step counts one sweep and keeps the protocol. -/
theorem of_step_eq_ok {s t : Simulation R G} (h : s.step = .ok t) :
    t.sweeps = s.sweeps + 1 ∧ s.SameProtocol t := by
  unfold step at h
  split at h
  · cases h
  · obtain ⟨count, hcount, ht⟩ := Checked.bind_eq_ok_iff.1 h
    obtain ⟨-, rfl⟩ := Word.add_eq_ok_iff.1 hcount
    rw [Checked.pure_eq, Except.ok.injEq] at ht
    subst ht
    split
    · exact ⟨rfl, rfl, rfl, rfl⟩
    · exact ⟨rfl, rfl, rfl, rfl⟩

/-- So many steps count so many sweeps and keep the protocol. -/
theorem of_after_eq_ok {s t : Simulation R G} {n : ℕ} (h : s.after n = .ok t) :
    t.sweeps = s.sweeps + n ∧ s.SameProtocol t := by
  induction n generalizing s with
  | zero =>
      cases h
      exact ⟨rfl, rfl, rfl, rfl⟩
  | succ n ih =>
      obtain ⟨u, hu, ht⟩ := Checked.bind_eq_ok_iff.1 h
      obtain ⟨hsweeps, hprotocol⟩ := of_step_eq_ok hu
      obtain ⟨hsweeps', hprotocol'⟩ := ih ht
      refine ⟨by omega, ?_, ?_, ?_⟩
      · exact hprotocol'.spacing_eq.trans hprotocol.spacing_eq
      · exact hprotocol'.measurements_eq.trans hprotocol.measurements_eq
      · exact hprotocol'.period_eq.trans hprotocol.period_eq

end Simulation

end

/-! ### Accounts -/

/-- Whether an event is more than the report of a sweep. -/
def Event.told : Event R → Bool
  | swept _ => false
  | _ => true

/-- What the journal says apart from the reports of the sweeps. -/
def Session.told (s : Session R G) : List (Event R) := s.journal.toList.filter Event.told

/-- What an operation has answered, the simulation it has left, and what it has told the journal. -/
structure Account (R G α : Type) where
  answer : α
  simulation : Simulation R G
  events : List (Event R)

/-- An operation does what a function from simulations to accounts says; the journal that it finds
has no influence. -/
def Run.Does (x : Run R G α) (f : Simulation R G → Checked (Account R G α)) : Prop :=
  ∀ s, match x s with
    | .ok a t =>
        ∃ events, f s.simulation = .ok ⟨a, t.simulation, events⟩ ∧ t.told = s.told ++ events
    | .error fault _ => f s.simulation = .error fault

/-- The account of an operation followed by another one. -/
def Account.chain (f : Simulation R G → Checked (Account R G α))
    (g : α → Simulation R G → Checked (Account R G β)) (s : Simulation R G) :
    Checked (Account R G β) := do
  let first ← f s
  let last ← g first.answer first.simulation
  return ⟨last.answer, last.simulation, first.events ++ last.events⟩

namespace Run

theorem does_congr {x : Run R G α} {f g : Simulation R G → Checked (Account R G α)} (hx : x.Does f)
    (hfg : ∀ s, f s = g s) : x.Does g := by
  have hf : f = g := funext hfg
  exact hf ▸ hx

/-- An operation answers if its account says so. -/
theorem Does.exists_ok {x : Run R G α} {f : Simulation R G → Checked (Account R G α)}
    (hx : x.Does f) {s : Session R G} {account : Account R G α} (h : f s.simulation = .ok account) :
    ∃ t, x s = .ok account.answer t ∧ t.simulation = account.simulation ∧
      t.told = s.told ++ account.events := by
  have hxs := hx s
  cases hrun : x s with
  | error fault t =>
      rw [hrun, h] at hxs
      cases hxs
  | ok a t =>
      rw [hrun, h] at hxs
      obtain ⟨events, haccount, htold⟩ := hxs
      cases haccount
      exact ⟨t, rfl, rfl, htold⟩

/-- An operation stops if its account says so. -/
theorem Does.exists_error {x : Run R G α} {f : Simulation R G → Checked (Account R G α)}
    (hx : x.Does f) {s : Session R G} {fault : Fault} (h : f s.simulation = .error fault) :
    ∃ t, x s = .error fault t := by
  have hxs := hx s
  cases hrun : x s with
  | error fault' t =>
      rw [hrun, h] at hxs
      cases hxs
      exact ⟨t, rfl⟩
  | ok a t =>
      rw [hrun, h] at hxs
      obtain ⟨events, haccount, -⟩ := hxs
      cases haccount

theorem does_pure (a : α) : (pure a : Run R G α).Does fun s => .ok ⟨a, s, []⟩ :=
  fun _ => ⟨[], rfl, (List.append_nil _).symm⟩

/-- Chains of operations. -/
theorem does_bind {x : Run R G α} {k : α → Run R G β} {f : Simulation R G → Checked (Account R G α)}
    {g : α → Simulation R G → Checked (Account R G β)} (hx : x.Does f)
    (hk : ∀ a, (k a).Does (g a)) :
    (x >>= k).Does (Account.chain f g) := by
  intro s
  have hfirst := hx s
  change match EStateM.bind x k s with
    | .ok a t => _
    | .error fault _ => _
  rw [EStateM.bind]
  cases hxs : x s with
  | error fault t =>
      rw [hxs] at hfirst
      change Account.chain f g s.simulation = .error fault
      rw [Account.chain, hfirst, Checked.error_bind]
  | ok a t =>
      rw [hxs] at hfirst
      obtain ⟨first, hf, htold⟩ := hfirst
      have hlast := hk a t
      simp only [Account.chain, hf, Checked.ok_bind]
      cases hkt : k a t with
      | error fault u =>
          rw [hkt] at hlast
          rw [hlast, Checked.error_bind]
      | ok b u =>
          rw [hkt] at hlast
          obtain ⟨last, hg, htold'⟩ := hlast
          refine ⟨first ++ last, by rw [hg]; rfl, ?_⟩
          rw [htold', htold, List.append_assoc]

/-- What is read from the session must not be the journal. -/
theorem does_get_bind {γ : Type} (read : Simulation R G → γ) {k : γ → Run R G β}
    {g : γ → Simulation R G → Checked (Account R G β)} (hk : ∀ c, (k c).Does (g c)) :
    (get >>= fun s => k (read s.simulation)).Does fun s => g (read s) s :=
  fun s => hk (read s.simulation) s

theorem does_note (e : Event R) :
    (note e : Run R G Unit).Does fun s => .ok ⟨(), s, [e].filter Event.told⟩ := by
  intro s
  refine ⟨[e].filter Event.told, rfl, ?_⟩
  rw [Session.told, Array.toList_push, List.filter_append]
  rfl

theorem does_change (f : Simulation R G → Simulation R G) :
    (change f).Does fun s => .ok ⟨(), f s, []⟩ :=
  fun _ => ⟨[], rfl, (List.append_nil _).symm⟩

theorem does_checked (f : Simulation R G → Checked α) :
    (checked f).Does fun s => do return ⟨← f s, s, []⟩ := by
  intro s
  simp only [checked]
  cases hf : f s.simulation with
  | error fault => simp
  | ok a => exact ⟨[], by simp, (List.append_nil _).symm⟩

theorem does_onChain (step : EStateM Fault (Chain R G) α) :
    (onChain step).Does fun s =>
      match step s.chain with
      | .ok a c => .ok ⟨a, { s with chain := c }, []⟩
      | .error fault _ => .error fault := by
  intro s
  rw [onChain]
  cases hstep : step s.simulation.chain with
  | error fault c => simp only [hstep]
  | ok a c => exact ⟨[], by simp only [hstep], (List.append_nil _).symm⟩

end Run

/-- A visitor of measurements that leaves the simulation as it is: what it sees, and what it tells
the journal, depends on the number of the measurement and on the simulation. -/
structure Observer (R G β : Type) where
  visit : ℕ → Run R G β
  look : ℕ → Simulation R G → Checked (β × List (Event R))
  reads : ∀ i, (visit i).Does fun s => do
    let seen ← look i s
    return ⟨seen.1, s, seen.2⟩

/-- The visitor that does not look. -/
def Observer.blind : Observer R G Unit where
  visit := fun _ => return ()
  look := fun _ _ => .ok ((), [])
  reads := fun _ => Run.does_pure ()

/-! ### Loops -/

section

variable [WordSource G] [Zero R] [One R] [Add R] [Sub R] [Mul R] [Neg R] [Div R] [NatCast R]
  [LE R] [DecidableLE R] [RealFunctions R] [Acceptance R]

namespace Simulation

/-- The measurement with a number that is made after so many steps, what a visitor sees then, and
what both of them tell the journal. -/
def measured (s : Simulation R G) (o : Observer R G β) (total number steps : ℕ) :
    Checked ((R × β) × List (Event R)) := do
  let t ← s.after steps
  let average ← t.average
  let seen ← o.look number t
  return ((average, seen.1),
    .measured (number + 1) total average t.chain.engine.rate :: seen.2)

/-- All measurements of the protocol in a series that begins after so many steps. -/
def series (s : Simulation R G) (o : Observer R G β) (steps : ℕ) :
    Checked (List ((R × β) × List (Event R))) := do
  Storage.room Storage.wordBytes s.measurements
  (List.range s.measurements).mapM fun k =>
    s.measured o s.measurements k (steps + (k + 1) * s.spacing)

/-- A measurement can be counted from a later simulation. -/
theorem measured_of_after {s t : Simulation R G} {m : ℕ} (h : s.after m = .ok t)
    (o : Observer R G β) (total number steps : ℕ) :
    t.measured o total number steps = s.measured o total number (m + steps) := by
  rw [measured, measured, after_of_after h]

/-- Measurements one after the other: the first one, and the rest counted from its number and its
steps. -/
theorem mapM_measured_succ (s : Simulation R G) (o : Observer R G β) (total index left : ℕ) :
    ((List.range (left + 1)).mapM fun k =>
      s.measured o total (index + k) ((k + 1) * s.spacing)) = do
      let first ← s.measured o total index s.spacing
      let rest ← (List.range left).mapM fun k =>
        s.measured o total (index + 1 + k) (s.spacing + (k + 1) * s.spacing)
      return first :: rest := by
  have hlater : ∀ k, s.measured o total (index + (k + 1)) ((k + 1 + 1) * s.spacing) =
      s.measured o total (index + 1 + k) (s.spacing + (k + 1) * s.spacing) := by
    intro k
    rw [Nat.succ_mul (k + 1), Nat.add_comm _ s.spacing, Nat.add_comm k, ← Nat.add_assoc]
  rw [List.range_succ_eq_map, List.mapM_cons, List.mapM_map, Nat.zero_add, Nat.one_mul,
    Nat.add_zero]
  simp only [← hlater]
  rfl

theorem series_of_after {s t : Simulation R G} {m : ℕ} (h : s.after m = .ok t) (o : Observer R G β)
    (steps : ℕ) : t.series o steps = s.series o (m + steps) := by
  obtain ⟨-, hprotocol⟩ := of_after_eq_ok h
  simp only [series, measured_of_after h, hprotocol.spacing_eq, hprotocol.measurements_eq,
    Nat.add_assoc]

/-- A series of measurements is made by making the steps of all of them. -/
theorem exists_after_of_series {s t : Simulation R G} {m : ℕ} (h : s.after m = .ok t)
    {o : Observer R G β} {found : List ((R × β) × List (Event R))}
    (hfound : s.series o m = .ok found) :
    ∃ u, s.after (m + s.measurements * s.spacing) = .ok u := by
  obtain ⟨-, -, hmeasured⟩ := Checked.bind_eq_ok_iff.1 hfound
  cases hcount : s.measurements with
  | zero => exact ⟨t, by rw [Nat.zero_mul, Nat.add_zero, h]⟩
  | succ n =>
      -- the last measurement comes after all the steps
      cases hlast : s.after (m + (n + 1) * s.spacing) with
      | ok u => exact ⟨u, rfl⟩
      | error fault =>
          have hn : n ∈ List.range s.measurements := by
            rw [hcount, List.mem_range]
            exact Nat.lt_succ_self n
          refine absurd hmeasured (Checked.mapM_ne_ok (e := fault) hn ?_ found)
          rw [measured, hlast, Checked.error_bind]

end Simulation

namespace Run

theorem does_sweep : (sweep : Run R G Unit).Does fun s => do return ⟨(), ← s.step, []⟩ := by
  refine does_congr (does_bind (does_onChain Chain.sweep) fun report =>
    does_bind (does_note _) fun _ => does_bind (does_checked _) fun count =>
    does_bind (does_change _) fun _ => does_change _) fun s => ?_
  simp only [Simulation.step, Account.chain]
  cases s.chain.sweep with
  | error fault c => rfl
  | ok report c =>
      simp only [bind_assoc, pure_bind, Checked.ok_bind, Simulation.normalisationDue_iff]
      rfl

theorem does_sweepTimes (n : ℕ) :
    (sweepTimes n : Run R G Unit).Does fun s => do return ⟨(), ← s.after n, []⟩ := by
  induction n with
  | zero => exact does_pure ()
  | succ n ih =>
      refine does_congr (does_bind does_sweep fun _ => ih) fun s => ?_
      simp only [Account.chain, Simulation.after, bind_assoc, pure_bind, List.nil_append]

theorem does_thermalise (n : ℕ) :
    (thermalise n : Run R G Unit).Does fun s => do
      let t ← s.after n
      let average ← t.average
      return ⟨(), t, [.thermalised n average]⟩ := by
  refine does_congr (does_bind (does_sweepTimes n) fun _ =>
    does_bind (does_checked _) fun average => does_note _) fun s => ?_
  simp only [Account.chain, bind_assoc, pure_bind, Checked.ok_bind, List.nil_append]
  rfl

/-- One measurement, with what is done after it. -/
theorem does_measured (o : Observer R G β) (total index n : ℕ) {k : R × β → Run R G α}
    {g : R × β → Simulation R G → Checked (Account R G α)} (hk : ∀ x, (k x).Does (g x)) :
    (do sweepTimes n
        let average ← checked Simulation.average
        note (.measured (index + 1) total average (← get).simulation.chain.engine.rate)
        let found ← o.visit index
        k (average, found)).Does fun s => do
      let first ← s.measured o total index n
      let rest ← g first.1 (← s.after n)
      return ⟨rest.answer, rest.simulation, first.2 ++ rest.events⟩ := by
  have hvisit : ∀ average : R,
      (do note (.measured (index + 1) total average (← get).simulation.chain.engine.rate)
          let found ← o.visit index
          k (average, found)).Does fun s => do
        let seen ← o.look index s
        let rest ← g (average, seen.1) s
        return ⟨rest.answer, rest.simulation,
          Event.measured (index + 1) total average s.chain.engine.rate :: seen.2 ++
            rest.events⟩ := by
    intro average
    have hnoted := does_get_bind (R := R) (G := G) (fun s => s.chain.engine.rate) fun rate =>
      does_bind (does_note (.measured (index + 1) total average rate)) fun _ =>
        does_bind (o.reads index) fun found => hk (average, found)
    refine does_congr hnoted fun t => ?_
    simp only [Account.chain, bind_assoc, pure_bind, Checked.ok_bind]
    rfl
  refine does_congr (does_bind (does_sweepTimes n) fun _ => does_bind (does_checked _) hvisit)
    fun s => ?_
  simp only [Account.chain, Simulation.measured]
  cases s.after n with
  | error fault => rfl
  | ok t => simp only [bind_assoc, pure_bind, Checked.ok_bind, List.nil_append]

/-- Measurements that begin with a number: each is made when the sweeps between two measurements
have been made once more. -/
theorem does_measureFrom (o : Observer R G β) (total index left : ℕ) :
    (measureFrom o.visit total index left).Does fun s => do
      let found ← (List.range left).mapM fun k =>
        s.measured o total (index + k) ((k + 1) * s.spacing)
      let t ← s.after (left * s.spacing)
      return ⟨found.map Prod.fst, t, found.flatMap Prod.snd⟩ := by
  induction left generalizing index with
  | zero =>
      refine does_congr (does_pure []) fun s => ?_
      rw [Nat.zero_mul]
      rfl
  | succ left ih =>
      have hrest : ∀ x : R × β, (do return x :: (← measureFrom o.visit total (index + 1) left) :
          Run R G (List (R × β))).Does _ :=
            fun x => does_bind (ih (index + 1)) fun rest => does_pure _
      have hnext := does_get_bind Simulation.spacing fun n => does_measured o total index n hrest
      refine does_congr hnext fun s => ?_
      rw [Simulation.mapM_measured_succ, Nat.succ_mul, Nat.add_comm (left * s.spacing),
        Simulation.after_add]
      cases ht : s.after s.spacing with
      | error fault => rw [Simulation.measured, ht]; rfl
      | ok t =>
          obtain ⟨-, hprotocol⟩ := Simulation.of_after_eq_ok ht
          simp only [Account.chain, ← Simulation.measured_of_after ht, hprotocol.spacing_eq,
            bind_assoc, pure_bind, Checked.ok_bind, List.append_nil, List.map_cons,
            List.flatMap_cons]

theorem does_sampleWith (o : Observer R G β) :
    (sampleWith o.visit).Does fun s => do
      let found ← s.series o 0
      let t ← s.after (s.measurements * s.spacing)
      return ⟨found.map Prod.fst, t, found.flatMap Prod.snd⟩ := by
  have hsample := does_get_bind (R := R) (G := G) Simulation.measurements fun total =>
    does_bind (does_checked fun _ => Storage.room Storage.wordBytes total) fun _ =>
      does_measureFrom o total 0 total
  refine does_congr hsample fun s => ?_
  simp only [Account.chain, Simulation.series, bind_assoc, pure_bind, Nat.zero_add, List.nil_append]

end Run

/-! ### Runs -/

/-- What makes a simulation sweep. -/
inductive Stretch (R G β : Type) where
  /-- A single sweep. -/
  | sweep
  /-- So many sweeps without a measurement. -/
  | thermalise (sweeps : ℕ)
  /-- All measurements of the protocol. -/
  | sample
  /-- All measurements of the protocol, with a visitor. -/
  | sampleWith (o : Observer R G β)

namespace Stretch

/-- A call in a session; its answer is the list of the averages that it has measured, with what a
visitor has seen. -/
def run : Stretch R G β → Run R G (List (R × Option β))
  | sweep => do
      Run.sweep
      return []
  | thermalise n => do
      Run.thermalise n
      return []
  | sample => return (← Run.sample).map fun average => (average, none)
  | sampleWith o => return (← Run.sampleWith o.visit).map fun found => (found.1, some found.2)

/-- Calls one after the other; the first one that stops ends the run. -/
def runAll : List (Stretch R G β) → Run R G (List (List (R × Option β)))
  | [] => return []
  | c :: cs => return (← c.run) :: (← runAll cs)

/-- The number of sweeps of a call. -/
def sweeps (s : Simulation R G) : Stretch R G β → ℕ
  | sweep => 1
  | thermalise n => n
  | sample => s.measurements * s.spacing
  | sampleWith _ => s.measurements * s.spacing

/-- The number of sweeps of a run. -/
def sweepsAll (s : Simulation R G) (cs : List (Stretch R G β)) : ℕ := (cs.map (sweeps s)).sum

/-- What a call answers and tells the journal when so many steps have been made before it: all of
this can be found by making steps. -/
def tell (s : Simulation R G) (steps : ℕ) :
    Stretch R G β → Checked (List (R × Option β) × List (Event R))
  | sweep => do
      let _ ← s.after (steps + 1)
      return ([], [])
  | thermalise n => do
      let t ← s.after (steps + n)
      return ([], [.thermalised n (← t.average)])
  | sample => do
      let found ← s.series .blind steps
      return (found.map fun m => (m.1.1, none), found.flatMap Prod.snd)
  | sampleWith o => do
      let found ← s.series o steps
      return (found.map fun m => (m.1.1, some m.1.2), found.flatMap Prod.snd)

/-- What the calls of a run answer and tell the journal when so many steps have been made before
it. -/
def tellAll (s : Simulation R G) : ℕ → List (Stretch R G β) →
    Checked (List (List (R × Option β) × List (Event R)))
  | _, [] => .ok []
  | steps, c :: cs => do
      let first ← c.tell s steps
      let rest ← tellAll s (steps + c.sweeps s) cs
      return first :: rest

/-- What a call tells can be counted from a later simulation. -/
theorem tell_of_after {s t : Simulation R G} {m : ℕ} (h : s.after m = .ok t) (c : Stretch R G β)
    (steps : ℕ) : c.tell t steps = c.tell s (m + steps) := by
  cases c with
  | sweep => rw [tell, tell, Simulation.after_of_after h, Nat.add_assoc]
  | thermalise n => rw [tell, tell, Simulation.after_of_after h, Nat.add_assoc]
  | sample => rw [tell, tell, Simulation.series_of_after h]
  | sampleWith o => rw [tell, tell, Simulation.series_of_after h]

/-- A call makes the same number of sweeps later. -/
theorem sweeps_of_after {s t : Simulation R G} {m : ℕ} (h : s.after m = .ok t) (c : Stretch R G β) :
    c.sweeps t = c.sweeps s := by
  obtain ⟨-, hprotocol⟩ := Simulation.of_after_eq_ok h
  cases c with
  | sweep => rfl
  | thermalise n => rfl
  | sample => rw [sweeps, sweeps, hprotocol.spacing_eq, hprotocol.measurements_eq]
  | sampleWith o => rw [sweeps, sweeps, hprotocol.spacing_eq, hprotocol.measurements_eq]

theorem tellAll_of_after {s t : Simulation R G} {m : ℕ} (h : s.after m = .ok t)
    (cs : List (Stretch R G β)) (steps : ℕ) : tellAll t steps cs = tellAll s (m + steps) cs := by
  induction cs generalizing steps with
  | nil => rfl
  | cons c cs ih => rw [tellAll, tellAll, tell_of_after h, sweeps_of_after h, ih, Nat.add_assoc]

/-- One call makes its steps. -/
theorem does_run (c : Stretch R G β) : c.run.Does fun s => do
    let told ← c.tell s 0
    let t ← s.after (c.sweeps s)
    return ⟨told.1, t, told.2⟩ := by
  cases c with
  | sweep =>
      refine Run.does_congr (Run.does_bind Run.does_sweep fun _ => Run.does_pure []) fun s => ?_
      simp only [tell, sweeps, Account.chain, Simulation.after]
      cases s.step with
      | error fault => rfl
      | ok t => rfl
  | thermalise n =>
      refine Run.does_congr
        (Run.does_bind (Run.does_thermalise n) fun _ => Run.does_pure []) fun s => ?_
      simp only [tell, sweeps, Account.chain, Nat.zero_add]
      cases s.after n with
      | error fault => rfl
      | ok t => simp only [bind_assoc, pure_bind, Checked.ok_bind, List.append_nil]
  | sample =>
      refine Run.does_congr (Run.does_bind (Run.does_bind (Run.does_sampleWith .blind) fun _ =>
        Run.does_pure _) fun _ => Run.does_pure _) fun s => ?_
      simp only [tell, sweeps, Account.chain, bind_assoc, pure_bind, Checked.ok_bind,
        List.append_nil, List.map_map, Function.comp_def]
  | sampleWith o =>
      refine Run.does_congr
        (Run.does_bind (Run.does_sampleWith o) fun _ => Run.does_pure _) fun s => ?_
      simp only [tell, sweeps, Account.chain, bind_assoc, pure_bind, Checked.ok_bind,
        List.append_nil, List.map_map, Function.comp_def]

/-- A call that answers has made its steps. -/
theorem exists_after_of_tell {s t : Simulation R G} {m : ℕ} (h : s.after m = .ok t)
    {c : Stretch R G β} {told : List (R × Option β) × List (Event R)}
    (htold : c.tell s m = .ok told) :
    ∃ u, s.after (m + c.sweeps s) = .ok u := by
  cases c with
  | sweep =>
      obtain ⟨u, hu, -⟩ := Checked.bind_eq_ok_iff.1 htold
      exact ⟨u, hu⟩
  | thermalise n =>
      obtain ⟨u, hu, -⟩ := Checked.bind_eq_ok_iff.1 htold
      exact ⟨u, hu⟩
  | sample =>
      obtain ⟨found, hfound, -⟩ := Checked.bind_eq_ok_iff.1 htold
      exact Simulation.exists_after_of_series h hfound
  | sampleWith o =>
      obtain ⟨found, hfound, -⟩ := Checked.bind_eq_ok_iff.1 htold
      exact Simulation.exists_after_of_series h hfound

/-- Calls one after the other make the steps of all of them. -/
theorem does_runAll (cs : List (Stretch R G β)) : (runAll cs).Does fun s => do
    let told ← tellAll s 0 cs
    let t ← s.after (sweepsAll s cs)
    return ⟨told.map Prod.fst, t, told.flatMap Prod.snd⟩ := by
  induction cs with
  | nil => exact Run.does_pure []
  | cons c cs ih =>
      refine Run.does_congr (Run.does_bind (does_run c) fun _ => Run.does_bind ih fun _ =>
        Run.does_pure _) fun s => ?_
      have htotal : sweepsAll s (c :: cs) = c.sweeps s + sweepsAll s cs := List.sum_cons
      simp only [tellAll, Account.chain, htotal, Nat.zero_add]
      cases hfirst : c.tell s 0 with
      | error fault => rfl
      | ok first =>
          obtain ⟨t, ht⟩ := exists_after_of_tell (t := s) rfl hfirst
          rw [Nat.zero_add] at ht
          have hlater : sweepsAll t cs = sweepsAll s cs := by
            rw [sweepsAll, List.map_congr_left fun c _ => sweeps_of_after ht c, sweepsAll]
          simp only [ht, tellAll_of_after ht, Simulation.after_of_after ht, hlater, Nat.add_zero,
            bind_assoc, pure_bind, Checked.ok_bind, List.append_nil, List.map_cons,
            List.flatMap_cons]

/-- **A run depends on the sequence of its steps only.**  Whatever calls a run is made of, and
however it divides its sweeps among them, it answers exactly when its steps can be made, the
averages after the steps at which it measures can be computed, there is room for a series of
measurements, and its visitors do not stop.  The simulation that it leaves is then the one after all
its steps, and has counted as many sweeps more; the answers of each call, and what it has told the
journal, are those that are found by making steps: a series that begins after `m` steps measures
once for each number `k` below the number of measurements, in this order, after
`m + (k + 1) * spacing` steps, and shows its visitor that number and that simulation. -/
theorem runAll_eq_ok_iff (cs : List (Stretch R G β)) (s : Session R G) :
    (∀ answers t events,
      (∃ left, runAll cs s = .ok answers left ∧ left.simulation = t ∧
        left.told = s.told ++ events) ↔
        s.simulation.after (sweepsAll s.simulation cs) = .ok t ∧
          ∃ told, tellAll s.simulation 0 cs = .ok told ∧ answers = told.map Prod.fst ∧
            events = told.flatMap Prod.snd) ∧
      ∀ n t, s.simulation.after n = .ok t → t.sweeps = s.simulation.sweeps + n := by
  refine ⟨fun answers t events => ?_, fun n t ht => (Simulation.of_after_eq_ok ht).1⟩
  constructor
  · rintro ⟨left, hleft, rfl, hevents⟩
    have hrun := does_runAll cs s
    rw [hleft] at hrun
    obtain ⟨events', haccount, htold⟩ := hrun
    obtain ⟨told, htells, hrest⟩ := Checked.bind_eq_ok_iff.1 haccount
    obtain ⟨u, hu, hanswer⟩ := Checked.bind_eq_ok_iff.1 hrest
    rw [Checked.pure_eq, Except.ok.injEq, Account.mk.injEq] at hanswer
    obtain ⟨rfl, rfl, rfl⟩ := hanswer
    rw [htold, List.append_cancel_left_eq] at hevents
    exact ⟨hu, told, htells, rfl, hevents.symm⟩
  · rintro ⟨ht, told, htells, rfl, rfl⟩
    have haccount : (do
        let told ← tellAll s.simulation 0 cs
        let t ← s.simulation.after (sweepsAll s.simulation cs)
        return ⟨told.map Prod.fst, t, told.flatMap Prod.snd⟩ : Checked (Account R G _)) =
          .ok ⟨told.map Prod.fst, t, told.flatMap Prod.snd⟩ := by
      rw [htells, Checked.ok_bind, ht, Checked.ok_bind, Checked.pure_eq]
    exact (does_runAll cs).exists_ok haccount

end Stretch

end

end PureGauge
