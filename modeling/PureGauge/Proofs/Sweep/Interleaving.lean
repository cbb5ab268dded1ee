/-
**A phase as a system of events.**

Two things happen to each link of a phase: its proposal is evaluated, and later the proposal is
carried out if it was accepted.  A schedule puts the events of all links in some order.  When no
proposal of the phase reads what another one writes, the order is of no consequence: every schedule
ends in the same state with the same updates.

Main definitions:

* `PureGauge.PhaseEvent`, `PureGauge.PhaseRun`, `PureGauge.PhaseRun.run` — the events, a phase under
  way, and a phase run under a schedule;
* `PureGauge.Interleaving` — the schedules that evaluate each link once and then commit it once;
* `PureGauge.Isolated` — no proposal of the phase reads what another one writes.

Main results:

* `PureGauge.Isolated.run_cases` — what a run has reached is determined by the events that happened;
* `PureGauge.Isolated.run_eq` — every schedule does what evaluating all links first and committing
  them afterwards does.
-/
import PureGauge.Sweep.Engine
import PureGauge.Proofs.Checked
import Mathlib.Data.List.Induction
import Mathlib.Data.List.Nodup
import Mathlib.Logic.Function.Basic

namespace PureGauge

/-! ### Events and schedules -/

/-- What can happen to a link in a phase. -/
inductive PhaseEvent where
  /-- The proposal for the link is evaluated. -/
  | evaluate (k : Link)
  /-- The proposal for the link is carried out if it was accepted. -/
  | commit (k : Link)
deriving DecidableEq

namespace PhaseEvent

/-- The link that an event happens to. -/
def link : PhaseEvent → Link
  | evaluate k => k
  | commit k => k

@[simp] theorem link_evaluate (k : Link) : (evaluate k).link = k := rfl

@[simp] theorem link_commit (k : Link) : (commit k).link = k := rfl

/-- The link that an event commits, if it commits one. -/
def committed? : PhaseEvent → Option Link
  | evaluate _ => none
  | commit k => some k

end PhaseEvent

/-- What happens to a link in a list of events. -/
def eventsOf (k : Link) (es : List PhaseEvent) : List PhaseEvent :=
  es.filter fun e => decide (e.link = k)

/-- The links that a list of events commits, in order. -/
def committedLinks (es : List PhaseEvent) : List Link := es.filterMap PhaseEvent.committed?

/-- A schedule of a phase: each link is evaluated once and then committed once, and nothing else
happens. -/
structure Interleaving (phase : List Link) (es : List PhaseEvent) : Prop where
  link_mem : ∀ e ∈ es, e.link ∈ phase
  eventsOf_eq : ∀ k ∈ phase, eventsOf k es = [.evaluate k, .commit k]

/-- The schedule that commits each link before it evaluates the next one. -/
def inTurn (phase : List Link) : List PhaseEvent :=
  phase.flatMap fun k => [.evaluate k, .commit k]

theorem mem_eventsOf {k : Link} {es : List PhaseEvent} {e : PhaseEvent} :
    e ∈ eventsOf k es ↔ e ∈ es ∧ e.link = k := by
  simp [eventsOf]

theorem eventsOf_append (k : Link) (es fs : List PhaseEvent) :
    eventsOf k (es ++ fs) = eventsOf k es ++ eventsOf k fs := List.filter_append ..

theorem eventsOf_cons {e : PhaseEvent} {k : Link} (h : e.link = k) (es : List PhaseEvent) :
    eventsOf k (e :: es) = e :: eventsOf k es := List.filter_cons_of_pos (by simp [h])

theorem mem_committedLinks {es : List PhaseEvent} {k : Link} :
    k ∈ committedLinks es ↔ .commit k ∈ es := by
  rw [committedLinks, List.mem_filterMap]
  constructor
  · rintro ⟨e, he, hk⟩
    cases e with
    | evaluate j => simp [PhaseEvent.committed?] at hk
    | commit j =>
        rw [PhaseEvent.committed?, Option.some.injEq] at hk
        exact hk ▸ he
  · intro h
    exact ⟨.commit k, h, rfl⟩

@[simp] theorem committedLinks_append_evaluate (es : List PhaseEvent) (k : Link) :
    committedLinks (es ++ [.evaluate k]) = committedLinks es := by
  simp [committedLinks, List.filterMap_append, PhaseEvent.committed?]

@[simp] theorem committedLinks_append_commit (es : List PhaseEvent) (k : Link) :
    committedLinks (es ++ [.commit k]) = committedLinks es ++ [k] := by
  simp [committedLinks, List.filterMap_append, PhaseEvent.committed?]

namespace Interleaving

variable {phase : List Link} {es es₁ es₂ : List PhaseEvent} {k : Link}

theorem evaluate_mem (h : Interleaving phase es) (hk : k ∈ phase) : .evaluate k ∈ es := by
  have hmem : PhaseEvent.evaluate k ∈ eventsOf k es := by
    rw [h.eventsOf_eq k hk]
    simp
  exact (mem_eventsOf.1 hmem).1

theorem commit_mem_iff (h : Interleaving phase es) : .commit k ∈ es ↔ k ∈ phase := by
  constructor
  · exact fun hc => h.link_mem _ hc
  · intro hk
    have hmem : PhaseEvent.commit k ∈ eventsOf k es := by
      rw [h.eventsOf_eq k hk]
      simp
    exact (mem_eventsOf.1 hmem).1

/-- A link is not committed before it is evaluated. -/
theorem not_committed_before (h : Interleaving phase es)
    (hes : es = es₁ ++ .evaluate k :: es₂) : .commit k ∉ es₁ := by
  intro hc
  have hk : k ∈ phase := h.link_mem (.evaluate k) (by simp [hes])
  have hall := h.eventsOf_eq k hk
  rw [hes, eventsOf_append, eventsOf_cons (PhaseEvent.link_evaluate k)] at hall
  have hmem : PhaseEvent.commit k ∈ eventsOf k es₁ := mem_eventsOf.2 ⟨hc, rfl⟩
  -- an event of the link before its evaluation would be a third one
  rcases hbefore : eventsOf k es₁ with _ | ⟨a, _ | ⟨b, rest⟩⟩
  · simp [hbefore] at hmem
  · simp [hbefore] at hall
  · simp [hbefore] at hall

/-- A link is evaluated before it is committed. -/
theorem evaluated_before (h : Interleaving phase es)
    (hes : es = es₁ ++ .commit k :: es₂) : .evaluate k ∈ es₁ := by
  have hk : k ∈ phase := h.link_mem (.commit k) (by simp [hes])
  have hall := h.eventsOf_eq k hk
  rw [hes, eventsOf_append, eventsOf_cons (PhaseEvent.link_commit k)] at hall
  rcases hbefore : eventsOf k es₁ with _ | ⟨a, rest⟩
  · simp [hbefore] at hall
  · rw [hbefore, List.cons_append, List.cons.injEq] at hall
    have hmem : PhaseEvent.evaluate k ∈ eventsOf k es₁ := by simp [hbefore, hall.1]
    exact (mem_eventsOf.1 hmem).1

/-- No event happens twice. -/
theorem nodup (h : Interleaving phase es) : es.Nodup := by
  rw [List.nodup_iff_count_le_one]
  intro e
  by_cases he : e ∈ es
  · -- an event is counted among those of its link, which are two different ones
    have hcount : es.count e = (eventsOf e.link es).count e :=
      (List.count_filter (by simp)).symm
    rw [hcount, h.eventsOf_eq e.link (h.link_mem e he)]
    cases e with
    | evaluate k => simp
    | commit k => simp
  · rw [List.count_eq_zero_of_not_mem he]
    exact Nat.zero_le 1

/-- The links are committed in some order, each of them once. -/
theorem committedLinks_perm (h : Interleaving phase es) (hphase : phase.Nodup) :
    (committedLinks es).Perm phase := by
  have hinj : ∀ d e k, k ∈ PhaseEvent.committed? d → k ∈ PhaseEvent.committed? e → d = e := by
    intro d e k hd he
    cases d with
    | evaluate j => simp [PhaseEvent.committed?] at hd
    | commit j =>
        cases e with
        | evaluate i => simp [PhaseEvent.committed?] at he
        | commit i => simp_all [PhaseEvent.committed?]
  refine (List.perm_ext_iff_of_nodup (h.nodup.filterMap hinj) hphase).2 fun k => ?_
  exact mem_committedLinks.trans h.commit_mem_iff

end Interleaving

theorem link_mem_of_mem_inTurn {phase : List Link} {e : PhaseEvent} (he : e ∈ inTurn phase) :
    e.link ∈ phase := by
  obtain ⟨k, hk, hmem⟩ := List.mem_flatMap.1 he
  rcases List.mem_pair.1 hmem with rfl | rfl
  · exact hk
  · exact hk

/-- Committing each link before the next is evaluated is a schedule. -/
theorem interleaving_inTurn {phase : List Link} (h : phase.Nodup) :
    Interleaving phase (inTurn phase) where
  link_mem _ he := link_mem_of_mem_inTurn he
  eventsOf_eq := by
    induction phase with
    | nil => simp
    | cons j phase ih =>
        obtain ⟨hj, hnodup⟩ := List.nodup_cons.1 h
        intro k hk
        rw [inTurn, List.flatMap_cons, eventsOf_append]
        rcases List.mem_cons.1 hk with rfl | hk
        · -- the link does not occur in the rest of the phase
          have hrest : eventsOf k (inTurn phase) = [] := by
            refine List.filter_eq_nil_iff.2 fun e he => ?_
            obtain ⟨i, hi, hmem⟩ := List.mem_flatMap.1 he
            have hik : i ≠ k := fun heq => hj (heq ▸ hi)
            rcases List.mem_pair.1 hmem with rfl | rfl
            · simp [hik]
            · simp [hik]
          rw [← inTurn, hrest]
          simp [eventsOf]
        · have hjk : j ≠ k := fun heq => hj (heq ▸ hk)
          rw [← inTurn, ih hnodup k hk]
          simp [eventsOf, hjk]

variable {R : Type} [Zero R] [One R] [Add R] [Sub R] [Mul R] [Neg R] [Div R] [NatCast R]
  [Acceptance R]

/-! ### Runs -/

/-- A phase under way: the state, the number of proposals carried out so far, and the updates of the
links that have been evaluated, each with the number of its link. -/
structure PhaseRun (R : Type) where
  state : LatticeState R
  accepted : ℕ
  updates : Link → Option (ℕ × LinkUpdate R)

namespace PhaseRun

/-- A phase that has not begun, in a state in which so many proposals of the sweep were carried
out. -/
def start {R : Type} (s : LatticeState R) (accepted : ℕ) : PhaseRun R :=
  ⟨s, accepted, fun _ => none⟩

/-- One event: an evaluation sees the state as it is, a commit takes the update that was
evaluated. -/
def step (pool : Pool R) (seed : UInt64) (c : PhaseRun R) : PhaseEvent → Checked (PhaseRun R)
  | .evaluate k => do
      let iu ← evaluate pool seed c.state k
      return { c with updates := Function.update c.updates k (some iu) }
  | .commit k =>
      match c.updates k with
      | none => .ok c
      | some iu => do
          let sn ← PureGauge.commit (c.state, c.accepted) iu
          return { c with state := sn.1, accepted := sn.2 }

/-- A phase run under a schedule. -/
def run (pool : Pool R) (seed : UInt64) (c : PhaseRun R) (es : List PhaseEvent) :
    Checked (PhaseRun R) :=
  es.foldlM (step pool seed) c

variable {pool : Pool R} {seed : UInt64}

theorem run_cons (c : PhaseRun R) (e : PhaseEvent) (es : List PhaseEvent) :
    c.run pool seed (e :: es) = c.step pool seed e >>= fun c => c.run pool seed es :=
  List.foldlM_cons

theorem run_singleton (c : PhaseRun R) (e : PhaseEvent) :
    c.run pool seed [e] = c.step pool seed e := by
  rw [run_cons]
  cases c.step pool seed e with
  | error fault => rfl
  | ok c => rfl

end PhaseRun

/-! ### Writing -/

/-- What carrying out an update for a link of the field does. -/
def carry {R : Type} (sn : LatticeState R × ℕ) (iu : ℕ × LinkUpdate R) :
    LatticeState R × ℕ :=
  if iu.2.accepted then
    ({ sn.1 with links := ⟨sn.1.links.data.setIfInBounds iu.1 iu.2.proposed⟩ }, sn.2 + 1)
  else sn

section

omit [Zero R] [One R] [Add R] [Sub R] [Mul R] [Neg R] [Div R] [NatCast R] [Acceptance R]

theorem commit_eq_carry {sn : LatticeState R × ℕ} {iu : ℕ × LinkUpdate R}
    (h : iu.1 < sn.1.links.size) : commit sn iu = .ok (carry sn iu) := by
  have hdata : iu.1 < sn.1.links.data.size := h
  rw [commit, carry]
  split
  · rw [LinkField.setAt, dif_pos hdata, Checked.ok_bind, Checked.pure_eq, Array.setIfInBounds,
      dif_pos hdata]
  · rfl

/-- Updates for different links can be carried out in either order. -/
theorem carry_comm (sn : LatticeState R × ℕ) {iu ju : ℕ × LinkUpdate R} (h : iu.1 ≠ ju.1) :
    carry (carry sn iu) ju = carry (carry sn ju) iu := by
  simp only [carry]
  split
  · split
    · rw [Array.setIfInBounds_comm _ _ h]
    · rfl
  · rfl

/-- A state that differs from another one at most in the matrices with certain numbers. -/
structure LatticeState.SameOff (s t : LatticeState R) (written : ℕ → Prop) : Prop where
  lattice_eq : t.lattice = s.lattice
  beta_eq : t.beta = s.beta
  size_eq : t.links.size = s.links.size
  data_eq : ∀ i, ¬ written i → t.links.data[i]? = s.links.data[i]?

theorem LatticeState.SameOff.mono {s t : LatticeState R} {written written' : ℕ → Prop}
    (h : s.SameOff t written) (hw : ∀ i, written i → written' i) : s.SameOff t written' :=
  ⟨h.lattice_eq, h.beta_eq, h.size_eq, fun i hi => h.data_eq i fun hwi => hi (hw i hwi)⟩

theorem sameOff_carry (sn : LatticeState R × ℕ) (iu : ℕ × LinkUpdate R) :
    sn.1.SameOff (carry sn iu).1 (iu.1 = ·) := by
  rw [carry]
  split
  · exact ⟨rfl, rfl, Array.size_setIfInBounds .., fun i hi => Array.getElem?_setIfInBounds_ne hi⟩
  · exact ⟨rfl, rfl, rfl, fun _ _ => rfl⟩

/-- Carrying out updates changes matrices of the links they are for, and nothing else. -/
theorem sameOff_foldl_carry (sn : LatticeState R × ℕ) (us : List (ℕ × LinkUpdate R)) :
    sn.1.SameOff (us.foldl carry sn).1 fun i => ∃ iu ∈ us, iu.1 = i := by
  induction us generalizing sn with
  | nil => exact ⟨rfl, rfl, rfl, fun _ _ => rfl⟩
  | cons iu us ih =>
      have hfirst := sameOff_carry sn iu
      have hrest := ih (carry sn iu)
      rw [List.foldl_cons]
      refine ⟨hrest.lattice_eq.trans hfirst.lattice_eq, hrest.beta_eq.trans hfirst.beta_eq,
        hrest.size_eq.trans hfirst.size_eq, fun i hi => ?_⟩
      rw [hrest.data_eq i fun ⟨ju, hju, heq⟩ => hi ⟨ju, by simp [hju], heq⟩]
      exact hfirst.data_eq i fun heq => hi ⟨iu, by simp, heq⟩

/-- Updates for links of the field are all carried out. -/
theorem foldlM_commit {sn : LatticeState R × ℕ} {us : List (ℕ × LinkUpdate R)}
    (h : ∀ iu ∈ us, iu.1 < sn.1.links.size) :
    us.foldlM commit sn = .ok (us.foldl carry sn) := by
  induction us generalizing sn with
  | nil => rfl
  | cons iu us ih =>
      rw [List.foldlM_cons, commit_eq_carry (h iu (by simp)), Checked.ok_bind, List.foldl_cons]
      refine ih fun ju hju => ?_
      rw [(sameOff_carry sn iu).size_eq]
      exact h ju (by simp [hju])

end

/-! ### Isolated phases -/

/-- The links of a phase have different numbers, and the proposal for each of them does not depend
on the matrices of the others. -/
structure Isolated (pool : Pool R) (seed : UInt64) (s : LatticeState R) (number : Link → ℕ)
    (phase : List Link) : Prop where
  nodup : phase.Nodup
  number_lt : ∀ k ∈ phase, number k < s.links.size
  number_inj : ∀ j ∈ phase, ∀ k ∈ phase, number j = number k → j = k
  evaluate_cases : ∀ k ∈ phase, (∃ u, evaluate pool seed s k = .ok (number k, u)) ∨
    evaluate pool seed s k = .error .unsettled
  evaluate_stable : ∀ k ∈ phase, ∀ t : LatticeState R,
    (s.SameOff t fun i => ∃ j ∈ phase, j ≠ k ∧ number j = i) →
      evaluate pool seed t k = evaluate pool seed s k

/-- The update that a link is proposed in a state, if one is proposed at all. -/
def proposed (pool : Pool R) (seed : UInt64) (s : LatticeState R) (k : Link) : ℕ × LinkUpdate R :=
  match evaluate pool seed s k with
  | .ok iu => iu
  | .error _ => (0, ⟨0, 0, none, false⟩)

/-- What a phase that began in a state has reached after some events: every link that was evaluated
has the update that the first state proposes, and the commits have carried out these updates. -/
structure PhaseRun.Reached (pool : Pool R) (seed : UInt64) (s : LatticeState R) (accepted : ℕ)
    (es : List PhaseEvent) (c : PhaseRun R) : Prop where
  evaluated : ∀ k, .evaluate k ∈ es →
    evaluate pool seed s k = .ok (proposed pool seed s k) ∧
      c.updates k = some (proposed pool seed s k)
  carried : (c.state, c.accepted) =
    ((committedLinks es).map (proposed pool seed s)).foldl carry (s, accepted)

variable {pool : Pool R} {seed : UInt64} {s : LatticeState R} {number : Link → ℕ}
  {phase : List Link}

theorem proposed_eq {k : Link} {iu : ℕ × LinkUpdate R} (h : evaluate pool seed s k = .ok iu) :
    proposed pool seed s k = iu := by
  rw [proposed, h]

/-- Only the matrices of committed links have changed. -/
theorem PhaseRun.Reached.sameOff {accepted : ℕ} {es : List PhaseEvent} {c : PhaseRun R}
    (h : PhaseRun.Reached pool seed s accepted es c) :
    s.SameOff c.state fun i => ∃ k, .commit k ∈ es ∧ (proposed pool seed s k).1 = i := by
  have hsame := sameOff_foldl_carry (s, accepted)
    ((committedLinks es).map (proposed pool seed s))
  rw [← h.carried] at hsame
  refine hsame.mono ?_
  rintro i ⟨iu, hiu, hi⟩
  obtain ⟨k, hk, rfl⟩ := List.mem_map.1 hiu
  exact ⟨k, mem_committedLinks.1 hk, hi⟩

namespace Isolated

theorem number_proposed (h : Isolated pool seed s number phase) {k : Link} (hk : k ∈ phase)
    (hok : evaluate pool seed s k = .ok (proposed pool seed s k)) :
    (proposed pool seed s k).1 = number k := by
  rcases h.evaluate_cases k hk with ⟨u, hu⟩ | herr
  · rw [proposed_eq hu]
  · rw [herr] at hok
    simp at hok

variable {accepted : ℕ} {es es₁ es₂ : List PhaseEvent} {c : PhaseRun R} {k : Link}

/-- A link that has not been committed is proposed the same update as at the beginning. -/
theorem evaluate_reached (h : Isolated pool seed s number phase) (hes : Interleaving phase es)
    (hsplit : es = es₁ ++ .evaluate k :: es₂)
    (hc : PhaseRun.Reached pool seed s accepted es₁ c) :
    evaluate pool seed c.state k = evaluate pool seed s k := by
  refine h.evaluate_stable k (hes.link_mem (.evaluate k) (by simp [hsplit])) c.state ?_
  refine hc.sameOff.mono ?_
  rintro i ⟨j, hj, hi⟩
  have hjphase : j ∈ phase := hes.link_mem (.commit j) (by simp [hsplit, hj])
  have hjk : j ≠ k := by
    rintro rfl
    exact hes.not_committed_before hsplit hj
  -- what is committed was evaluated before
  have hjevaluated : .evaluate j ∈ es₁ := by
    obtain ⟨fs, gs, hfs⟩ := List.append_of_mem hj
    have hcommit : es = fs ++ .commit j :: (gs ++ .evaluate k :: es₂) := by simp [hsplit, hfs]
    have hbefore : .evaluate j ∈ fs := hes.evaluated_before hcommit
    simp [hfs, hbefore]
  rw [h.number_proposed hjphase (hc.evaluated j hjevaluated).1] at hi
  exact ⟨j, hjphase, hjk, hi⟩

/-- One event of a schedule leads on to what is reached after it, unless no attempt to choose a
factor for the link was accepted. -/
theorem step_reached (h : Isolated pool seed s number phase) {e : PhaseEvent}
    (hes : Interleaving phase es) (hsplit : es = es₁ ++ e :: es₂)
    (hc : PhaseRun.Reached pool seed s accepted es₁ c) :
    (∃ c', c.step pool seed e = .ok c' ∧
        PhaseRun.Reached pool seed s accepted (es₁ ++ [e]) c') ∨
      (c.step pool seed e = .error .unsettled ∧
        ∃ k ∈ phase, evaluate pool seed s k = .error .unsettled) := by
  cases e with
  | evaluate k =>
      have hk : k ∈ phase := hes.link_mem (.evaluate k) (by simp [hsplit])
      have hstable := h.evaluate_reached hes hsplit hc
      rcases h.evaluate_cases k hk with ⟨u, hu⟩ | herr
      · refine Or.inl ⟨_, by rw [PhaseRun.step, hstable, hu, Checked.ok_bind, Checked.pure_eq], ?_⟩
        refine ⟨fun j hj => ?_, ?_⟩
        · by_cases hjk : j = k
          · subst hjk
            rw [proposed_eq hu]
            exact ⟨hu, Function.update_self ..⟩
          · have hj' : .evaluate j ∈ es₁ := by simpa [hjk] using hj
            obtain ⟨hok, hupdate⟩ := hc.evaluated j hj'
            exact ⟨hok, (Function.update_of_ne hjk ..).trans hupdate⟩
        · rw [committedLinks_append_evaluate]
          exact hc.carried
      · exact Or.inr ⟨by rw [PhaseRun.step, hstable, herr, Checked.error_bind], k, hk, herr⟩
  | commit k =>
      have hk : k ∈ phase := hes.link_mem (.commit k) (by simp [hsplit])
      -- what is carried out is the update of the first state, and its number is in the field
      obtain ⟨hok, hupdate⟩ := hc.evaluated k (hes.evaluated_before hsplit)
      have hlt : (proposed pool seed s k).1 < c.state.links.size := by
        rw [h.number_proposed hk hok, hc.sameOff.size_eq]
        exact h.number_lt k hk
      have hcommit : commit (c.state, c.accepted) (proposed pool seed s k) =
          .ok (carry (c.state, c.accepted) (proposed pool seed s k)) := commit_eq_carry hlt
      refine Or.inl ⟨_, by simp only [PhaseRun.step, hupdate, hcommit, Checked.ok_bind]; rfl, ?_⟩
      refine ⟨fun j hj => hc.evaluated j (by simpa using hj), ?_⟩
      rw [committedLinks_append_commit, List.map_append, List.foldl_append, ← hc.carried]
      rfl

/-- A run of a schedule, or of the beginning of one, reaches what its events determine, unless no
attempt to choose a factor was accepted. -/
theorem run_cases (h : Isolated pool seed s number phase) (hes : Interleaving phase es)
    (hsplit : es = es₁ ++ es₂) (accepted : ℕ) :
    (∃ c, (PhaseRun.start s accepted).run pool seed es₁ = .ok c ∧
        PhaseRun.Reached pool seed s accepted es₁ c) ∨
      ((PhaseRun.start s accepted).run pool seed es₁ = .error .unsettled ∧
        ∃ k ∈ phase, evaluate pool seed s k = .error .unsettled) := by
  -- by induction on the events that happened, so that the last one meets what was reached before it
  induction es₁ using List.reverseRecOn generalizing es₂ with
  | nil => exact Or.inl ⟨.start s accepted, rfl, fun k hk => by simp at hk, rfl⟩
  | append_singleton es₁ e ih =>
      have hrun : (PhaseRun.start s accepted).run pool seed (es₁ ++ [e]) =
          (PhaseRun.start s accepted).run pool seed es₁ >>= fun c => c.step pool seed e := by
        rw [PhaseRun.run, List.foldlM_append]
        exact Checked.bind_congr fun c _ => PhaseRun.run_singleton c e
      have hsplit' : es = es₁ ++ e :: es₂ := by simp [hsplit]
      rcases ih hsplit' with ⟨c, hok, hc⟩ | ⟨herr, hk⟩
      · rw [hrun, hok, Checked.ok_bind]
        exact h.step_reached hes hsplit' hc
      · rw [hrun, herr, Checked.error_bind]
        exact Or.inr ⟨rfl, hk⟩

/-- Updates of the phase can be carried out in any order. -/
theorem foldl_carry_perm (h : Isolated pool seed s number phase)
    (hok : ∀ k ∈ phase, evaluate pool seed s k = .ok (proposed pool seed s k))
    {ks : List Link} (hks : ks.Perm phase) (sn : LatticeState R × ℕ) :
    (ks.map (proposed pool seed s)).foldl carry sn =
      (phase.map (proposed pool seed s)).foldl carry sn := by
  rw [List.foldl_map, List.foldl_map]
  refine hks.foldl_eq' (fun j hj k hk sn => ?_) sn
  have hj' := hks.mem_iff.1 hj
  have hk' := hks.mem_iff.1 hk
  by_cases hjk : j = k
  · rw [hjk]
  · refine carry_comm sn fun heq => hjk ?_
    rw [h.number_proposed hj' (hok j hj'), h.number_proposed hk' (hok k hk')] at heq
    exact h.number_inj j hj' k hk' heq

/-- Evaluating all links first carries out the updates in the order of the phase. -/
theorem parallelPhase_eq (h : Isolated pool seed s number phase)
    (hok : ∀ k ∈ phase, evaluate pool seed s k = .ok (proposed pool seed s k)) (accepted : ℕ) :
    parallelPhase pool seed (s, accepted) phase =
      .ok ((phase.map (proposed pool seed s)).foldl carry (s, accepted)) := by
  rw [parallelPhase, Checked.mapM_eq_ok hok, Checked.ok_bind]
  refine foldlM_commit fun iu hiu => ?_
  obtain ⟨k, hk, rfl⟩ := List.mem_map.1 hiu
  rw [h.number_proposed hk (hok k hk)]
  exact h.number_lt k hk

/-- **Every schedule does what evaluating all links first does**: it ends in the same state, with
the same number of accepted proposals and the same updates, or with the same fault. -/
theorem run_eq (h : Isolated pool seed s number phase) (hes : Interleaving phase es)
    (accepted : ℕ) :
    ((PhaseRun.start s accepted).run pool seed es).map
        (fun c => ((c.state, c.accepted), phase.map c.updates)) =
      (do
        let updates ← phase.mapM (evaluate pool seed s)
        let sn ← parallelPhase pool seed (s, accepted) phase
        return (sn, updates.map some)) := by
  rcases h.run_cases hes (List.append_nil es).symm accepted with
    ⟨c, hrun, hc⟩ | ⟨hrun, k, hk, herr⟩
  · have hok : ∀ k ∈ phase, evaluate pool seed s k = .ok (proposed pool seed s k) :=
      fun k hk => (hc.evaluated k (hes.evaluate_mem hk)).1
    have hupdates : phase.map c.updates = (phase.map (proposed pool seed s)).map some := by
      rw [List.map_map]
      exact List.map_congr_left fun k hk => (hc.evaluated k (hes.evaluate_mem hk)).2
    rw [hrun, Checked.map_ok, hc.carried, hupdates,
      h.foldl_carry_perm hok (hes.committedLinks_perm h.nodup), Checked.mapM_eq_ok hok,
      Checked.ok_bind, h.parallelPhase_eq hok, Checked.ok_bind, Checked.pure_eq]
  · -- another link may stop the loop first, but it stops it with the same fault
    have hmap : phase.mapM (evaluate pool seed s) = .error .unsettled := by
      cases hall : phase.mapM (evaluate pool seed s) with
      | ok us => exact absurd hall (Checked.mapM_ne_ok hk herr us)
      | error e =>
          obtain ⟨j, hj, hje⟩ := Checked.mapM_eq_error hall
          rcases h.evaluate_cases j hj with ⟨u, hu⟩ | herr
          · rw [hu] at hje
            simp at hje
          · rw [herr, Except.error.injEq] at hje
            rw [hje]
    rw [hrun, hmap, Checked.map_error, Checked.error_bind]

end Isolated

end PureGauge
