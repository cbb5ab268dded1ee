/-
**Where the matrices of a chain come from.**

Calls on a chain are made one after the other, each on the chain that the one before has left.  The
history of a run is the list of its stages.  By the laws of the stages, a matrix is multiplied from
the right with one factor for each accepted trial for its link and is not written otherwise, so that
after any run it is the product, from the left to the right, of the matrix it was at the beginning
and of those factors.

Main definitions:

* `PureGauge.Call.runAll` — calls one after the other;
* `PureGauge.History` — the stages that lead from a chain to another one;
* `PureGauge.Stage.lastAccepted` — the number of trials that the last sweep has accepted.

Main results:

* `PureGauge.Chain.Ready.history` — the history of every run, as far as it goes;
* `PureGauge.Chain.Ready.provenance` — every matrix is a product of an initial one and of factors
  that were accepted for its link.
-/
import PureGauge.Proofs.Chain.Stages

namespace PureGauge

variable {R G : Type} [WordSource G] [Zero R] [One R] [Add R] [Sub R] [Mul R] [Neg R] [Div R]
  [NatCast R] [Acceptance R]

/-- Calls on a chain one after the other, up to the first one that stops with a fault. -/
def Call.runAll : List Call → EStateM Fault (Chain R G) Unit
  | [] => pure ()
  | call :: calls => do
      call.run
      runAll calls

/-- The stages that lead from a chain to another one: each is made on the chain that the one before
has left. -/
inductive History : Chain R G → List (Stage R G) → Chain R G → Prop
  | nil (c : Chain R G) : History c [] c
  | cons {st : Stage R G} {stages : List (Stage R G)} {d : Chain R G} :
      st.Carried → History st.after stages d → History st.before (st :: stages) d

/-- The number of trials that the last sweep of a history has accepted, or a given number if there
is no sweep in it. -/
def Stage.lastAccepted (given : ℕ) : List (Stage R G) → ℕ
  | [] => given
  | st :: stages =>
      match st.call with
      | .sweep => lastAccepted (Trial.acceptedCount st.trials) stages
      | .updateLink _ => lastAccepted given stages

/-! ### Histories -/

/-- What is known of a history whose stages are lawful: the setting of the chain is kept, the
matrices are multiplied by the factors of all accepted trials, and the counter is that of the last
sweep. -/
structure History.Lawful (c : Chain R G) (stages : List (Stage R G)) (d : Chain R G) : Prop where
  history : History c stages d
  sameSetting : c.SameSetting d
  multiplied : c.state.links.Multiplied d.state.links (stages.flatMap Stage.trials)
  stages_lawful : ∀ st ∈ stages,
    c.SameSetting st.before ∧ st.Lawful (4 * c.state.lattice.dim.toNat ^ 4)
  accepted_eq : d.engine.accepted = Stage.lastAccepted c.engine.accepted stages

namespace History.Lawful

variable {c d : Chain R G} {st : Stage R G} {stages : List (Stage R G)}

theorem nil (c : Chain R G) : History.Lawful c [] c where
  history := .nil c
  sameSetting := .refl c
  multiplied := .refl c.state.links
  stages_lawful := fun st hst => by simp at hst
  accepted_eq := rfl

omit [Neg R] [Div R] [NatCast R] [Acceptance R] in
/-- The counter after a stage is what the rest of the history starts from. -/
theorem lastAccepted_cons {links : ℕ} (hst : st.Lawful links) :
    Stage.lastAccepted st.before.engine.accepted (st :: stages) =
      Stage.lastAccepted st.after.engine.accepted stages := by
  have hlaw := hst.law
  rw [Stage.lastAccepted]
  cases hcall : st.call with
  | sweep =>
      rw [hcall] at hlaw
      obtain ⟨seed, hlaw⟩ := hlaw
      rw [hlaw.accepted_eq]
  | updateLink k =>
      rw [hcall] at hlaw
      rw [hlaw.accepted_eq]

/-- A lawful stage before a lawful history. -/
theorem cons (hcarried : st.Carried) (hst : st.Lawful (4 * st.before.state.lattice.dim.toNat ^ 4))
    (h : History.Lawful st.after stages d) : History.Lawful st.before (st :: stages) d where
  history := .cons hcarried h.history
  sameSetting := hst.sameSetting.trans h.sameSetting
  multiplied := by
    rw [List.flatMap_cons]
    exact hst.multiplied.trans h.multiplied
  stages_lawful := by
    intro su hsu
    rcases List.mem_cons.1 hsu with rfl | hsu
    · exact ⟨.refl _, hst⟩
    · obtain ⟨hsetting, hlawful⟩ := h.stages_lawful su hsu
      rw [hst.sameSetting.lattice_eq] at hlawful
      exact ⟨hst.sameSetting.trans hsetting, hlawful⟩
  accepted_eq := by rw [h.accepted_eq, lastAccepted_cons hst]

end History.Lawful

namespace Chain.Ready

variable {c : Chain R G}

/-- Every run has a lawful history as far as it goes: it goes through all of its calls, unless in
one of them no attempt to choose a factor was accepted. -/
theorem history (h : c.Ready) (hG : Endless G) (calls : List Call)
    (hcalls : ∀ call ∈ calls, call.Within) :
    ∃ stages d, History.Lawful c stages d ∧
      (Call.runAll calls c = .ok () d ∧ stages.map Stage.call = calls ∨
        ∃ call rest d', calls = stages.map Stage.call ++ call :: rest ∧ call.Starved d ∧
          Call.runAll calls c = .error .unsettled d') := by
  induction calls generalizing c with
  | nil => exact ⟨[], c, .nil c, Or.inl ⟨rfl, rfl⟩⟩
  | cons call calls ih =>
      have hrun : Call.runAll (call :: calls) c =
          EStateM.bind call.run (fun _ => Call.runAll calls) c :=
        rfl
      rw [EStateM.bind] at hrun
      rcases h.stage hG (hcalls call (by simp)) with ⟨st, rfl, rfl, hcarried, hst⟩ |
        ⟨⟨d, hd⟩, hstarved⟩
      · rw [hcarried.run_eq] at hrun
        obtain ⟨stages, d, hlawful, hend⟩ :=
          ih (hst.sameSetting.ready h) fun call hcall => hcalls call (by simp [hcall])
        refine ⟨st :: stages, d, hlawful.cons hcarried hst, ?_⟩
        rcases hend with ⟨hok, hcalls⟩ | ⟨call, rest, d', hcalls, hstarved, herr⟩
        · exact Or.inl ⟨hrun.trans hok, by rw [List.map_cons, hcalls]⟩
        · exact Or.inr ⟨call, rest, d', by rw [hcalls, List.map_cons, List.cons_append], hstarved,
            hrun.trans herr⟩
      · rw [hd] at hrun
        exact ⟨[], c, .nil c, Or.inr ⟨call, calls, d, rfl, hstarved, hrun⟩⟩

/-- **Provenance of the matrices.**  Whatever calls are made on a chain with an endless source, each
matrix that they leave is the product, from the left to the right, of the matrix it was at the
beginning and of one factor from the pool for each accepted trial for its link.  The stages obey the
laws of their calls, the counter is that of the last sweep, and lattice, coupling, number of
matrices, pool and execution stay as they are.  Only a source from which no attempt to choose a
factor is accepted ends the run early. -/
theorem provenance (h : c.Ready) (hG : Endless G) (calls : List Call)
    (hcalls : ∀ call ∈ calls, call.Within) :
    ∃ stages d, History c stages d ∧ c.SameSetting d ∧
      (∀ i < 4 * c.state.lattice.dim.toNat ^ 4, ∃ m, c.state.links.data[i]? = some m ∧
        d.state.links.data[i]? =
          some ((Trial.acceptedFactors i (stages.flatMap Stage.trials)).foldl (· * ·) m)) ∧
      (∀ st ∈ stages, c.SameSetting st.before ∧ st.Lawful (4 * c.state.lattice.dim.toNat ^ 4)) ∧
      d.engine.accepted = Stage.lastAccepted c.engine.accepted stages ∧
      (Call.runAll calls c = .ok () d ∧ stages.map Stage.call = calls ∨
        ∃ call rest d', calls = stages.map Stage.call ++ call :: rest ∧ call.Starved d ∧
          Call.runAll calls c = .error .unsettled d') := by
  obtain ⟨stages, d, hlawful, hend⟩ := h.history hG calls hcalls
  refine ⟨stages, d, hlawful.history, hlawful.sameSetting, fun i hi => ?_, hlawful.stages_lawful,
    hlawful.accepted_eq, hend⟩
  have hlt : i < c.state.links.data.size := hi.trans_eq h.complete.size_eq.symm
  refine ⟨c.state.links.data[i], Array.getElem?_eq_getElem hlt, ?_⟩
  rw [hlawful.multiplied i, Array.getElem?_eq_getElem hlt, Option.map_some]

end Chain.Ready

/-! ### A run on a single point -/

/-- A rule over the integers that accepts a change `δ` with the number `u` if `δ ≤ 64 * u`. -/
instance integerRule : Acceptance ℤ := ⟨fun δ => decide (δ ≤ 0), fun δ u => decide (δ ≤ 64 * u)⟩

/-- A cold chain on a single point, whose pool turns two of the components by a right angle. -/
def pointChain : Chain ℤ Xoshiro :=
  ⟨.ofPool ⟨#[.diagonal ⟨⟨0, 1⟩, ⟨0, -1⟩, 1⟩], ⟨0⟩⟩ (.ofSeed 7), ⟨⟨1⟩, 5, ⟨Array.replicate 4 1⟩⟩⟩

/-- The update of one link of the point, and then a sweep. -/
def pointCalls : List Call := [.updateLink ⟨.origin, .along 2⟩, .sweep]

theorem provenance_pointChain :
    ∃ stages d, History pointChain stages d ∧ pointChain.SameSetting d ∧
      (∀ i < 4, ∃ m, pointChain.state.links.data[i]? = some m ∧
        d.state.links.data[i]? =
          some ((Trial.acceptedFactors i (stages.flatMap Stage.trials)).foldl (· * ·) m)) ∧
      (∀ st ∈ stages, pointChain.SameSetting st.before ∧ st.Lawful 4) ∧
      d.engine.accepted = Stage.lastAccepted 0 stages ∧
      Call.runAll pointCalls pointChain = .ok () d ∧ stages.map Stage.call = pointCalls := by
  have hready : pointChain.Ready := ⟨⟨by decide, by decide, by decide⟩, by decide⟩
  have hcalls : ∀ call ∈ pointCalls, call.Within := by
    intro call hcall
    rcases List.mem_cons.1 hcall with rfl | hcall
    · exact ⟨by decide, by decide⟩
    · rw [List.mem_singleton.1 hcall]
      trivial
  obtain ⟨stages, d, hhistory, hsetting, hmatrices, hstages, haccepted, hend⟩ :=
    hready.provenance Xoshiro.endless pointCalls hcalls
  refine ⟨stages, d, hhistory, hsetting, hmatrices, hstages, haccepted, ?_⟩
  rcases hend with hok | ⟨call, rest, d', -, -, herr⟩
  · exact hok
  · have hcarried : (match Call.runAll pointCalls pointChain with
        | .ok _ _ => true
        | .error _ _ => false) = true := by
      decide +kernel
    rw [herr] at hcarried
    cases hcarried

end PureGauge
