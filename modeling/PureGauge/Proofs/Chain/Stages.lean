/-
**One call on a chain.**

A chain is changed by sweeps and by updates of single links.  Each call makes trials: a sweep one
for each link, with a generator that is seeded for it, and the update of a link a single one, with
the source of the engine.  A stage is a call together with the chain it was made on, its trials and
the chain it has left, and the laws of this module say of a stage which trials were made and what
became of the matrices, of the counters and of the source.

Main definitions:

* `PureGauge.Call` — sweeps and single updates, with `PureGauge.Call.run` and
  `PureGauge.Call.trials`;
* `PureGauge.Stage`, `PureGauge.Stage.Carried` — a call that was carried out;
* `PureGauge.Stage.SweepLaw`, `PureGauge.Stage.UpdateLaw`, `PureGauge.Stage.Lawful` — the laws.

Main results:

* `PureGauge.Chain.Ready.stage` — the calls obey them.
-/
import PureGauge.Proofs.Simulation.Twins
import PureGauge.Proofs.Sweep.Provenance

namespace PureGauge

variable {R G : Type}

/-! ### Calls -/

/-- What can be done with a chain. -/
inductive Call where
  /-- A sweep over all links. -/
  | sweep
  /-- An update of a single link. -/
  | updateLink (k : Link)

/-- The link of a single update leaves its point in one of the four directions, and the point can be
moved by one either way. -/
def Call.Within : Call → Prop
  | sweep => True
  | updateLink k => k.dir.index.toNat < Direction.count ∧ k.pos.Inner

/-- A call that was carried out: the chain it was made on, its trials in the order in which they
were evaluated, and the chain it has left. -/
structure Stage (R G : Type) where
  call : Call
  before : Chain R G
  trials : List (Trial R)
  after : Chain R G

/-- A chain with the same lattice and coupling, as many matrices, and the same pool and
execution. -/
structure Chain.SameSetting (c d : Chain R G) : Prop where
  lattice_eq : d.state.lattice = c.state.lattice
  beta_eq : d.state.beta = c.state.beta
  size_eq : d.state.links.size = c.state.links.size
  pool_eq : d.engine.pool = c.engine.pool
  execution_eq : d.engine.execution = c.engine.execution

namespace Chain.SameSetting

variable {c d e : Chain R G}

theorem refl (c : Chain R G) : c.SameSetting c := ⟨rfl, rfl, rfl, rfl, rfl⟩

theorem trans (h : c.SameSetting d) (h' : d.SameSetting e) : c.SameSetting e :=
  ⟨h'.lattice_eq.trans h.lattice_eq, h'.beta_eq.trans h.beta_eq, h'.size_eq.trans h.size_eq,
    h'.pool_eq.trans h.pool_eq, h'.execution_eq.trans h.execution_eq⟩

theorem ready (h : c.SameSetting d) (hc : c.Ready) : d.Ready where
  complete :=
    { dim_pos := h.lattice_eq ▸ hc.complete.dim_pos
      links_lt := h.lattice_eq ▸ hc.complete.links_lt
      size_eq := by rw [h.size_eq, h.lattice_eq, hc.complete.size_eq] }
  pool_pos := h.pool_eq ▸ hc.pool_pos

end Chain.SameSetting

variable [WordSource G] [Zero R] [One R] [Add R] [Sub R] [Mul R] [Neg R] [Div R] [NatCast R]
  [Acceptance R]

namespace Call

/-- A call on a chain. -/
def run : Call → EStateM Fault (Chain R G) Unit
  | sweep => do
      let _ ← Chain.sweep
      return ()
  | updateLink k => do
      let _ ← Chain.updateLink k
      return ()

/-- The trials that a call makes on a chain, in the order in which they are evaluated. -/
def trials (c : Chain R G) : Call → Checked (List (Trial R))
  | sweep => do
      let drawn ← WordSource.next c.engine.source
      let traced ← tracedSweep c.engine.pool c.engine.execution drawn.1 c.state
      traced.2.mapM fun iu => Trial.of c.engine.pool (linkSource drawn.1 iu.1) iu
  | updateLink k => do
      let i ← c.state.lattice.linkIndex k
      match propose c.engine.pool c.state k c.engine.source with
      | .ok update _ => return [← Trial.of c.engine.pool c.engine.source (i, update)]
      | .error fault _ => .error fault

/-- The generators that a call would choose factors with do not all lead to a choice: for some of
them no attempt is accepted. -/
def Starved (c : Chain R G) : Call → Prop
  | sweep => ∃ seed source, WordSource.next c.engine.source = .ok (seed, source) ∧
      ¬ c.engine.pool.Serves seed (4 * c.state.lattice.dim.toNat ^ 4)
  | updateLink _ => ¬ Draw.Settles c.engine.pool.choose c.engine.source

end Call

/-! ### Laws -/

namespace Stage

/-- The call has left the chain that the stage names, and made its trials. -/
structure Carried (st : Stage R G) : Prop where
  run_eq : st.call.run st.before = .ok () st.after
  trials_eq : st.call.trials st.before = .ok st.trials

omit [WordSource G] [Neg R] [Div R] [NatCast R] [Acceptance R] in
/-- A trial was made for the matrix that its link had before the call, and the call has left this
matrix or, if the trial was accepted, its product with the factor. -/
def Moves (st : Stage R G) (t : Trial R) : Prop :=
  ∃ old, st.before.state.links.data[t.number]? = some old ∧ t.update.proposed = old * t.factor ∧
    st.after.state.links.data[t.number]? =
      some (if t.update.accepted then old * t.factor else old)

/-- What a sweep does: it takes one word, makes one trial for each of the links with a generator of
its own, and counts the accepted ones. -/
structure SweepLaw (st : Stage R G) (seed : UInt64) (links : ℕ) : Prop where
  word : WordSource.next st.before.engine.source = .ok (seed, st.after.engine.source)
  seed_inj : ∀ i < links, ∀ j < links, seed + UInt64.ofNat i = seed + UInt64.ofNat j → i = j
  numbers : (st.trials.map Trial.number).Perm (List.range links)
  chosen : ∀ t ∈ st.trials, ∃ g,
    st.before.engine.pool.choose (Xoshiro.ofSeed (seed + UInt64.ofNat t.number)) = .ok t.factor g
  moves : ∀ t ∈ st.trials, st.Moves t
  accepted_eq : st.after.engine.accepted = Trial.acceptedCount st.trials
  accepted_le : st.after.engine.accepted ≤ links

/-- What the update of a link does: it makes one trial, with random words from the engine, and
leaves the counters of the last sweep as they are. -/
structure UpdateLaw (st : Stage R G) (k : Link) : Prop where
  trial : ∃ t, st.trials = [t] ∧ st.before.state.lattice.linkIndex k = .ok t.number ∧
    (∃ g, st.before.engine.pool.choose st.before.engine.source = .ok t.factor g) ∧ st.Moves t
  accepted_eq : st.after.engine.accepted = st.before.engine.accepted
  rate_eq : st.after.engine.rate = st.before.engine.rate

/-- A stage on a lattice with so many links: it keeps the setting of the chain, multiplies the
matrices with the factors of its accepted trials, which are matrices of the pool, and obeys the law
of its call. -/
structure Lawful (st : Stage R G) (links : ℕ) : Prop where
  sameSetting : st.before.SameSetting st.after
  multiplied : st.before.state.links.Multiplied st.after.state.links st.trials
  factor_mem : ∀ t ∈ st.trials, t.factor ∈ st.before.engine.pool.matrices
  law : match st.call with
    | .sweep => ∃ seed, st.SweepLaw seed links
    | .updateLink k => st.UpdateLaw k

end Stage

/-! ### Updates of single links -/

/-- The update of a link makes a proposal with the source of the engine, and replaces the matrix of
the link if the proposal is accepted. -/
theorem Chain.updateLink_apply (c : Chain R G) (k : Link) :
    Chain.updateLink k c =
      match PureGauge.propose c.engine.pool c.state k c.engine.source with
      | .error fault source => .error fault { c with engine := { c.engine with source := source } }
      | .ok update source =>
          if update.accepted then
            match c.state.setLink k update.proposed with
            | .error fault => .error fault { c with engine := { c.engine with source := source } }
            | .ok state => .ok update ⟨{ c.engine with source := source }, state⟩
          else .ok update { c with engine := { c.engine with source := source } } := by
  have hget : (EStateM.get : EStateM Fault (Chain R G) (Chain R G)) c = .ok c c := rfl
  simp only [EStateM.bind, Chain.updateLink, Chain.propose, Chain.draw, bind, get, getThe,
    MonadStateOf.get, hget]
  cases PureGauge.propose c.engine.pool c.state k c.engine.source with
  | error fault source => rfl
  | ok update source =>
      cases haccepted : update.accepted with
      | false => simp [haccepted, pure, EStateM.pure]
      | true =>
          simp only [haccepted, if_true, EStateM.bind, Chain.checked]
          cases c.state.setLink k update.proposed with
          | error fault => rfl
          | ok state => rfl

/-! ### Sweeps -/

omit [WordSource G] [Zero R] [One R] [Add R] [Sub R] [Mul R] [Neg R] [Div R] [NatCast R]
  [Acceptance R] in
/-- The generators of different links have different seeds. -/
theorem seed_add_inj (seed : UInt64) {i j : ℕ} (hi : i < 2 ^ 64) (hj : j < 2 ^ 64)
    (h : seed + UInt64.ofNat i = seed + UInt64.ofNat j) : i = j := by
  have hword : UInt64.ofNat i = UInt64.ofNat j := (UInt64.add_right_inj seed).1 h
  have hnat := congrArg UInt64.toNat hword
  rwa [UInt64.toNat_ofNat_of_lt' hi, UInt64.toNat_ofNat_of_lt' hj] at hnat

omit [WordSource G] [Neg R] [Div R] [NatCast R] [Acceptance R] in
/-- A trial that is the only one for its link, and was made for the matrix of the link before the
call. -/
theorem Stage.moves_of_multiplied {st : Stage R G}
    (h : st.before.state.links.Multiplied st.after.state.links st.trials)
    (hnodup : (st.trials.map Trial.number).Nodup) {t : Trial R} (ht : t ∈ st.trials) {old : Mat3 R}
    (hold : st.before.state.links.data[t.number]? = some old)
    (hproposed : t.update.proposed = old * t.factor) : st.Moves t := by
  refine ⟨old, hold, hproposed, ?_⟩
  rw [h t.number, hold, Trial.acceptedFactors_of_mem hnodup ht, Option.map_some]
  split
  · rfl
  · rfl

namespace Call

variable {c : Chain R G} {seed : UInt64} {source : G}

/-- The chain that a sweep with a given word leaves. -/
theorem run_sweep (h : c.Ready) (hword : WordSource.next c.engine.source = .ok (seed, source))
    {sn : LatticeState R × ℕ}
    (hsweep : sweepWith c.engine.pool c.engine.execution seed c.state = .ok sn) :
    sweep.run c = .ok () (c.swept source (sn, 4 * c.state.lattice.dim.toNat ^ 4)) := by
  have houtcome : c.outcome seed = .ok (sn, 4 * c.state.lattice.dim.toNat ^ 4) := by
    rw [Chain.outcome, hsweep, Checked.ok_bind, h.complete.fills.numbered.linkCount_eq,
      Checked.ok_bind, Checked.pure_eq]
  change EStateM.bind Chain.sweep _ c = _
  simp only [EStateM.bind, Chain.sweep_apply, hword, houtcome]
  rfl

/-- A sweep stops with the fault of its phases. -/
theorem run_sweep_error (hword : WordSource.next c.engine.source = .ok (seed, source))
    {fault : Fault}
    (hsweep : sweepWith c.engine.pool c.engine.execution seed c.state = .error fault) :
    ∃ d, sweep.run c = .error fault d := by
  have houtcome : c.outcome seed = .error fault := by
    rw [Chain.outcome, hsweep, Checked.error_bind]
  refine ⟨{ c with engine := { c.engine with source := source } }, ?_⟩
  change EStateM.bind Chain.sweep _ c = _
  simp only [EStateM.bind, Chain.sweep_apply, hword, houtcome]

/-- The call that updates a link leaves the chain that the update leaves. -/
theorem run_updateLink (c : Chain R G) (k : Link) :
    (updateLink k).run c =
      match propose c.engine.pool c.state k c.engine.source with
      | .error fault source => .error fault { c with engine := { c.engine with source := source } }
      | .ok update source =>
          if update.accepted then
            match c.state.setLink k update.proposed with
            | .error fault => .error fault { c with engine := { c.engine with source := source } }
            | .ok state => .ok () ⟨{ c.engine with source := source }, state⟩
          else .ok () { c with engine := { c.engine with source := source } } := by
  change EStateM.bind (Chain.updateLink k) _ c = _
  rw [EStateM.bind, Chain.updateLink_apply]
  cases propose c.engine.pool c.state k c.engine.source with
  | error fault source => rfl
  | ok update source =>
      cases haccepted : update.accepted with
      | false => simp [haccepted, pure, EStateM.pure]
      | true =>
          simp only [haccepted, if_true]
          cases c.state.setLink k update.proposed with
          | error fault => rfl
          | ok state => rfl

end Call

namespace Chain.Ready

variable {c : Chain R G}

/-- A sweep of a chain with an endless source is a lawful stage, unless for some link no attempt to
choose a factor was accepted. -/
theorem sweep_stage (h : c.Ready) (hG : Endless G) :
    (∃ st : Stage R G, st.call = .sweep ∧ st.before = c ∧ st.Carried ∧
        st.Lawful (4 * c.state.lattice.dim.toNat ^ 4)) ∨
      (∃ d, Call.sweep.run c = .error .unsettled d) ∧ Call.sweep.Starved c := by
  obtain ⟨seed, source, hword⟩ := hG c.engine.source
  have hlt := h.complete.links_lt
  rcases h.complete.account_sweep h.pool_pos seed c.engine.execution with
    ⟨traced, ts, htraced, haccount, hnumbers⟩ | ⟨herr, hserves⟩
  · have hsweep : sweepWith c.engine.pool c.engine.execution seed c.state = .ok traced.1 := by
      rw [← map_fst_tracedSweep, htraced, Checked.map_ok]
    have htrials : Call.sweep.trials c = .ok ts := by
      rw [Call.trials, hword, Checked.ok_bind, htraced, Checked.ok_bind]
      exact haccount.trials_eq
    have hnodup : (ts.map Trial.number).Nodup := hnumbers.nodup_iff.2 List.nodup_range
    have haccepted : traced.1.2 = Trial.acceptedCount ts := by
      rw [haccount.accepted_eq, Nat.zero_add]
    have hcount : ts.length = 4 * c.state.lattice.dim.toNat ^ 4 := by
      rw [← List.length_map, hnumbers.length_eq, List.length_range]
    refine Or.inl ⟨⟨.sweep, c, ts, _⟩, rfl, rfl, ⟨Call.run_sweep h hword hsweep, htrials⟩, ?_⟩
    refine ⟨⟨haccount.sameShape.lattice_eq, haccount.sameShape.beta_eq, haccount.sameShape.size_eq,
      rfl, rfl⟩, haccount.multiplied, fun t ht => ?_, seed, ?_⟩
    · obtain ⟨g, hg⟩ := haccount.chosen t ht
      exact Pool.mem_of_choose hg
    · refine ⟨hword, fun i hi j hj => seed_add_inj seed (hi.trans hlt) (hj.trans hlt), hnumbers,
        haccount.chosen, fun t ht => ?_, haccepted, ?_⟩
      · obtain ⟨old, hold, hproposed⟩ := haccount.proposed t ht
        exact Stage.moves_of_multiplied haccount.multiplied hnodup ht hold hproposed
      · exact haccepted.trans_le (hcount ▸ Trial.acceptedCount_le ts)
  · have hsweep : sweepWith c.engine.pool c.engine.execution seed c.state = .error .unsettled := by
      rw [← map_fst_tracedSweep, herr, Checked.map_error]
    exact Or.inr ⟨Call.run_sweep_error hword hsweep, seed, source, hword, hserves⟩

/-- The update of a link with an endless source is a lawful stage, unless no attempt to choose a
factor was accepted. -/
theorem updateLink_stage (h : c.Ready) (hG : Endless G) {k : Link}
    (hk : (Call.updateLink k).Within) :
    (∃ st : Stage R G, st.call = .updateLink k ∧ st.before = c ∧ st.Carried ∧
        st.Lawful (4 * c.state.lattice.dim.toNat ^ 4)) ∨
      (∃ d, (Call.updateLink k).run c = .error .unsettled d) ∧ (Call.updateLink k).Starved c := by
  have : NeZero c.state.lattice.dim.toNat := ⟨h.complete.dim_pos.ne'⟩
  have hfills := h.complete.fills
  obtain ⟨p, d⟩ := k
  obtain ⟨μ, rfl⟩ := Direction.exists_along hk.1
  have hindex := hfills.numbered.linkIndex_eq p μ
  rcases propose_trial hG hfills h.pool_pos hk.2 μ c.engine.source with
    ⟨t, source, ht, hnumber, ⟨g, hchosen⟩, hproposed⟩ | ⟨⟨source, herr⟩, hsettles⟩
  · have hold := hfills.getElem?_eq (p.site _) μ
    rw [← hnumber] at hold hindex
    have htrials : (Call.updateLink ⟨p, .along μ⟩).trials c = .ok [t] := by
      rw [Call.trials, hindex, Checked.ok_bind]
      simp only [ht, Trial.of_eq hchosen, Checked.ok_bind, Checked.pure_eq]
    have hlaw : ∀ after : Chain R G, after.engine = { c.engine with source := source } →
        c.state.links.Multiplied after.state.links [t] →
          Stage.UpdateLaw ⟨.updateLink ⟨p, .along μ⟩, c, [t], after⟩ ⟨p, .along μ⟩ := by
      intro after hengine hmultiplied
      have hmoves : Stage.Moves ⟨.updateLink ⟨p, .along μ⟩, c, [t], after⟩ t :=
        Stage.moves_of_multiplied hmultiplied (by exact List.nodup_singleton t.number)
          (by exact List.mem_singleton_self t) hold hproposed
      exact ⟨⟨t, rfl, hindex, ⟨g, hchosen⟩, hmoves⟩, by rw [hengine], by rw [hengine]⟩
    have hmem : ∀ u ∈ [t], u.factor ∈ c.engine.pool.matrices := by
      intro u hu
      rw [List.mem_singleton] at hu
      exact hu ▸ Pool.mem_of_choose hchosen
    have hrun := Call.run_updateLink c ⟨p, .along μ⟩
    simp only [ht] at hrun
    cases haccepted : t.update.accepted with
    | false =>
        rw [haccepted] at hrun
        have hmultiplied := c.state.links.multiplied_of_rejected haccepted
        exact Or.inl ⟨⟨.updateLink ⟨p, .along μ⟩, c, [t], _⟩, rfl, rfl, ⟨hrun, htrials⟩,
          ⟨⟨rfl, rfl, rfl, rfl, rfl⟩, hmultiplied, hmem, hlaw _ rfl hmultiplied⟩⟩
    | true =>
        have hset : c.state.setLink ⟨p, .along μ⟩ t.update.proposed =
            .ok { c.state with links :=
              ⟨c.state.links.data.setIfInBounds t.number t.update.proposed⟩ } := by
          rw [LatticeState.setLink, hindex, Checked.ok_bind, Checked.pure_eq]
        rw [haccepted, if_pos rfl, hset] at hrun
        have hmultiplied := LinkField.multiplied_of_accepted haccepted hold
        rw [← hproposed] at hmultiplied
        exact Or.inl ⟨⟨.updateLink ⟨p, .along μ⟩, c, [t], _⟩, rfl, rfl, ⟨hrun, htrials⟩,
          ⟨⟨rfl, rfl, Array.size_setIfInBounds .., rfl, rfl⟩, hmultiplied, hmem,
            hlaw _ rfl hmultiplied⟩⟩
  · have hrun := Call.run_updateLink c ⟨p, .along μ⟩
    simp only [herr] at hrun
    exact Or.inr ⟨⟨_, hrun⟩, hsettles⟩

/-- Every call on a chain with an endless source is a lawful stage, unless no attempt to choose a
factor was accepted. -/
theorem stage (h : c.Ready) (hG : Endless G) {call : Call} (hcall : call.Within) :
    (∃ st : Stage R G, st.call = call ∧ st.before = c ∧ st.Carried ∧
        st.Lawful (4 * c.state.lattice.dim.toNat ^ 4)) ∨
      (∃ d, call.run c = .error .unsettled d) ∧ call.Starved c := by
  cases call with
  | sweep => exact h.sweep_stage hG
  | updateLink k => exact h.updateLink_stage hG hcall

end Chain.Ready

end PureGauge
