/-
**Validation decides about simulations.**

The parameters of a simulation are looked at once before anything is drawn, and the constructors of
its parts look at some of them again.  The two never disagree: whatever validation lets pass, no
constructor refuses, and what it refuses is refused with the first objection and without a draw.  A
configuration that is let pass becomes a simulation exactly if there is room for the matrices of its
pool and of its links and the source serves the draws of them, and the simulation is then known
entry by entry.

Main definitions:

* `PureGauge.Config.objections` — what the parameters are refused for, in order;
* `PureGauge.Config.linkDraw`, `PureGauge.Config.field` — how the links of each start are drawn.

Main results:

* `PureGauge.Config.validate_eq_error_iff`, `PureGauge.Config.validate_eq_ok_iff` — validation by
  objections;
* `PureGauge.Simulation.startState_eq_ok_iff` — the states of a valid configuration;
* `PureGauge.Simulation.ofConfig_eq_ok_iff` — the simulations of a configuration;
* `PureGauge.Simulation.ofConfig_decided` — validation decides.
-/
import PureGauge.Proofs.Simulation.Construction

namespace PureGauge

variable {R G : Type}

/-! ### Objections -/

namespace Config

section

variable [Zero R] [LT R] [DecidableLT R] [LE R] [DecidableLE R] [RealFunctions R] {c : Config R}

/-- The errors of all parameters that rule a simulation out: of the size, the coupling, the spread
and the number of pairs. -/
def objections (c : Config R) : List (SimulationError R) :=
  (if c.points = 0 then [.state (.lattice .zeroSize)] else []) ++
    (if LatticeState.validBeta c.beta = true then [] else [.state (.nonPositiveBeta c.beta)]) ++
    (if 0 ≤ c.spread ∧ RealFunctions.isFinite c.spread = true then []
      else [.invalidSpread c.spread]) ++
    (if c.pairs = 0 then [.emptyPool] else [])

/-- Validation stops at the first objection, and without one the spread is what was asked for. -/
theorem validate_eq :
    c.validate = match c.objections with
      | [] => .ok ⟨c.spread⟩
      | e :: _ => .error e := by
  rw [validate, objections, Spread.ofReal?]
  by_cases hpoints : c.points = 0
  · rw [if_pos hpoints, if_pos hpoints]
    rfl
  by_cases hbeta : LatticeState.validBeta c.beta = true
  · rw [if_neg hpoints, if_neg hpoints, if_neg (not_not.2 hbeta), if_pos hbeta]
    by_cases hspread : 0 ≤ c.spread ∧ RealFunctions.isFinite c.spread = true
    · rw [if_pos hspread, if_pos hspread]
      by_cases hpairs : c.pairs = 0
      · rw [if_pos hpairs]
        simp [hpairs]
      · rw [if_neg hpairs]
        simp [hpairs]
    · rw [if_neg hspread, if_neg hspread]
      rfl
  · rw [if_neg hpoints, if_neg hpoints, if_pos hbeta, if_neg hbeta]
    rfl

theorem validate_eq_error_iff {e : SimulationError R} :
    c.validate = .error e ↔ c.objections.head? = some e := by
  rw [validate_eq]
  cases c.objections with
  | nil => simp
  | cons e' es => simp

/-- No parameter rules a simulation out. -/
structure Valid (c : Config R) : Prop where
  points : c.points ≠ 0
  beta : LatticeState.validBeta c.beta = true
  spread : 0 ≤ c.spread ∧ RealFunctions.isFinite c.spread = true
  pairs : c.pairs ≠ 0

theorem objections_eq_nil_iff : c.objections = [] ↔ c.Valid := by
  simp only [objections, List.append_eq_nil_iff, ite_eq_right_iff, ite_eq_left_iff,
    List.cons_ne_nil, imp_false, not_not]
  exact ⟨fun ⟨⟨⟨hpoints, hbeta⟩, hspread⟩, hpairs⟩ => ⟨hpoints, hbeta, hspread, hpairs⟩,
    fun h => ⟨⟨⟨h.points, h.beta⟩, h.spread⟩, h.pairs⟩⟩

theorem validate_eq_ok_iff {s : Spread R} : c.validate = .ok s ↔ c.Valid ∧ s = ⟨c.spread⟩ := by
  rw [validate_eq, ← objections_eq_nil_iff]
  cases c.objections with
  | nil => simp [eq_comm]
  | cons e es => simp

end

/-! ### Fields -/

section

variable [WordSource G] [NormalDeviate R] [Zero R] [One R] [Add R] [Sub R] [Mul R] [Neg R] [Div R]
  [NatCast R] [BEq R] [LT R] [DecidableLT R] [LE R] [DecidableLE R] [RealFunctions R] {c : Config R}

/-- The matrix of one link; the identity of a cold start takes no words. -/
def linkDraw (c : Config R) (s : Spread R) : Draw G (Mat3 R) :=
  match c.start with
  | .cold => return 1
  | .hot => Mat3.haar
  | .nearUnity => Mat3.nearUnity s

/-- All matrices that are drawn for a configuration: the first one of each pair of the pool, and
those of the links. -/
def matrices (c : Config R) (s : Spread R) : Draw G (List (Mat3 R) × List (Mat3 R)) := do
  let made ← Draw.times c.pairs.toNat (Mat3.nearUnity s)
  let links ← Draw.times (4 * c.points.toNat ^ 4) (c.linkDraw s)
  return (made, links)

/-- The field that a configuration starts from. -/
def field (c : Config R) (s : Spread R) (l : Lattice) : Draw G (LinkField R) :=
  match c.start with
  | .cold => Draw.checked (LinkField.cold l)
  | .hot => LinkField.hot l
  | .nearUnity => LinkField.nearUnity l s

end

end Config

/-- So many draws that take no words. -/
theorem Draw.times_pure {α : Type} (n : ℕ) (a : α) (g : G) :
    Draw.times n (pure a) g = .ok (List.replicate n a) g := by
  rw [times]
  induction n with
  | zero => rfl
  | succ n ih =>
      rw [List.replicate_succ, List.mapM_cons, id, bind_of_ok (pure_apply a g), bind_of_ok ih]; rfl

/-- Where there is room for the matrices of all links, they can be counted by words. -/
theorem Lattice.HasRoom.linkCount_eq {l : Lattice} (h : l.HasRoom) :
    l.linkCount = .ok (4 * l.dim.toNat ^ 4) := by
  have hplanes := h.planes_lt
  have hnumbered : l.Numbered l.dim.toNat := ⟨rfl, by omega⟩
  exact hnumbered.linkCount_eq

namespace LinkField

/-- A field is drawn exactly if there is room for it and each of its matrices is drawn. -/
theorem drawn_eq_ok_iff_times {l : Lattice} {draw : Draw G (Mat3 R)} {f : LinkField R} {g g' : G} :
    drawn l draw g = .ok f g' ↔
      l.HasRoom ∧ ∃ ms, Draw.times (4 * l.dim.toNat ^ 4) draw g = .ok ms g' ∧ f = ⟨ms.toArray⟩ := by
  rw [drawn_eq_ok_iff]
  constructor
  · rintro ⟨n, ms, hcount, hroom, hms, hf⟩
    obtain rfl := Lattice.eq_of_linkCount hcount
    exact ⟨hroom, ms, hms, hf⟩
  · rintro ⟨hroom, ms, hms, hf⟩
    exact ⟨_, ms, hroom.linkCount_eq, hroom, hms, hf⟩

theorem cold_eq_ok_iff [Zero R] [One R] {l : Lattice} {f : LinkField R} :
    cold l = .ok f ↔ l.HasRoom ∧ f = ⟨Array.replicate (4 * l.dim.toNat ^ 4) 1⟩ := by
  constructor
  · intro h
    obtain ⟨count, hcount, hf⟩ := Checked.bind_eq_ok_iff.1 h
    obtain ⟨_, -, hf⟩ := Checked.bind_eq_ok_iff.1 hf
    cases hf
    exact ⟨hasRoom_of_cold h, by rw [Lattice.eq_of_linkCount hcount]⟩
  · rintro ⟨hroom, rfl⟩
    rw [cold, hroom.linkCount_eq, Checked.ok_bind, Storage.room_eq_ok_iff.2 hroom, Checked.ok_bind,
      Checked.pure_eq]

end LinkField

section

variable [WordSource G] [NormalDeviate R] [Zero R] [One R] [Add R] [Sub R] [Mul R] [Neg R] [Div R]
  [NatCast R] [BEq R] [LT R] [DecidableLT R] [LE R] [DecidableLE R] [RealFunctions R] {c : Config R}
  {spread : Spread R} {g g' : G}

/-- For each of the starts the field is a matter of room and of the draws of its matrices. -/
theorem Config.field_eq_ok_iff {l : Lattice} {f : LinkField R} :
    c.field spread l g = .ok f g' ↔ l.HasRoom ∧
      ∃ ms, Draw.times (4 * l.dim.toNat ^ 4) (c.linkDraw spread) g = .ok ms g' ∧
        f = ⟨ms.toArray⟩ := by
  rw [field, linkDraw]
  cases c.start with
  | cold =>
      rw [Draw.checked_eq_ok_iff, LinkField.cold_eq_ok_iff, Draw.times_pure, and_assoc]
      refine and_congr_right fun _ => ⟨?_, ?_⟩
      · rintro ⟨rfl, rfl⟩
        exact ⟨_, rfl, by rw [List.toArray_replicate]⟩
      · rintro ⟨ms, hms, rfl⟩
        cases hms
        exact ⟨by rw [List.toArray_replicate], rfl⟩
  | hot => exact LinkField.drawn_eq_ok_iff_times
  | nearUnity => exact LinkField.drawn_eq_ok_iff_times

/-! ### States -/

namespace Simulation

theorem startState_eq :
    (startState c spread : Draw G _) = LatticeState.start c.points c.beta (c.field spread) := by
  rw [startState]
  unfold Config.field
  cases c.start with
  | cold => rfl
  | hot => rfl
  | nearUnity => rfl

/-- Of a valid configuration no state is refused: it has the coupling, and there are as many
matrices as links. -/
theorem startState_eq_ok_iff (h : c.Valid) {r : Except (StateError R) (LatticeState R)} :
    startState c spread g = .ok r g' ↔
      ∃ f, c.field spread ⟨c.points⟩ g = .ok f g' ∧ r = .ok ⟨⟨c.points⟩, c.beta, f⟩ := by
  have hsize : LatticeState.latticeOfSize (R := R) c.points = .ok ⟨c.points⟩ := by
    rw [LatticeState.latticeOfSize, Lattice.ofSize?]
    simp only [if_neg h.points]
  have hmade {f : LinkField R} {g g' : G} (hf : c.field spread ⟨c.points⟩ g = .ok f g') :
      LatticeState.ofField ⟨c.points⟩ c.beta f = .ok (.ok ⟨⟨c.points⟩, c.beta, f⟩) := by
    obtain ⟨hroom, ms, hms, rfl⟩ := Config.field_eq_ok_iff.1 hf
    refine LatticeState.ofField_eq_ok_iff.2 ⟨h.beta, ?_, rfl⟩
    rw [hroom.linkCount_eq, LinkField.size, List.size_toArray, Draw.length_of_times hms]
  rw [startState_eq, LatticeState.start, hsize]
  constructor
  · intro hstart
    obtain ⟨f, g₁, hf, hstart⟩ := Draw.bind_eq_ok_iff.1 hstart
    obtain ⟨hr, rfl⟩ := Draw.checked_eq_ok_iff.1 hstart
    rw [hmade hf, Except.ok.injEq] at hr
    exact ⟨f, hf, hr.symm⟩
  · rintro ⟨f, hf, rfl⟩
    exact Draw.bind_eq_ok_iff.2 ⟨f, g', hf, Draw.checked_eq_ok_iff.2 ⟨hmade hf, rfl⟩⟩

/-! ### Simulations -/

theorem drawParts_of_error {e : SimulationError R} (h : c.validate = .error e) (g : G) :
    drawParts c g = .ok (.error e) g := by
  rw [drawParts, h]
  rfl

/-- What is drawn for a configuration that is let pass: a pool and a field, and never an error. -/
theorem drawParts_eq_ok_iff (h : c.validate = .ok spread)
    {r : Except (SimulationError R) (Pool R × LatticeState R)} :
    drawParts c g = .ok r g' ↔ ∃ pool f g₁,
      Pool.generate c.pairs.toNat spread g = .ok (some pool) g₁ ∧
      c.field spread ⟨c.points⟩ g₁ = .ok f g' ∧ r = .ok (pool, ⟨⟨c.points⟩, c.beta, f⟩) := by
  obtain ⟨hvalid, -⟩ := Config.validate_eq_ok_iff.1 h
  have hpairs : c.pairs.toNat ≠ 0 := fun h0 => hvalid.pairs (UInt64.toNat_inj.1 h0)
  rw [drawParts, h]
  constructor
  · intro hparts
    obtain ⟨pool?, g₁, hpool, hparts⟩ := Draw.bind_eq_ok_iff.1 hparts
    cases pool? with
    | none => exact absurd (Pool.generate_eq_none_iff.1 hpool).1 hpairs
    | some pool =>
        obtain ⟨state?, g₂, hstate, hparts⟩ := Draw.bind_eq_ok_iff.1 hparts
        obtain ⟨f, hf, rfl⟩ := (startState_eq_ok_iff hvalid).1 hstate
        cases hparts
        exact ⟨pool, f, g₁, hpool, hf, rfl⟩
  · rintro ⟨pool, f, g₁, hpool, hf, rfl⟩
    refine Draw.bind_eq_ok_iff.2 ⟨some pool, g₁, hpool, ?_⟩
    exact Draw.bind_eq_ok_iff.2 ⟨_, g', (startState_eq_ok_iff hvalid).2 ⟨f, hf, rfl⟩, rfl⟩

/-- The simulation of a configuration is refused by validation or not at all. -/
theorem ofConfig_eq_error_iff {e : SimulationError R} :
    ofConfig c g = .ok (.error e) ↔ c.validate = .error e := by
  cases h : c.validate with
  | error e' =>
      rw [ofConfig, drawParts_of_error h]
      simp
  | ok spread =>
      refine iff_of_false (fun hconfig => ?_) fun hvalidate => by cases hvalidate
      rw [ofConfig] at hconfig
      cases hparts : drawParts c g with
      | error fault g' =>
          rw [hparts] at hconfig
          cases hconfig
      | ok r g' =>
          obtain ⟨pool, f, g₁, -, -, rfl⟩ := (drawParts_eq_ok_iff h).1 hparts
          rw [hparts] at hconfig
          cases hconfig

/-- A simulation is made of a configuration that is let pass exactly if there is room for its
matrices and all of them are drawn; and then it consists of these matrices. -/
theorem ofConfig_eq_ok_iff (h : c.validate = .ok spread) {s : Simulation R G} :
    ofConfig c g = .ok (.ok s) ↔
      Storage.Fits Storage.matrixBytes (2 * c.pairs.toNat) ∧ (Lattice.mk c.points).HasRoom ∧
        ∃ made links g', c.matrices spread g = .ok (made, links) g' ∧
          s = ofParts ⟨⟨c.points⟩, c.beta, ⟨links.toArray⟩⟩
            (.ofPool ⟨(Pool.withAdjoints made).toArray, spread⟩ g') c.spacing.toNat
              c.measurements.toNat := by
  obtain ⟨hvalid, -⟩ := Config.validate_eq_ok_iff.1 h
  have hpairs : 0 < c.pairs.toNat :=
    Nat.pos_of_ne_zero fun h0 => hvalid.pairs (UInt64.toNat_inj.1 h0)
  constructor
  · intro hconfig
    rw [ofConfig] at hconfig
    cases hparts : drawParts c g with
    | error fault g' =>
        rw [hparts] at hconfig
        cases hconfig
    | ok r g' =>
        obtain ⟨pool, f, g₁, hpool, hfield, rfl⟩ := (drawParts_eq_ok_iff h).1 hparts
        obtain ⟨-, hfits, made, hmade, rfl⟩ := Pool.generate_eq_some_iff.1 hpool
        obtain ⟨hroom, links, hlinks, rfl⟩ := Config.field_eq_ok_iff.1 hfield
        rw [hparts] at hconfig
        cases hconfig
        refine ⟨hfits, hroom, made, links, g', ?_, rfl⟩
        rw [Config.matrices, Draw.bind_of_ok hmade, Draw.bind_of_ok hlinks, Draw.pure_apply]
  · rintro ⟨hfits, hroom, made, links, g', hmatrices, rfl⟩
    obtain ⟨made', g₁, hmade, hmatrices⟩ := Draw.bind_eq_ok_iff.1 hmatrices
    obtain ⟨links', g₂, hlinks, hmatrices⟩ := Draw.bind_eq_ok_iff.1 hmatrices
    cases hmatrices
    have hpool := Pool.generate_eq_some_iff.2 ⟨hpairs, hfits, made, hmade, rfl⟩
    have hfield : c.field spread ⟨c.points⟩ g₁ = .ok ⟨links.toArray⟩ g' :=
      Config.field_eq_ok_iff.2 ⟨hroom, links, hlinks, rfl⟩
    rw [ofConfig, (drawParts_eq_ok_iff h).2 ⟨_, _, g₁, hpool, hfield, rfl⟩]

/-- **Validation decides about simulations.**  No simulation is made of a configuration if and only
if validation refuses it, with the same error, which is the first objection, and then nothing is
drawn.  If validation lets it pass then neither the pool nor the state is refused, whatever the
source, and a simulation is made exactly if there is room for the matrices and the source serves the
draws of all of them.  A simulation that is made has the size, the coupling and the protocol of the
configuration, one matrix for each link, two for each pair, the spread that was validated, and no
sweeps behind it. -/
theorem ofConfig_decided (c : Config R) :
    (∀ (e : SimulationError R) (source : G),
      ofConfig c source = .ok (.error e) ↔ c.validate = .error e) ∧
      (∀ e, c.validate = .error e ↔ c.objections.head? = some e) ∧
      (∀ (e : SimulationError R) (source : G), c.validate = .error e →
        drawParts c source = .ok (.error e) source) ∧
      (∀ (spread : Spread R) (source : G), c.validate = .ok spread →
        (∀ rest, Pool.generate c.pairs.toNat spread source ≠ .ok none rest) ∧
        (∀ e rest, startState c spread source ≠ .ok (.error e) rest) ∧
        ((∃ s, ofConfig c source = .ok (.ok s)) ↔
          Storage.Fits Storage.matrixBytes (2 * c.pairs.toNat) ∧
            Storage.Fits Storage.matrixBytes (4 * c.points.toNat ^ 4) ∧
              (c.matrices spread).Settles source)) ∧
      ∀ (source : G) (s : Simulation R G), ofConfig c source = .ok (.ok s) →
        c.validate = .ok s.chain.engine.pool.spread ∧ s.chain.engine.pool.spread.value = c.spread ∧
          s.chain.engine.pool.matrices.size = 2 * c.pairs.toNat ∧
          s.chain.state.lattice.dim = c.points ∧ s.chain.state.beta = c.beta ∧
          s.chain.state.links.size = 4 * c.points.toNat ^ 4 ∧
          s.spacing = c.spacing.toNat ∧ s.measurements = c.measurements.toNat ∧ s.sweeps = 0 := by
  refine ⟨fun e source => ofConfig_eq_error_iff, fun e => Config.validate_eq_error_iff,
    fun e source h => drawParts_of_error h source, fun spread source h => ?_, fun source s hs => ?_⟩
  · obtain ⟨hvalid, -⟩ := Config.validate_eq_ok_iff.1 h
    refine ⟨fun rest hnone => ?_, fun e rest herror => ?_, ?_, ?_⟩
    · exact hvalid.pairs (UInt64.toNat_inj.1 (Pool.generate_eq_none_iff.1 hnone).1)
    · obtain ⟨f, -, hf⟩ := (startState_eq_ok_iff hvalid).1 herror
      cases hf
    · rintro ⟨s, hs⟩
      obtain ⟨hfits, hroom, made, links, g', hmatrices, -⟩ := (ofConfig_eq_ok_iff h).1 hs
      exact ⟨hfits, hroom, (made, links), g', hmatrices⟩
    · rintro ⟨hfits, hroom, ⟨made, links⟩, g', hmatrices⟩
      exact ⟨_, (ofConfig_eq_ok_iff h).2 ⟨hfits, hroom, made, links, g', hmatrices, rfl⟩⟩
  · cases h : c.validate with
    | error e =>
        rw [ofConfig_eq_error_iff.2 h] at hs
        cases hs
    | ok spread =>
        obtain ⟨-, -, made, links, g', hmatrices, rfl⟩ := (ofConfig_eq_ok_iff h).1 hs
        obtain ⟨made', g₁, hmade, hmatrices⟩ := Draw.bind_eq_ok_iff.1 hmatrices
        obtain ⟨links', g₂, hlinks, hmatrices⟩ := Draw.bind_eq_ok_iff.1 hmatrices
        cases hmatrices
        refine ⟨rfl, ?_, ?_, rfl, rfl, ?_, rfl, rfl, rfl⟩
        · exact congrArg Spread.value (Config.validate_eq_ok_iff.1 h).2
        · change (Pool.withAdjoints made).toArray.size = _
          rw [List.size_toArray, Pool.length_withAdjoints, Draw.length_of_times hmade]
        · change links.toArray.size = _
          rw [List.size_toArray, Draw.length_of_times hlinks]

end Simulation

end

/-! ### A simulation over the rational numbers -/

/-- Words in the place of normal numbers. -/
instance wordDeviate : NormalDeviate ℚ where
  draw := do return ((← Draw.word).toNat : ℚ)

namespace Simulation

/-- A lattice of a single point, with links close to the identity and one pair of proposals. -/
def pointConfig : Config ℚ := ⟨1, 5, 1, 2, 8 / 3, 1, 10, .nearUnity⟩

/-- Parameters none of which is valid. -/
def invalidConfig : Config ℚ := ⟨0, 0, 1, 2, -1, 0, 10, .hot⟩

theorem ofConfig_decided_point :
    (∃ s : Simulation ℚ Tape,
      ofConfig pointConfig halfTape = .ok (.ok s) ∧ s.chain.state.links.size = 4 ∧
      s.chain.engine.pool.matrices.size = 2 ∧ s.chain.engine.pool.spread = ⟨8 / 3⟩) ∧
    invalidConfig.objections.length = 4 ∧
    ofConfig invalidConfig halfTape = .ok (.error (.state (.lattice .zeroSize))) ∧
    drawParts invalidConfig halfTape = .ok (.error (.state (.lattice .zeroSize))) halfTape := by
  have hvalid : pointConfig.validate = .ok ⟨8 / 3⟩ := by
    refine Config.validate_eq_ok_iff.2
      ⟨⟨by decide, by decide +kernel, ⟨by decide +kernel, rfl⟩, by decide⟩, rfl⟩
  obtain ⟨-, -, -, hpass, hmade⟩ := ofConfig_decided (G := Tape) pointConfig
  obtain ⟨-, -, hiff⟩ := hpass ⟨8 / 3⟩ halfTape hvalid
  obtain ⟨s, hs⟩ := hiff.2 ⟨by decide, by decide, by decide +kernel⟩
  obtain ⟨-, hspread, hpool, -, -, hlinks, -⟩ := hmade halfTape s hs
  obtain ⟨herror, hfirst, hnothing, -⟩ := ofConfig_decided (G := Tape) invalidConfig
  have hrefused := (hfirst (.state (.lattice .zeroSize))).2 rfl
  exact ⟨⟨s, hs, hlinks, hpool, congrArg Spread.mk hspread⟩, by decide +kernel,
    (herror _ halfTape).2 hrefused, hnothing _ halfTape hrefused⟩

end Simulation

end PureGauge
