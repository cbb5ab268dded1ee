/-
**The simulation of a configuration.**

A simulation is made of a configuration only if its state and its pool can be made.  The state then
has one matrix for each link of a lattice of the size that was asked for, and since there was room
for these matrices, the plaquettes can be counted by words as well.  So nothing can go wrong with
what is asked of a simulation that was made of a configuration.

Main results:

* `PureGauge.Simulation.of_startState` — a state that is started has room for its matrices;
* `PureGauge.Simulation.sound_of_ofConfig` — a simulation of a configuration is sound.
-/
import PureGauge.Proofs.Simulation.Requests

namespace PureGauge

variable {R G : Type}

/-! ### Room -/

/-- The number of links, if it is a word. -/
theorem Lattice.eq_of_linkCount {l : Lattice} {count : ℕ} (h : l.linkCount = .ok count) :
    count = 4 * l.dim.toNat ^ 4 := by
  obtain ⟨points, hpoints, hcount⟩ := Checked.bind_eq_ok_iff.1 h
  obtain ⟨rfl, -⟩ := pointCount_eq_of_ok hpoints
  obtain ⟨-, rfl⟩ := Word.mul_eq_ok_iff.1 hcount
  rw [Direction.count, Nat.mul_comm]

/-- The matrices of all links can be stored side by side. -/
def Lattice.HasRoom (l : Lattice) : Prop :=
  Storage.Fits Storage.matrixBytes (4 * l.dim.toNat ^ 4)

/-- Where there is room for the matrices of all links, the plaquettes can be counted by words. -/
theorem Lattice.HasRoom.planes_lt {l : Lattice} (h : l.HasRoom) : 6 * l.dim.toNat ^ 4 < 2 ^ 64 := by
  have hle : ((144 * (4 * l.dim.toNat ^ 4) : ℕ) : ℤ) ≤ 2 ^ 63 - 1 := h
  omega

theorem LinkField.hasRoom_of_cold [Zero R] [One R] {l : Lattice} {f : LinkField R}
    (h : LinkField.cold l = .ok f) : l.HasRoom := by
  obtain ⟨count, hcount, h⟩ := Checked.bind_eq_ok_iff.1 h
  obtain ⟨_, hroom, -⟩ := Checked.bind_eq_ok_iff.1 h
  rw [Lattice.HasRoom, ← Lattice.eq_of_linkCount hcount]
  exact Storage.room_eq_ok_iff.1 hroom

theorem LinkField.hasRoom_of_drawn {l : Lattice} {draw : Draw G (Mat3 R)} {f : LinkField R}
    {g g' : G} (h : LinkField.drawn l draw g = .ok f g') : l.HasRoom := by
  obtain ⟨count, _, hcount, hroom, -⟩ := LinkField.drawn_eq_ok_iff.1 h
  rwa [Lattice.HasRoom, ← Lattice.eq_of_linkCount hcount]

/-! ### States -/

section

variable [Zero R] [LT R] [DecidableLT R] [RealFunctions R]

/-- A state that is started has the size that was asked for, and a field was made for it. -/
theorem LatticeState.exists_field_of_start {n : UInt64} {beta : R}
    {field : Lattice → Draw G (LinkField R)} {s : LatticeState R} {g g' : G}
    (h : start n beta field g = .ok (.ok s) g') :
    n ≠ 0 ∧ s.lattice.dim = n ∧ ∃ f g₁, field s.lattice g = .ok f g₁ := by
  obtain ⟨hn, f, g₁, hf, hs⟩ := exists_ofField_of_start h
  obtain ⟨-, -, rfl⟩ := ofField_eq_ok_iff.1 hs
  exact ⟨hn, rfl, f, g₁, hf⟩

end

variable [WordSource G] [NormalDeviate R] [Zero R] [One R] [Add R] [Sub R] [Mul R] [Neg R] [Div R]
  [NatCast R] [BEq R] [LT R] [DecidableLT R] [LE R] [DecidableLE R] [RealFunctions R]

namespace Simulation

variable {c : Config R} {spread : Spread R}

/-- The state that a configuration starts from was made by a constructor, has a point, and there is
room for its matrices. -/
theorem of_startState {state : LatticeState R} {g g' : G}
    (h : startState c spread g = .ok (.ok state) g') :
    state.Built ∧ 1 ≤ state.lattice.dim.toNat ∧ state.lattice.HasRoom := by
  have hpos : ∀ {n : UInt64}, n ≠ 0 → 1 ≤ n.toNat := by
    intro n hn
    have hne : n.toNat ≠ 0 := fun h0 => hn (UInt64.toNat_inj.1 h0)
    omega
  unfold startState at h
  cases hstart : c.start with
  | cold =>
      rw [hstart] at h
      obtain ⟨hn, hdim, f, g₁, hf⟩ := LatticeState.exists_field_of_start h
      obtain ⟨hf, -⟩ := Draw.checked_eq_ok_iff.1 hf
      exact ⟨.cold h, hdim ▸ hpos hn, LinkField.hasRoom_of_cold hf⟩
  | hot =>
      rw [hstart] at h
      obtain ⟨hn, hdim, f, g₁, hf⟩ := LatticeState.exists_field_of_start h
      exact ⟨.hot h, hdim ▸ hpos hn, LinkField.hasRoom_of_drawn hf⟩
  | nearUnity =>
      rw [hstart] at h
      obtain ⟨hn, hdim, f, g₁, hf⟩ := LatticeState.exists_field_of_start h
      exact ⟨.nearUnity h, hdim ▸ hpos hn, LinkField.hasRoom_of_drawn hf⟩

/-- A simulation that is made of a configuration has a state and a pool that were drawn for it. -/
theorem exists_parts_of_ofConfig {source : G} {s : Simulation R G}
    (h : ofConfig c source = .ok (.ok s)) :
    ∃ (spread : Spread R) (pool : Pool R) (state : LatticeState R) (g₁ rest : G),
      Pool.generate c.pairs.toNat spread source = .ok (some pool) g₁ ∧
      startState c spread g₁ = .ok (.ok state) rest ∧
      s = ofParts state (.ofPool pool rest) c.spacing.toNat c.measurements.toNat := by
  unfold ofConfig at h
  cases hparts : drawParts c source with
  | error fault rest =>
      rw [hparts] at h
      cases h
  | ok made rest =>
      cases made with
      | error error =>
          rw [hparts] at h
          cases h
      | ok parts =>
          rw [hparts] at h
          cases h
          unfold drawParts at hparts
          cases hspread : c.validate with
          | error error =>
              rw [hspread] at hparts
              cases hparts
          | ok spread =>
              rw [hspread] at hparts
              obtain ⟨pool?, g₁, hpool, hparts⟩ := Draw.bind_eq_ok_iff.1 hparts
              cases pool? with
              | none => cases hparts
              | some pool =>
                  obtain ⟨state?, g₂, hstate, hparts⟩ := Draw.bind_eq_ok_iff.1 hparts
                  cases state? with
                  | error error => cases hparts
                  | ok state =>
                      cases hparts
                      exact ⟨spread, pool, state, g₁, rest, hpool, hstate, rfl⟩

/-- **A simulation that is made of a configuration is sound**, and it has the protocol of the
configuration. -/
theorem sound_of_ofConfig {source : G} {s : Simulation R G} (h : ofConfig c source = .ok (.ok s)) :
    s.Sound 0 ∧ s.sweeps = 0 ∧ s.spacing = c.spacing.toNat ∧
      s.measurements = c.measurements.toNat := by
  obtain ⟨spread, pool, state, g₁, rest, hpool, hstate, rfl⟩ := exists_parts_of_ofConfig h
  obtain ⟨hbuilt, hdim, hroom⟩ := of_startState hstate
  have hplanes := hroom.planes_lt
  have hcomplete := hbuilt.complete hdim (by omega)
  exact ⟨⟨⟨hcomplete, (Pool.Built.generate hpool).size_pos⟩, hplanes, Nat.two_pow_pos 64⟩, rfl, rfl,
    rfl⟩

end Simulation

end PureGauge
