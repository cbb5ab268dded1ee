/-
**Laws of draws.**

A draw is run from a source, and a chain of draws hands the source on from link to link.  A source
that never stops lets an index be drawn from any nonempty range, unless all attempts are rejected.

Main definitions:

* `PureGauge.Draw.Settles`, `PureGauge.Draw.Total` — a draw that yields something from a source, or
  from every source.

Main results:

* `PureGauge.Draw.bind_apply` — a chain of draws, run;
* `PureGauge.Draw.below_cases` — an index that is drawn lies in its range, and the only fault is
  that no attempt was accepted;
* `PureGauge.Pool.choose_cases` — the same for the choice of a matrix;
* `PureGauge.LinkField.drawn_eq_ok_iff` — when a field is drawn.
-/
import PureGauge.Field.Basic
import PureGauge.Random.Xoshiro
import PureGauge.SU3.Pool
import PureGauge.Proofs.Checked

namespace PureGauge

/-- A source that never stops. -/
def Endless (G : Type) [WordSource G] : Prop :=
  ∀ g : G, ∃ w g', WordSource.next g = .ok (w, g')

theorem Xoshiro.endless : Endless Xoshiro := fun g => ⟨g.step.1, g.step.2, rfl⟩

namespace Draw

variable {G α β : Type}

theorem bind_apply (x : Draw G α) (f : α → Draw G β) (g : G) :
    (x >>= f) g =
      match x g with
      | .ok a g' => f a g'
      | .error e g' => .error e g' := by
  change EStateM.bind x f g = _
  rw [EStateM.bind]
  cases x g with
  | ok a g' => rfl
  | error e g' => rfl

theorem bind_of_ok {x : Draw G α} {f : α → Draw G β} {a : α} {g g' : G} (h : x g = .ok a g') :
    (x >>= f) g = f a g' := by
  rw [bind_apply, h]

theorem bind_of_error {x : Draw G α} {f : α → Draw G β} {e : Fault} {g g' : G}
    (h : x g = .error e g') : (x >>= f) g = .error e g' := by
  rw [bind_apply, h]

/-- A chain of draws yields something exactly when both of its links do. -/
theorem bind_eq_ok_iff {x : Draw G α} {f : α → Draw G β} {b : β} {g g' : G} :
    (x >>= f) g = .ok b g' ↔ ∃ a g'', x g = .ok a g'' ∧ f a g'' = .ok b g' := by
  rw [bind_apply]
  cases x g with
  | ok a g'' => simp
  | error e g'' => simp

@[simp] theorem pure_apply (a : α) (g : G) : (pure a : Draw G α) g = .ok a g := rfl

@[simp] theorem checked_ok_bind (a : α) (f : α → Draw G β) :
    Draw.checked (.ok a) >>= f = f a := rfl

/-- A checked computation, run as a draw. -/
theorem checked_eq_ok_iff {x : Checked α} {a : α} {g g' : G} :
    Draw.checked x g = .ok a g' ↔ x = .ok a ∧ g' = g := by
  cases x with
  | ok b => simp [Draw.checked, eq_comm]
  | error fault => simp [Draw.checked]

/-- A draw from a source yields something. -/
def Settles (x : Draw G α) (g : G) : Prop := ∃ a g', x g = .ok a g'

theorem not_settles_of_error {x : Draw G α} {e : Fault} {g g' : G} (h : x g = .error e g') :
    ¬ x.Settles g := by
  rintro ⟨a, g'', ha⟩
  rw [h] at ha
  cases ha

instance decidableSettles (x : Draw G α) (g : G) : Decidable (x.Settles g) :=
  match h : x g with
  | .ok a g' => .isTrue ⟨a, g', h⟩
  | .error _ _ => .isFalse (not_settles_of_error h)

/-- A draw that yields something from every source. -/
def Total (x : Draw G α) : Prop := ∀ g, x.Settles g

theorem total_pure (a : α) : (pure a : Draw G α).Total := fun g => ⟨a, g, rfl⟩

theorem total_bind {x : Draw G α} {f : α → Draw G β} (hx : x.Total) (hf : ∀ a, (f a).Total) :
    (x >>= f).Total := by
  intro g
  obtain ⟨a, g', ha⟩ := hx g
  rw [Settles, bind_of_ok ha]
  exact hf a g'

/-- So many draws one after the other. -/
theorem times_of_total {x : Draw G α} (hx : x.Total) (n : ℕ) (g : G) :
    ∃ as g', times n x g = .ok as g' ∧ as.length = n := by
  rw [times]
  induction n generalizing g with
  | zero => exact ⟨[], g, rfl, rfl⟩
  | succ n ih =>
      obtain ⟨a, g', ha⟩ := hx g
      obtain ⟨as, g'', has, hlength⟩ := ih g'
      refine ⟨a :: as, g'', ?_, by rw [List.length_cons, hlength]⟩
      rw [List.replicate_succ, List.mapM_cons, id, bind_of_ok ha, bind_of_ok has, pure_apply]

/-- So many draws yield as many values. -/
theorem length_of_times {x : Draw G α} {n : ℕ} {g g' : G} {as : List α}
    (h : times n x g = .ok as g') :
    as.length = n := by
  rw [times] at h
  induction n generalizing g as with
  | zero =>
      cases h
      rfl
  | succ n ih =>
      rw [List.replicate_succ, List.mapM_cons, id, bind_eq_ok_iff] at h
      obtain ⟨a, g₁, -, h⟩ := h
      obtain ⟨rest, g₂, hrest, h⟩ := bind_eq_ok_iff.1 h
      cases h
      rw [List.length_cons, ih hrest]

/-- What every draw yields has a property, if each single draw sees to it. -/
theorem forall_of_times {x : Draw G α} {P : α → Prop} (hx : ∀ g a g', x g = .ok a g' → P a) {n : ℕ}
    {g g' : G} {as : List α} (h : times n x g = .ok as g') : ∀ a ∈ as, P a := by
  rw [times] at h
  induction n generalizing g as with
  | zero =>
      cases h
      simp
  | succ n ih =>
      rw [List.replicate_succ, List.mapM_cons, id, bind_eq_ok_iff] at h
      obtain ⟨a, g₁, ha, h⟩ := h
      obtain ⟨rest, g₂, hrest, h⟩ := bind_eq_ok_iff.1 h
      cases h
      intro b hb
      rcases List.mem_cons.1 hb with rfl | hb
      · exact hx _ _ _ ha
      · exact ih hrest b hb

/-- An attempt that yields nothing is made again. -/
theorem untilSomeWithin_of_none {attempt : Draw G (Option α)} {g g' : G}
    (h : attempt g = .ok none g') (limit : ℕ) :
    untilSomeWithin attempt (limit + 1) g = untilSomeWithin attempt limit g' := by
  rw [untilSomeWithin, bind_of_ok h]

/-- An attempt that yields something is the last one. -/
theorem untilSomeWithin_of_some {attempt : Draw G (Option α)} {a : α} {g g' : G}
    (h : attempt g = .ok (some a) g') (limit : ℕ) :
    untilSomeWithin attempt (limit + 1) g = .ok a g' := by
  rw [untilSomeWithin, bind_of_ok h]
  rfl

/-- What repeated attempts yield, the last attempt yielded. -/
theorem exists_attempt_of_untilSomeWithin {attempt : Draw G (Option α)} {a : α} {limit : ℕ}
    {g g' : G} (h : untilSomeWithin attempt limit g = .ok a g') :
    ∃ g₁, attempt g₁ = .ok (some a) g' := by
  induction limit generalizing g with
  | zero => cases h
  | succ limit ih =>
      obtain ⟨o, g₁, ho, hrest⟩ := bind_eq_ok_iff.1 h
      cases o with
      | none => exact ih hrest
      | some b =>
          cases hrest
          exact ⟨g, ho⟩

/-- Repeated attempts that do not stop yield something that an attempt yields, or are given up. -/
theorem untilSomeWithin_cases {attempt : Draw G (Option α)} {P : α → Prop}
    (h : ∀ g, ∃ o g', attempt g = .ok o g' ∧ ∀ a, o = some a → P a) (limit : ℕ) (g : G) :
    (∃ a g', untilSomeWithin attempt limit g = .ok a g' ∧ P a) ∨
      ∃ g', untilSomeWithin attempt limit g = .error .unsettled g' := by
  induction limit generalizing g with
  | zero => exact Or.inr ⟨g, rfl⟩
  | succ limit ih =>
      obtain ⟨o, g', hg, ho⟩ := h g
      rw [untilSomeWithin, bind_apply, hg]
      cases o with
      | none => exact ih g'
      | some a => exact Or.inl ⟨a, g', rfl, ho a rfl⟩

variable [WordSource G]

theorem total_fraction52 {R : Type} [NatCast R] [Div R] (hG : Endless G) :
    (fraction52 : Draw G R).Total := by
  refine total_bind (fun g => ?_) fun w => total_pure _
  obtain ⟨w, g', hw⟩ := hG g
  exact ⟨w, g', by rw [word, hw]⟩

/-- An index that is drawn lies in its range, and the only fault is that no attempt was accepted. -/
theorem below_cases (hG : Endless G) {n : ℕ} (hn : 0 < n) (g : G) :
    (∃ i g', below n g = .ok i g' ∧ i < n) ∨ ∃ g', below n g = .error .unsettled g' := by
  rw [below, if_neg (by omega)]
  refine untilSomeWithin_cases (fun g => ?_) attemptLimit g
  obtain ⟨w, g', hw⟩ := hG g
  have hword : word g = .ok w g' := by rw [word, hw]
  refine ⟨_, g', bind_of_ok hword, fun i hi => ?_⟩
  split at hi
  · rw [Option.some.injEq] at hi
    subst hi
    exact Nat.div_lt_of_lt_mul (Nat.mul_lt_mul_of_pos_right w.toNat_lt hn)
  · simp at hi

end Draw

/-- A matrix is chosen from every nonempty pool, unless no attempt was accepted. -/
theorem Pool.choose_cases {G R : Type} [WordSource G] (hG : Endless G) (pool : Pool R)
    (hpool : 0 < pool.matrices.size) (g : G) :
    (∃ m g', pool.choose g = .ok m g' ∧ m ∈ pool.matrices) ∨
      ∃ g', pool.choose g = .error .unsettled g' := by
  rcases Draw.below_cases hG hpool g with ⟨i, g', hi, hlt⟩ | ⟨g', hg'⟩
  · refine Or.inl ⟨pool.matrices[i], g', ?_, Array.getElem_mem hlt⟩
    refine (Draw.bind_of_ok hi).trans ?_
    rw [Array.getElem?_eq_getElem hlt]
    rfl
  · exact Or.inr ⟨g', Draw.bind_of_error hg'⟩

/-- A field is drawn exactly if the matrices can be counted, there is room for them, and all of them
are drawn. -/
theorem LinkField.drawn_eq_ok_iff {G R : Type} {l : Lattice} {draw : Draw G (Mat3 R)}
    {f : LinkField R} {g g' : G} :
    drawn l draw g = .ok f g' ↔ ∃ n ms, l.linkCount = .ok n ∧ Storage.Fits Storage.matrixBytes n ∧
      Draw.times n draw g = .ok ms g' ∧ f = ⟨ms.toArray⟩ := by
  rw [drawn, Draw.bind_eq_ok_iff]
  constructor
  · rintro ⟨n, g₁, hcount, h⟩
    obtain ⟨hn, rfl⟩ := Draw.checked_eq_ok_iff.1 hcount
    split at h
    case isTrue hroom =>
      obtain ⟨ms, g₂, hms, h⟩ := Draw.bind_eq_ok_iff.1 h
      cases h
      exact ⟨n, ms, hn, hroom, hms, rfl⟩
    case isFalse =>
      -- without room a single matrix is drawn, and then the field is given up
      obtain ⟨m, g₂, -, h⟩ := Draw.bind_eq_ok_iff.1 h
      cases h
  · rintro ⟨n, ms, hn, hroom, hms, rfl⟩
    refine ⟨n, g, Draw.checked_eq_ok_iff.2 ⟨hn, rfl⟩, ?_⟩
    rw [if_pos hroom, Draw.bind_of_ok hms, Draw.pure_apply]

end PureGauge
