/-
**Laws of checked computations.**

A checked computation answers or stops with a fault, and the operations of the lattice are chains of
them.  The lemmas here open such chains: a step that answers disappears, a step that stops ends the
chain, and a loop over a list all of whose steps answer is the plain loop over their answers.

Main results:

* `PureGauge.Checked.bind_eq_ok_iff` — when a chain answers;
* `PureGauge.Checked.mapM_eq_ok`, `PureGauge.Checked.filterM_eq_ok`,
  `PureGauge.Checked.foldlM_eq_ok` — loops all of whose steps answer;
* `PureGauge.Checked.mapM_congr`, `PureGauge.Checked.foldlM_congr_of_invariant` — loops whose steps
  agree;
* `PureGauge.Checked.foldlM_invariant`, `PureGauge.Checked.forall_of_mapM_eq_ok` — what every step
  of a loop keeps, and what all answers of a loop have.
-/
import PureGauge.Fault
import Mathlib.Data.Nat.Notation
import Mathlib.Data.List.Basic
import Mathlib.Data.List.Forall2

namespace PureGauge

namespace Checked

variable {α β σ : Type}

@[simp] theorem pure_eq (a : α) : (pure a : Checked α) = .ok a := rfl

@[simp] theorem ok_bind (a : α) (f : α → Checked β) : (.ok a : Checked α) >>= f = f a := rfl

@[simp] theorem error_bind (e : Fault) (f : α → Checked β) :
    (.error e : Checked α) >>= f = .error e := rfl

@[simp] theorem map_ok (g : α → β) (a : α) : Except.map g (.ok a : Checked α) = .ok (g a) := rfl

@[simp] theorem map_error (g : α → β) (e : Fault) :
    Except.map g (.error e : Checked α) = .error e := rfl

theorem map_map {γ : Type} (g : β → γ) (f : α → β) (x : Checked α) :
    (x.map f).map g = x.map (g ∘ f) := by
  cases x with
  | error e => rfl
  | ok a => rfl

/-- A chain answers exactly when both of its links do. -/
theorem bind_eq_ok_iff {x : Checked α} {f : α → Checked β} {b : β} :
    x >>= f = .ok b ↔ ∃ a, x = .ok a ∧ f a = .ok b := by
  cases x with
  | error e => simp
  | ok a => simp

/-- Steps that agree on the answers of the first one make equal chains. -/
theorem bind_congr {x : Checked α} {f g : α → Checked β} (h : ∀ a, x = .ok a → f a = g a) :
    x >>= f = x >>= g := by
  cases hx : x with
  | error e => rfl
  | ok a => exact h a hx

/-! ### Loops -/

theorem mapM_congr {f g : α → Checked β} {l : List α} (h : ∀ a ∈ l, f a = g a) :
    l.mapM f = l.mapM g := by
  induction l with
  | nil => rfl
  | cons a l ih =>
      rw [List.mapM_cons, List.mapM_cons, h a (by simp), ih fun b hb => h b (by simp [hb])]

/-- A loop all of whose steps answer lists the answers. -/
theorem mapM_eq_ok {f : α → Checked β} {g : α → β} {l : List α} (h : ∀ a ∈ l, f a = .ok (g a)) :
    l.mapM f = .ok (l.map g) := by
  rw [mapM_congr h]
  exact List.mapM_pure

/-- A loop over lists that are put together goes through one after the other. -/
theorem mapM_flatMap_eq_ok {γ : Type} {f : β → Checked γ} {g : α → List β} {r : α → List γ}
    {l : List α} (h : ∀ a ∈ l, (g a).mapM f = .ok (r a)) :
    (l.flatMap g).mapM f = .ok (l.flatMap r) := by
  induction l with
  | nil => rfl
  | cons a l ih =>
      rw [List.flatMap_cons, List.mapM_append, h a (by simp), ok_bind,
        ih fun b hb => h b (by simp [hb])]
      rfl

/-- A loop all of whose steps answer answers. -/
theorem exists_mapM_eq_ok {f : α → Checked β} {l : List α} (h : ∀ a ∈ l, ∃ b, f a = .ok b) :
    ∃ bs, l.mapM f = .ok bs := by
  induction l with
  | nil => exact ⟨[], rfl⟩
  | cons a l ih =>
      obtain ⟨b, hb⟩ := h a (by simp)
      obtain ⟨bs, hbs⟩ := ih fun c hc => h c (by simp [hc])
      exact ⟨b :: bs, by rw [List.mapM_cons, hb, ok_bind, hbs]; rfl⟩

/-- A loop with a step that stops does not answer. -/
theorem mapM_ne_ok {f : α → Checked β} {l : List α} {a : α} {e : Fault} (ha : a ∈ l)
    (h : f a = .error e) (bs : List β) : l.mapM f ≠ .ok bs := by
  induction l generalizing bs with
  | nil => simp at ha
  | cons b l ih =>
      rw [List.mapM_cons]
      intro hok
      obtain ⟨c, hc, hrest⟩ := bind_eq_ok_iff.1 hok
      obtain ⟨cs, hcs, -⟩ := bind_eq_ok_iff.1 hrest
      rcases List.mem_cons.1 ha with rfl | ha
      · rw [h] at hc
        simp at hc
      · exact ih ha cs hcs

/-- What every answer of a step has, all answers of a loop have. -/
theorem forall_of_mapM_eq_ok {f : α → Checked β} {P : β → Prop} {l : List α} {bs : List β}
    (h : ∀ a ∈ l, ∀ b, f a = .ok b → P b) (hbs : l.mapM f = .ok bs) : ∀ b ∈ bs, P b := by
  induction l generalizing bs with
  | nil =>
      rw [List.mapM_nil, pure_eq, Except.ok.injEq] at hbs
      subst hbs
      simp
  | cons a l ih =>
      rw [List.mapM_cons] at hbs
      obtain ⟨b, hb, hrest⟩ := bind_eq_ok_iff.1 hbs
      obtain ⟨cs, hcs, hbs⟩ := bind_eq_ok_iff.1 hrest
      rw [pure_eq, Except.ok.injEq] at hbs
      subst hbs
      intro c hc
      rcases List.mem_cons.1 hc with rfl | hc
      · exact h a (by simp) c hb
      · exact ih (fun a ha => h a (by simp [ha])) hcs c hc

/-- The answers of a loop are those of its steps, one by one. -/
theorem forall₂_of_mapM_eq_ok {f : α → Checked β} {l : List α} {bs : List β}
    (h : l.mapM f = .ok bs) :
    List.Forall₂ (fun a b => f a = .ok b) l bs := by
  induction l generalizing bs with
  | nil =>
      rw [List.mapM_nil, pure_eq, Except.ok.injEq] at h
      exact h ▸ .nil
  | cons a l ih =>
      rw [List.mapM_cons] at h
      obtain ⟨b, hb, hrest⟩ := bind_eq_ok_iff.1 h
      obtain ⟨cs, hcs, hbs⟩ := bind_eq_ok_iff.1 hrest
      rw [pure_eq, Except.ok.injEq] at hbs
      exact hbs ▸ .cons hb (ih hcs)

/-- The fault of a loop is the fault of one of its steps. -/
theorem mapM_eq_error {f : α → Checked β} {l : List α} {e : Fault} (h : l.mapM f = .error e) :
    ∃ a ∈ l, f a = .error e := by
  induction l with
  | nil => simp at h
  | cons b l ih =>
      rw [List.mapM_cons] at h
      cases hb : f b with
      | error e' =>
          rw [hb, error_bind, Except.error.injEq] at h
          exact ⟨b, by simp, h ▸ hb⟩
      | ok c =>
          rw [hb, ok_bind] at h
          cases hl : l.mapM f with
          | error e' =>
              rw [hl, error_bind, Except.error.injEq] at h
              obtain ⟨a, ha, hfa⟩ := ih (h ▸ hl)
              exact ⟨a, by simp [ha], hfa⟩
          | ok cs =>
              rw [hl] at h
              simp at h

private theorem filterAuxM_eq_ok {p : α → Checked Bool} {q : α → Bool} {l acc : List α}
    (h : ∀ a ∈ l, p a = .ok (q a)) :
    l.filterAuxM p acc = .ok ((l.filter q).reverse ++ acc) := by
  induction l generalizing acc with
  | nil => rfl
  | cons a l ih =>
      rw [List.filterAuxM, h a (by simp), ok_bind, ih fun b hb => h b (by simp [hb])]
      cases hq : q a with
      | false => simp [hq]
      | true => simp [hq]

/-- A selection all of whose tests answer keeps what passes. -/
theorem filterM_eq_ok {p : α → Checked Bool} {q : α → Bool} {l : List α}
    (h : ∀ a ∈ l, p a = .ok (q a)) : l.filterM p = .ok (l.filter q) := by
  rw [List.filterM, filterAuxM_eq_ok h]
  simp

/-- What every step keeps, a loop keeps. -/
theorem foldlM_invariant {f : σ → α → Checked σ} {P : σ → Prop} {l : List α}
    (h : ∀ s, P s → ∀ a ∈ l, ∀ t, f s a = .ok t → P t) {s t : σ} (hs : P s)
    (ht : l.foldlM f s = .ok t) : P t := by
  induction l generalizing s with
  | nil =>
      rw [List.foldlM_nil, pure_eq, Except.ok.injEq] at ht
      exact ht ▸ hs
  | cons a l ih =>
      rw [List.foldlM_cons] at ht
      obtain ⟨u, hu, hrest⟩ := bind_eq_ok_iff.1 ht
      exact ih (fun s hs b hb => h s hs b (by simp [hb])) (h s hs a (by simp) u hu) hrest

/-- Loops whose steps agree as long as an invariant holds, and keep it, are equal. -/
theorem foldlM_congr_of_invariant {f g : σ → α → Checked σ} {P : σ → Prop} {l : List α}
    (h : ∀ s, P s → ∀ a ∈ l, f s a = g s a) (hP : ∀ s, P s → ∀ a ∈ l, ∀ t, f s a = .ok t → P t)
    {s : σ} (hs : P s) : l.foldlM f s = l.foldlM g s := by
  induction l generalizing s with
  | nil => rfl
  | cons a l ih =>
      rw [List.foldlM_cons, List.foldlM_cons, ← h s hs a (by simp)]
      exact bind_congr fun t ht => ih (fun s hs b hb => h s hs b (by simp [hb]))
        (fun s hs b hb => hP s hs b (by simp [hb])) (hP s hs a (by simp) t ht)

theorem foldlM_congr {f g : σ → α → Checked σ} {l : List α} (h : ∀ s, ∀ a ∈ l, f s a = g s a)
    (s : σ) : l.foldlM f s = l.foldlM g s :=
  foldlM_congr_of_invariant (P := fun _ => True) (fun s _ => h s) (fun _ _ _ _ _ _ => trivial)
    trivial

/-- Loops whose steps go through a projection do so as a whole. -/
theorem map_foldlM {τ : Type} {f : σ → α → Checked σ} {g : τ → α → Checked τ} {φ : σ → τ}
    (h : ∀ s a, (f s a).map φ = g (φ s) a) (l : List α) (s : σ) :
    (l.foldlM f s).map φ = l.foldlM g (φ s) := by
  induction l generalizing s with
  | nil => rfl
  | cons a l ih =>
      rw [List.foldlM_cons, List.foldlM_cons, ← h]
      cases f s a with
      | error e => rfl
      | ok t => exact ih t

/-- A loop each of whose steps keeps an invariant or stops with a fault of a certain kind does so as
a whole. -/
theorem foldlM_cases {f : σ → α → Checked σ} {P : σ → Prop} {Q : Fault → Prop} {l : List α}
    (h : ∀ s, P s → ∀ a ∈ l, (∃ t, f s a = .ok t ∧ P t) ∨ ∃ e, f s a = .error e ∧ Q e) {s : σ}
    (hs : P s) : (∃ t, l.foldlM f s = .ok t ∧ P t) ∨ ∃ e, l.foldlM f s = .error e ∧ Q e := by
  induction l generalizing s with
  | nil => exact Or.inl ⟨s, rfl, hs⟩
  | cons a l ih =>
      rw [List.foldlM_cons]
      rcases h s hs a (by simp) with ⟨t, ht, hPt⟩ | ⟨e, herr, hQe⟩
      · rw [ht, ok_bind]
        exact ih (fun s hs b hb => h s hs b (by simp [hb])) hPt
      · rw [herr, error_bind]
        exact Or.inr ⟨e, rfl, hQe⟩

/-- A loop all of whose steps answer is the loop over their answers. -/
theorem foldlM_eq_ok {f : σ → α → Checked σ} {g : σ → α → σ} {l : List α}
    (h : ∀ s, ∀ a ∈ l, f s a = .ok (g s a)) (s : σ) : l.foldlM f s = .ok (l.foldl g s) := by
  rw [foldlM_congr h s]
  exact List.foldlM_pure

end Checked

end PureGauge
