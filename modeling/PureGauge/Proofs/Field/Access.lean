/-
**Reading and writing single matrices.**

Links that differ by multiples of the number of points share one matrix of the buffer, so what is
read for a link is what was written last for any of its names.  A buffer that does not reach as far
as the number of a link answers so and stays what it is.  Both hold for buffers of every length,
whether or not they fit the lattice.

Main definitions:

* `PureGauge.LinkField.setAll` — matrices of several links replaced one after another;
* `PureGauge.LinkField.lastSet` — the matrix that was given last for a link, under any of its names.

Main results:

* `PureGauge.LinkField.matrix?_eq`, `PureGauge.LinkField.set?_eq` — one access, by the number of the
  link;
* `PureGauge.LinkField.getElem?_setAll` — an entry after any number of replacements;
* `PureGauge.LinkField.access_laws` — what one access and a sequence of them does.
-/
import PureGauge.Proofs.Field.Configuration
import PureGauge.Proofs.Lattice.Indexing

namespace PureGauge

namespace LinkField

variable {R : Type} {f : LinkField R} {l : Lattice} {n i : ℕ} {k : Link} {m : Mat3 R}

/-! ### One access -/

theorem matrix?_eq (hi : l.linkIndex k = .ok i) : f.matrix? l k = .ok f.data[i]? := by
  rw [matrix?, hi, Checked.ok_bind, Checked.pure_eq]

/-- What was there is handed out, and the matrix takes its place if there is one. -/
theorem set?_eq (hi : l.linkIndex k = .ok i) :
    f.set? l k m = .ok (f.data[i]?, ⟨f.data.setIfInBounds i m⟩) := by
  rw [set?, hi, Checked.ok_bind, Array.setIfInBounds]
  split
  case isTrue hlt => rw [Array.getElem?_eq_getElem hlt, Checked.pure_eq]
  case isFalse hge => rw [Array.getElem?_eq_none (not_lt.1 hge), Checked.pure_eq]

/-! ### Several of them -/

/-- Links with their new matrices, one after another. -/
def setAll (l : Lattice) : List (Link × Mat3 R) → LinkField R → Checked (LinkField R)
  | [], f => return f
  | (k, m) :: calls, f => do
      let (_, f) ← f.set? l k m
      setAll l calls f

/-- The matrix of the last call for a link with the direction of `k` and congruent coordinates. -/
def lastSet (n : ℕ) (k : Link) (calls : List (Link × Mat3 R)) : Option (Mat3 R) :=
  (calls.reverse.find? fun c => c.1.Congruent n k).map (·.2)

@[simp] theorem lastSet_nil : lastSet n k ([] : List (Link × Mat3 R)) = none := rfl

/-- A first call counts if no later one does. -/
theorem lastSet_cons (j : Link) (m : Mat3 R) (calls : List (Link × Mat3 R)) :
    lastSet n k ((j, m) :: calls) =
      (lastSet n k calls).or (if j.Congruent n k then some m else none) := by
  rw [lastSet, List.reverse_cons, List.find?_append, Option.map_or, lastSet]
  by_cases hj : j.Congruent n k
  · simp [hj]
  · simp [hj]

theorem setAll_cons (hi : l.linkIndex k = .ok i) (calls : List (Link × Mat3 R)) :
    f.setAll l ((k, m) :: calls) = setAll l calls ⟨f.data.setIfInBounds i m⟩ := by
  rw [setAll, set?_eq hi, Checked.ok_bind]

variable [NeZero n]

/-- The calls are answered, and an entry holds what was given last for the links that it belongs
to. -/
theorem getElem?_setAll (h : l.Numbered n) {calls : List (Link × Mat3 R)}
    (hcalls : ∀ c ∈ calls, c.1.Directed) (f : LinkField R) :
    ∃ f', f.setAll l calls = .ok f' ∧ f'.size = f.size ∧
      ∀ k i, k.Directed → l.linkIndex k = .ok i →
        f'.data[i]? = f.data[i]?.map fun m => (lastSet n k calls).getD m := by
  have hnumbering := h.isNumbering_links
  -- along the calls: the first one is made on `f`, and the others on what it leaves
  induction calls generalizing f with
  | nil => exact ⟨f, rfl, rfl, fun k i _ _ => by simp⟩
  | cons c calls ih =>
      obtain ⟨j, m⟩ := c
      rw [List.forall_mem_cons] at hcalls
      obtain ⟨i₀, -, hi₀, -⟩ := hnumbering.item_number j hcalls.1
      obtain ⟨f', hf', hsize, hentries⟩ := ih hcalls.2 ⟨f.data.setIfInBounds i₀ m⟩
      refine ⟨f', by rw [setAll_cons hi₀, hf'], hsize.trans Array.size_setIfInBounds,
        fun k i hk hi => ?_⟩
      have hsame : i₀ = i ↔ j.Congruent n k := by
        rw [← hnumbering.number_eq_iff j k hcalls.1 hk, hi₀, hi, Except.ok.injEq]
      rw [hentries k i hk hi, lastSet_cons, Array.getElem?_setIfInBounds]
      by_cases hj : i₀ = i
      · rw [if_pos hj, if_pos (hsame.1 hj)]
        subst hj
        by_cases hlt : i₀ < f.data.size
        · rw [if_pos hlt, Array.getElem?_eq_getElem hlt]
          cases lastSet n k calls with
          | none => rfl
          | some m' => rfl
        · rw [if_neg hlt, Array.getElem?_eq_none (not_lt.1 hlt)]
          rfl
      · rw [if_neg hj, if_neg (hsame.not.1 hj), Option.or_none]

omit [NeZero n] in
/-- **The laws of access.**  On a lattice whose links can be numbered by words, take a buffer of any
length and a link in one of the four directions.  Replacing its matrix answers with what reading it
gave before; nothing happens to the other entries and to the length, and nothing at all if there was
no matrix.  After any sequence of replacements a link has the matrix that was given last for a link
with the same direction and congruent coordinates, and the one it had if there was none, as far as
the buffer reaches. -/
theorem access_laws (l : Lattice) (hdim : 0 < l.dim.toNat) (hlinks : 4 * l.dim.toNat ^ 4 < 2 ^ 64) :
    (∀ (f : LinkField R) (k : Link) (m : Mat3 R), k.Directed →
      ∃ i old f', l.linkIndex k = .ok i ∧ f.matrix? l k = .ok old ∧ f.set? l k m = .ok (old, f') ∧
        f'.size = f.size ∧ (∀ j, j ≠ i → f'.data[j]? = f.data[j]?) ∧
        (old = none → f' = f) ∧ (old.isSome = true → f'.matrix? l k = .ok (some m))) ∧
    ∀ (f : LinkField R) (calls : List (Link × Mat3 R)), (∀ c ∈ calls, c.1.Directed) →
      ∃ f', f.setAll l calls = .ok f' ∧ f'.size = f.size ∧
        ∀ k : Link, k.Directed → ∃ i, l.linkIndex k = .ok i ∧ f'.matrix? l k = .ok
          (if h : i < f.data.size then some ((lastSet l.dim.toNat k calls).getD f.data[i])
            else none) := by
  have : NeZero l.dim.toNat := ⟨hdim.ne'⟩
  have h : l.Numbered l.dim.toNat := ⟨rfl, hlinks⟩
  have hnumbering := h.isNumbering_links
  constructor
  · intro f k m hk
    obtain ⟨i, -, hi, -⟩ := hnumbering.item_number k hk
    refine ⟨i, _, _, hi, matrix?_eq hi, set?_eq hi, Array.size_setIfInBounds, fun j hj => ?_,
      fun hold => ?_, fun hold => ?_⟩
    · exact Array.getElem?_setIfInBounds_ne hj.symm
    · rw [Array.setIfInBounds, dif_neg (not_lt.2 (Array.getElem?_eq_none_iff.1 hold))]
    · rw [matrix?_eq hi, Array.getElem?_setIfInBounds_self_of_lt (by simpa using hold)]
  · intro f calls hcalls
    obtain ⟨f', hf', hsize, hentries⟩ := getElem?_setAll h hcalls f
    refine ⟨f', hf', hsize, fun k hk => ?_⟩
    obtain ⟨i, -, hi, -⟩ := hnumbering.item_number k hk
    refine ⟨i, hi, ?_⟩
    rw [matrix?_eq hi, hentries k i hk hi]
    split
    case isTrue hlt => rw [Array.getElem?_eq_getElem hlt, Option.map_some]
    case isFalse hge => rw [Array.getElem?_eq_none (not_lt.1 hge), Option.map_none]

/-- Three matrices for the links of a lattice with two points in each direction.  A name of the
second link with coordinates outside the lattice reaches the same matrix, and the fourth link
none. -/
theorem access_laws_short :
    ∃ f' : LinkField ℤ,
      LinkField.setAll ⟨2⟩
        [(⟨⟨#v[2, -2, 4, .minValue]⟩, .along 1⟩, 1), (⟨⟨#v[0, 0, 0, 0]⟩, .along 3⟩, 1)]
        ⟨#[0, 0, 0]⟩ = .ok f' ∧ f'.size = 3 ∧
      f'.matrix? ⟨2⟩ ⟨⟨#v[0, 0, 0, 0]⟩, .along 1⟩ = .ok (some 1) ∧
      f'.matrix? ⟨2⟩ ⟨⟨#v[0, 6, 0, 0]⟩, .along 2⟩ = .ok (some 0) ∧
      f'.matrix? ⟨2⟩ ⟨⟨#v[0, 0, 0, 0]⟩, .along 3⟩ = .ok none := by
  obtain ⟨-, hrun⟩ := access_laws (R := ℤ) ⟨2⟩ (by decide) (by decide)
  obtain ⟨f', hf', hsize, hread⟩ := hrun ⟨#[0, 0, 0]⟩
    [(⟨⟨#v[2, -2, 4, .minValue]⟩, .along 1⟩, 1), (⟨⟨#v[0, 0, 0, 0]⟩, .along 3⟩, 1)] (by decide)
  have hat {k : Link} (hk : k.Directed) {i : ℕ} (hi : Lattice.linkIndex ⟨2⟩ k = .ok i)
    {o : Option (Mat3 ℤ)}
      (ho : (if h : i < 3 then some ((lastSet 2 k [(⟨⟨#v[2, -2, 4, .minValue]⟩, .along 1⟩, 1),
        (⟨⟨#v[0, 0, 0, 0]⟩, .along 3⟩, 1)]).getD #[0, 0, 0][i]) else none) = o) :
      f'.matrix? ⟨2⟩ k = .ok o := by
    obtain ⟨j, hj, hmatrix⟩ := hread k hk
    rw [hi, Except.ok.injEq] at hj
    subst hj ho
    exact hmatrix
  exact ⟨f', hf', hsize, hat (by decide) (i := 1) (by decide) (by decide),
    hat (by decide) (i := 2) (by decide) (by decide),
    hat (by decide) (i := 3) (by decide) (by decide)⟩

end LinkField

end PureGauge
