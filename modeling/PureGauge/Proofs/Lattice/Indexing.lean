/-
**Points and links correspond to their numbers.**

A lattice names a point or a link by a number, and finds it again from that number.  What it finds
is the point or link inside the lattice: coordinates are wrapped on the way, so that the points and
links with one number are those whose coordinates are congruent, in the same direction.  Among the
points inside the lattice the numbers follow the lexicographic order of the coordinates.

Main definitions:

* `PureGauge.IsNumbering` — numbers and reduced items of a kind correspond to each other;
* `PureGauge.Link.Congruent`, `PureGauge.Lattice.wrapLink` — links with congruent points, and a link
  whose point is wrapped.

Main results:

* `PureGauge.IsNumbering.of_keys` — items that are numbered through keys;
* `PureGauge.foldl_digits_lt_iff` — the order of numbers with digits;
* `PureGauge.Lattice.isNumbering` — points and links are numbered.
-/
import PureGauge.Proofs.Lattice.Congruence
import PureGauge.Proofs.Lattice.Links

namespace PureGauge

/-! ### Numberings -/

/-- The items of a kind are numbered.  `number` gives an item its number and `item` finds an item
with a number; `reduce` leads from an item to the reduced one that is the same as it. -/
structure IsNumbering {α : Type} (valid reduced : α → Prop) (same : α → α → Prop)
    (reduce : α → Checked α) (number : α → Checked ℕ) (item : ℕ → Checked (Option α))
    (count : ℕ) : Prop where
  /-- There is an item with each number below the count, and with no other one. -/
  item_isSome : ∀ i, ∃ o, item i = .ok o ∧ (o.isSome = true ↔ i < count)
  /-- The item that is found is a reduced one with the number that was asked for. -/
  number_item : ∀ i a, item i = .ok (some a) → valid a ∧ reduced a ∧ number a = .ok i
  /-- An item has a number below the count, and what is found with this number is the reduced
  item. -/
  item_number : ∀ a, valid a →
    ∃ i b, number a = .ok i ∧ i < count ∧ reduce a = .ok b ∧ item i = .ok (some b)
  /-- Items have the same number if and only if they are the same up to reduction. -/
  number_eq_iff : ∀ a b, valid a → valid b → (number a = number b ↔ same a b)

/-- Items are numbered if each of them has a key and each key a representative, and the keys have
different numbers, which are those below the count. -/
theorem IsNumbering.of_keys {α κ : Type} {valid reduced : α → Prop} {same : α → α → Prop}
    {reduce : α → Checked α} {number : α → Checked ℕ} {item : ℕ → Checked (Option α)} {count : ℕ}
    (key : α → κ) (code : κ → ℕ) (rep : κ → α) (hinj : Function.Injective code)
    (hlt : ∀ x, code x < count) (hcode : ∀ i < count, ∃ x, code x = i)
    (hitem : ∀ x, item (code x) = .ok (some (rep x))) (hnone : ∀ i, count ≤ i → item i = .ok none)
    (hrep : ∀ x, valid (rep x) ∧ reduced (rep x) ∧ key (rep x) = x)
    (hvalid : ∀ a, valid a → number a = .ok (code (key a)) ∧ reduce a = .ok (rep (key a)))
    (hsame : ∀ a b, valid a → valid b → (key a = key b ↔ same a b)) :
    IsNumbering valid reduced same reduce number item count where
  item_isSome i := by
    rcases lt_or_ge i count with hi | hi
    · obtain ⟨x, rfl⟩ := hcode i hi
      exact ⟨some (rep x), hitem x, by simp [hi]⟩
    · exact ⟨none, hnone i hi, by simp [hi]⟩
  number_item i a ha := by
    rcases lt_or_ge i count with hi | hi
    · obtain ⟨x, rfl⟩ := hcode i hi
      rw [hitem, Except.ok.injEq, Option.some.injEq] at ha
      subst ha
      obtain ⟨hx, hreduced, hkey⟩ := hrep x
      exact ⟨hx, hreduced, by rw [(hvalid _ hx).1, hkey]⟩
    · rw [hnone i hi] at ha
      cases ha
  item_number a ha := by
    obtain ⟨hnumber, hreduce⟩ := hvalid a ha
    exact ⟨_, _, hnumber, hlt _, hreduce, hitem _⟩
  number_eq_iff a b ha hb := by
    rw [(hvalid a ha).1, (hvalid b hb).1, Except.ok.injEq, hinj.eq_iff, hsame a b ha hb]

/-! ### The order of the numbers -/

private theorem digit_lt_digit_iff {n a b c d : ℕ} (hc : c < n) (hd : d < n) :
    a * n + c < b * n + d ↔ a < b ∨ a = b ∧ c < d := by
  rcases lt_trichotomy a b with h | rfl | h
  · have hle : (a + 1) * n ≤ b * n := Nat.mul_le_mul_right n h
    rw [Nat.succ_mul] at hle
    exact iff_of_true (by omega) (Or.inl h)
  · simp
  · have hle : (b + 1) * n ≤ a * n := Nat.mul_le_mul_right n h
    rw [Nat.succ_mul] at hle
    exact iff_of_false (by omega) (by omega)

/-- Numbers that are continued by as many digits are ordered as the numbers, and by the digits if
the numbers are equal. -/
theorem foldl_digits_lt_iff {n : ℕ} {xs ys : List ℕ} (hlength : xs.length = ys.length)
    (hxs : ∀ d ∈ xs, d < n) (hys : ∀ d ∈ ys, d < n) {a b : ℕ} :
    xs.foldl (fun i d => i * n + d) a < ys.foldl (fun i d => i * n + d) b ↔
      a < b ∨ a = b ∧ xs < ys := by
  induction xs generalizing ys a b with
  | nil =>
      rw [List.length_nil, eq_comm, List.length_eq_zero_iff] at hlength
      subst hlength
      simp
  | cons x xs ih =>
      cases ys with
      | nil => cases hlength
      | cons y ys =>
          obtain ⟨hx, hxs⟩ := List.forall_mem_cons.1 hxs
          obtain ⟨hy, hys⟩ := List.forall_mem_cons.1 hys
          have hlt := digit_lt_digit_iff (a := a) (b := b) hx hy
          have hgt := digit_lt_digit_iff (a := b) (b := a) hy hx
          have heq : a * n + x = b * n + y ↔ a = b ∧ x = y := by
            constructor
            · omega
            · rintro ⟨rfl, rfl⟩
              rfl
          rw [List.foldl_cons, List.foldl_cons, ih (Nat.succ.inj hlength) hxs hys,
            List.cons_lt_cons_iff, hlt, heq, and_assoc, or_assoc, ← and_or_left]

/-- A map that respects the order of the items of two lists respects the lexicographic order. -/
theorem map_lt_map_iff {α : Type} [LT α] {w : α → ℕ} {xs ys : List α}
    (h : ∀ c ∈ xs, ∀ d ∈ ys, (w c < w d ↔ c < d) ∧ (w c = w d ↔ c = d)) :
    xs.map w < ys.map w ↔ xs < ys := by
  induction xs generalizing ys with
  | nil => cases ys <;> simp
  | cons c cs ih =>
      cases ys with
      | nil => simp
      | cons d ds =>
          obtain ⟨hlt, heq⟩ := h c (by simp) d (by simp)
          rw [List.map_cons, List.map_cons, List.cons_lt_cons_iff, List.cons_lt_cons_iff, hlt, heq,
            ih fun c' hc' d' hd' => h c' (by simp [hc']) d' (by simp [hd'])]

namespace Point

variable {n : ℕ} [NeZero n] {p q : Point}

/-- The residues of the coordinates of a point. -/
def residues (n : ℕ) (p : Point) : List ℕ := p.coords.toList.map fun c => (c.toInt : ZMod n).val

omit [NeZero n] in
theorem length_residues (p : Point) : (p.residues n).length = 4 := by
  rw [residues, List.length_map, Vector.length_toList]

theorem residues_lt (p : Point) : ∀ d ∈ p.residues n, d < n := by
  intro d hd
  obtain ⟨c, -, rfl⟩ := List.mem_map.1 hd
  exact ZMod.val_lt _

omit [NeZero n] in
/-- The number of a site is the one whose digits are the residues. -/
theorem number_site (p : Point) :
    (p.site n).number = (p.residues n).foldl (fun i d => i * n + d) 0 := by
  rw [residues, List.foldl_map, coords_toList, List.foldl_cons, Nat.zero_mul, Nat.zero_add]
  rfl

/-- Inside a lattice the residues are ordered like the coordinates. -/
theorem Inside.residues_lt_iff (hp : p.Inside n) (hq : q.Inside n) :
    p.residues n < q.residues n ↔ p.coords.toList < q.coords.toList := by
  have hmem : ∀ {r : Point}, r.Inside n → ∀ c ∈ r.coords.toList, 0 ≤ c.toInt ∧ c.toInt < n :=
    fun hr => (forall_mem_coords (P := fun c => 0 ≤ c.toInt ∧ c.toInt < n)).2 hr
  refine map_lt_map_iff fun c hc d hd => ?_
  have hc' := val_intCast_of_lt (hmem hp c hc)
  have hd' := val_intCast_of_lt (hmem hq d hd)
  rw [Int64.lt_iff_toInt_lt, ← Int64.toInt_inj]
  omega

end Point

/-! ### Points and links -/

/-- The direction is one of the four. -/
def Link.Directed (k : Link) : Prop := k.dir.index.toNat < Direction.count

/-- The directions are equal, and the coordinates of the points differ by multiples of `n`. -/
def Link.Congruent (n : ℕ) (k j : Link) : Prop := k.dir = j.dir ∧ k.pos.Congruent n j.pos

instance (k : Link) : Decidable k.Directed :=
  inferInstanceAs (Decidable (k.dir.index.toNat < Direction.count))

instance (n : ℕ) (k j : Link) : Decidable (k.Congruent n j) :=
  inferInstanceAs (Decidable (k.dir = j.dir ∧ k.pos.Congruent n j.pos))

/-- The site and the direction of a link. -/
def Link.key (n : ℕ) (k : Link) : Site n × Fin 4 := (k.pos.site n, Fin.ofNat 4 k.dir.index.toNat)

namespace Lattice

/-- The link with its point wrapped. -/
def wrapLink (l : Lattice) (k : Link) : Checked Link := do return ⟨← l.wrapPoint k.pos, k.dir⟩

variable {l : Lattice} {n : ℕ} [NeZero n]

theorem Counted.isNumbering_points (h : l.Counted n) :
    IsNumbering (fun _ => True) (Point.Inside n) (Point.Congruent n) l.wrapPoint
      l.pointIndex l.pointAt
      (n ^ 4) := by
  have hlt := h.periodic.lt
  refine IsNumbering.of_keys (Point.site n) Site.number Site.point
    Site.number_injective Site.number_lt (fun i hi => ⟨_, Site.number_ofNumber hi⟩) (fun x => ?_)
    (fun i hi => ?_) (fun x => ⟨trivial, Site.inside_point hlt x, Site.site_point hlt x⟩)
    (fun p _ => ⟨h.periodic.pointIndex_eq_ok_iff.2 ⟨rfl, (Site.number_lt _).trans h.points_lt⟩,
      h.periodic.wrapPoint_eq p⟩) (fun p q _ _ => Point.site_eq_iff)
  · rw [pointAt, h.pointCount_eq, Checked.ok_bind, if_pos (Site.number_lt x), h.dim_eq,
      ← Site.point_ofNumber, Site.ofNumber_number]
    rfl
  · rw [pointAt, h.pointCount_eq, Checked.ok_bind, if_neg hi.not_gt]
    rfl

theorem Numbered.isNumbering_links (h : l.Numbered n) :
    IsNumbering Link.Directed (fun k => k.pos.Inside n) (Link.Congruent n) l.wrapLink
      l.linkIndex l.linkAt
      (4 * n ^ 4) := by
  have hlt := h.periodic.lt
  have hkey : ∀ (p : Point) (μ : Fin 4), (⟨p, .along μ⟩ : Link).key n = (p.site n, μ) := by
    intro p μ
    rw [Link.key, Direction.toNat_index_along, Fin.ofNat_val_eq_self]
  refine IsNumbering.of_keys (Link.key n) (fun xμ => xμ.1.linkNumber xμ.2) Site.link
    ?_ (fun xμ => Site.linkNumber_lt _ _) (fun i hi => ?_) (fun xμ => h.linkAt_linkNumber _ _)
    (fun i hi => h.linkAt_of_le hi) (fun xμ => ⟨?_, Site.inside_point hlt xμ.1, ?_⟩)
      (fun k hk => ?_)
    (fun k j hk hj => ?_)
  · rintro ⟨x, μ⟩ ⟨y, ν⟩ heq
    obtain ⟨rfl, rfl⟩ := Site.linkNumber_inj.1 heq
    rfl
  · obtain ⟨x, μ, hxμ⟩ := Site.exists_linkNumber hi
    exact ⟨(x, μ), hxμ⟩
  · rw [Link.Directed, Site.link, Direction.toNat_index_along]
    exact xμ.2.2
  · rw [Site.link, hkey, Site.site_point hlt]
  · obtain ⟨p, d⟩ := k
    obtain ⟨μ, rfl⟩ := Direction.exists_along hk
    rw [hkey, h.linkIndex_eq, wrapLink, h.periodic.wrapPoint_eq]
    exact ⟨rfl, rfl⟩
  · obtain ⟨p, d⟩ := k
    obtain ⟨q, e⟩ := j
    obtain ⟨μ, rfl⟩ := Direction.exists_along hk
    obtain ⟨ν, rfl⟩ := Direction.exists_along hj
    rw [hkey, hkey, Prod.mk.injEq, Link.Congruent, Direction.along_inj, Point.site_eq_iff, and_comm]

/-- The numbers of points inside a lattice are ordered like the points. -/
theorem Counted.pointIndex_lt_iff (h : l.Counted n) {p q : Point} (hp : p.Inside n)
    (hq : q.Inside n) :
    ∃ i j, l.pointIndex p = .ok i ∧ l.pointIndex q = .ok j ∧
      (i < j ↔ p.coords.toList < q.coords.toList) := by
  have hindex : ∀ r : Point, l.pointIndex r = .ok (r.site n).number := fun r =>
    h.periodic.pointIndex_eq_ok_iff.2 ⟨rfl, (Site.number_lt _).trans h.points_lt⟩
  refine ⟨_, _, hindex p, hindex q, ?_⟩
  rw [Point.number_site, Point.number_site, foldl_digits_lt_iff
    (p.length_residues.trans q.length_residues.symm) p.residues_lt q.residues_lt,
    hp.residues_lt_iff hq]
  simp

omit [NeZero n] in
/-- **Points and links are numbered.**  On a lattice whose links can be numbered by words, the links
with the numbers below the number of links are those inside the lattice.  Every link in one of the
four directions has such a number, also if its point lies elsewhere, and what is found with it is
the link whose point is wrapped; two links have the same number if and only if they have the same
direction and their coordinates are congruent.  The same holds for points, and the numbers of the
points inside the lattice follow the lexicographic order of the coordinates. -/
theorem isNumbering (l : Lattice) (hdim : 0 < l.dim.toNat) (hlinks : 4 * l.dim.toNat ^ 4 < 2 ^ 64) :
    l.linkCount = .ok (4 * l.dim.toNat ^ 4) ∧
      IsNumbering Link.Directed (fun k => k.pos.Inside l.dim.toNat) (Link.Congruent l.dim.toNat)
        l.wrapLink l.linkIndex l.linkAt (4 * l.dim.toNat ^ 4) ∧
      l.pointCount = .ok (l.dim.toNat ^ 4) ∧
      IsNumbering (fun _ => True) (Point.Inside l.dim.toNat) (Point.Congruent l.dim.toNat)
        l.wrapPoint l.pointIndex l.pointAt (l.dim.toNat ^ 4) ∧
      ∀ p q : Point, p.Inside l.dim.toNat → q.Inside l.dim.toNat →
        ∃ i j, l.pointIndex p = .ok i ∧ l.pointIndex q = .ok j ∧
          (i < j ↔ p.coords.toList < q.coords.toList) := by
  have : NeZero l.dim.toNat := ⟨hdim.ne'⟩
  have h : l.Numbered l.dim.toNat := ⟨rfl, hlinks⟩
  exact ⟨h.linkCount_eq, h.isNumbering_links, h.pointCount_eq, h.counted.isNumbering_points,
    fun _ _ hp hq => h.counted.pointIndex_lt_iff hp hq⟩

/-- Two names of one link of the largest lattice whose links are numbered. -/
theorem isNumbering_largest :
    IsNumbering Link.Directed (fun k => k.pos.Inside 46340) (Link.Congruent 46340)
      (Lattice.mk 46340).wrapLink
        (Lattice.mk 46340).linkIndex (Lattice.mk 46340).linkAt (4 * 46340 ^ 4) ∧
      (Lattice.mk 46340).linkIndex ⟨⟨#v[.minValue, -1, 7, .maxValue]⟩, .along 3⟩ =
        (Lattice.mk 46340).linkIndex ⟨⟨#v[46332, 46339, -46333, 7]⟩, .along 3⟩ := by
  obtain ⟨-, hlinks, -⟩ := isNumbering ⟨46340⟩ (by decide) (by decide)
  exact ⟨hlinks, (hlinks.number_eq_iff _ _ (by decide) (by decide)).2 (by decide)⟩

end Lattice

end PureGauge
