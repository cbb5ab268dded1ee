/-
**All links of a lattice.**

The walk over the links of a lattice meets each of them once, in the order of the numbers.  A sum
that is taken along the walk is a sum over the sites and the directions.

Main definitions:

* `PureGauge.Lattice.links` — the links that the walk meets;
* `PureGauge.Site.linkNumbering` — links and their numbers correspond to each other;
* `PureGauge.Lattice.alongLinks`, `PureGauge.Lattice.linkList` — what is found link by link, and the
  links themselves, in order.

Main results:

* `PureGauge.Lattice.Numbered.links_eq` — the walk meets these links;
* `PureGauge.Lattice.mem_linkList`, `PureGauge.Lattice.nodup_linkList` — each of them once;
* `PureGauge.Lattice.mapM_linkList`, `PureGauge.Lattice.sum_alongLinks` — loops and sums along the
  walk.
-/
import PureGauge.Proofs.Lattice.Numbering
import PureGauge.Proofs.Lattice.Walk

namespace PureGauge

namespace Site

variable {n : ℕ} [NeZero n]

/-- Links and numbers below `4 n ^ 4` correspond to each other. -/
def linkNumbering (n : ℕ) [NeZero n] : Fin (4 * n ^ 4) ≃ Site n × Fin 4 where
  toFun i := (ofNumber n (i / 4), Fin.ofNat 4 i)
  invFun xμ := ⟨linkNumber xμ.1 xμ.2, linkNumber_lt xμ.1 xμ.2⟩
  left_inv i := by
    refine Fin.ext ?_
    change number (ofNumber n (i / 4)) * 4 + i % 4 = i
    rw [number_ofNumber (Nat.div_lt_of_lt_mul i.2), Nat.div_add_mod']
  right_inv xμ := by
    have hsite : ofNumber n (linkNumber xμ.1 xμ.2 / 4) = xμ.1 := by
      rw [linkNumber_div, ofNumber_number]
    exact Prod.ext hsite (Fin.ext (linkNumber_mod xμ.1 xμ.2))

/-- The link that leaves the point of a site in a direction. -/
def link (xμ : Site n × Fin 4) : Link := ⟨xμ.1.point, .along xμ.2⟩

theorem link_injective (h : n < 2 ^ 63) : Function.Injective (link (n := n)) := by
  rintro ⟨x, μ⟩ ⟨y, ν⟩ heq
  rw [link, link, Link.mk.injEq, Direction.along_inj] at heq
  exact Prod.ext (point_injective h heq.1) heq.2

end Site

namespace Lattice

/-- All links, in the order of the walk. -/
def links (l : Lattice) : Checked (List Link) := do (← l.walkLinks).toList

variable {l : Lattice} {n : ℕ} [NeZero n]

/-- What is found link by link, in the order of the numbers. -/
def alongLinks {α : Type} (g : Site n × Fin 4 → α) : List α :=
  (List.finRange (4 * n ^ 4)).map fun i => g (Site.linkNumbering n i)

/-- The links of a lattice with `n` points in each direction, in the order of their numbers. -/
def linkList (n : ℕ) [NeZero n] : List Link := alongLinks fun xμ : Site n × Fin 4 => Site.link xμ

theorem mem_alongLinks {α : Type} {g : Site n × Fin 4 → α} {a : α} :
    a ∈ alongLinks g ↔ ∃ xμ, g xμ = a := by
  simp only [alongLinks, List.mem_map, List.mem_finRange, true_and]
  exact ((Site.linkNumbering n).surjective.exists (p := fun xμ => g xμ = a)).symm

theorem map_alongLinks {α β : Type} (f : α → β) (g : Site n × Fin 4 → α) :
    (alongLinks g).map f = alongLinks fun xμ => f (g xμ) := by
  rw [alongLinks, List.map_map]
  rfl

/-- A sum along the links is a sum over the sites and the directions. -/
theorem sum_alongLinks {M : Type} [AddCommMonoid M] (g : Site n × Fin 4 → M) :
    (alongLinks g).sum = ∑ x, ∑ μ, g (x, μ) := by
  rw [alongLinks, ← Fin.sum_univ_def, ← Fintype.sum_prod_type']
  exact Equiv.sum_comp (Site.linkNumbering n) g

/-- What a loop over the links finds, if it finds something at each of them. -/
theorem mapM_linkList {β : Type} {f : Link → Checked β} {g : Site n × Fin 4 → β}
    (h : ∀ xμ, f (Site.link xμ) = .ok (g xμ)) : (linkList n).mapM f = .ok (alongLinks g) := by
  rw [linkList, alongLinks, List.mapM_map]
  exact Checked.mapM_eq_ok fun i _ => h (Site.linkNumbering n i)

theorem mem_linkList {k : Link} :
    k ∈ linkList n ↔ ∃ (x : Site n) (μ : Fin 4), k = ⟨x.point, .along μ⟩ := by
  simp only [linkList, mem_alongLinks, Prod.exists, Site.link, eq_comm]

theorem length_linkList : (linkList n).length = 4 * n ^ 4 := by
  rw [linkList, alongLinks, List.length_map, List.length_finRange]

theorem nodup_linkList (h : n < 2 ^ 63) : (linkList n).Nodup :=
  (List.nodup_finRange _).map ((Site.link_injective h).comp (Site.linkNumbering n).injective)

namespace Numbered

/-- The link with a number is the one at its place in the list. -/
theorem linkAt_eq (h : l.Numbered n) (i : ℕ) : l.linkAt i = .ok (linkList n)[i]? := by
  by_cases hi : i < 4 * n ^ 4
  · obtain ⟨x, μ, rfl⟩ := Site.exists_linkNumber hi
    have hlink : Site.linkNumbering n ⟨x.linkNumber μ, hi⟩ = (x, μ) :=
      (Site.linkNumbering n).apply_symm_apply (x, μ)
    rw [h.linkAt_linkNumber, List.getElem?_eq_getElem (by rwa [length_linkList])]
    simp [linkList, alongLinks, hlink, Site.link]
  · rw [h.linkAt_of_le (not_lt.1 hi), List.getElem?_eq_none (by rw [length_linkList]; omega)]

theorem walkLinks_eq (h : l.Numbered n) : l.walkLinks = .ok ⟨l.linkAt, 0, (linkList n).length⟩ := by
  rw [walkLinks, h.linkCount_eq, length_linkList]
  rfl

/-- The links that the walk meets. -/
theorem links_eq (h : l.Numbered n) : l.links = .ok (linkList n) := by
  rw [links, h.walkLinks_eq, Checked.ok_bind]
  exact (Walk.Shows.whole h.linkAt_eq).toList_eq

/-- The number of the link of a site is found. -/
theorem linkIndex_link (h : l.Numbered n) (x : Site n) (μ : Fin 4) :
    l.linkIndex ⟨x.point, .along μ⟩ = .ok (x.linkNumber μ) := by
  rw [h.linkIndex_eq, Site.site_point h.periodic.lt]

/-- The links of the walk have the numbers from zero on. -/
theorem mapM_linkIndex_linkList (h : l.Numbered n) :
    (linkList n).mapM l.linkIndex = .ok (List.range (4 * n ^ 4)) := by
  rw [mapM_linkList (g := fun xμ => xμ.1.linkNumber xμ.2) fun xμ => h.linkIndex_link xμ.1 xμ.2,
    alongLinks, ← List.map_coe_finRange_eq_range]
  exact congrArg Except.ok <| List.map_congr_left fun i _ =>
    congrArg Fin.val ((Site.linkNumbering n).symm_apply_apply i)

end Numbered

end Lattice

end PureGauge
