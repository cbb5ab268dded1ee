/-
**Walks are queues with two ends.**

A walk answers like the list of its items, from which calls take items at both ends: a call drops
some items at its end, gives the next one, and leaves the others.  Whatever calls are made, every
item has been given, has been dropped or is left, and each of them is in one of these places only.
A call that finds nothing leaves nothing.

Main definitions:

* `PureGauge.Walk.Call`, `PureGauge.Walk.calls` — calls on a walk, and several of them;
* `PureGauge.Walk.Call.take`, `PureGauge.Walk.account` — the same on a list, and what became of the
  items;
* `PureGauge.Walk.Shows` — a walk stands before the items of a list;
* `PureGauge.Walk.IsQueue` — a walk that answers like a list, whatever calls are made.

Main results:

* `PureGauge.Walk.Shows.call`, `PureGauge.Walk.Shows.calls` — a call, and any number of calls;
* `PureGauge.Walk.Call.perm`, `PureGauge.Walk.perm_account` — nothing is lost, nothing is given
  twice;
* `PureGauge.Walk.Shows.isQueue` — a walk that shows a list is a queue of its items.
-/
import PureGauge.Lattice.Walk
import PureGauge.Proofs.Checked
import Mathlib.Data.List.ReduceOption
import Mathlib.Data.List.Nodup

namespace PureGauge

open scoped List

namespace Walk

variable {α : Type}

/-! ### Calls -/

/-- A call that takes an item at one end. -/
inductive Call where
  | next
  | nextBack
  | nth (k : ℕ)
  | nthBack (k : ℕ)

/-- What a call answers, and the walk after it. -/
def call (w : Walk α) : Call → Checked (Option α × Walk α)
  | .next => w.next
  | .nextBack => w.nextBack
  | .nth k => w.nth k
  | .nthBack k => w.nthBack k

/-- What calls answer that are made one after the other, and the walk after them. -/
def calls (w : Walk α) : List Call → Checked (List (Option α) × Walk α)
  | [] => .ok ([], w)
  | c :: cs => do
      let (answer, v) ← w.call c
      let (answers, u) ← v.calls cs
      return (answer :: answers, u)

/-- What a call does to a list: the items that it drops, the one that it gives, and those that it
leaves. -/
structure Taken (α : Type) where
  dropped : List α
  given : Option α
  left : List α

/-- A call on a list.  There are at most as many items to be dropped as the list has. -/
def Call.take (xs : List α) : Call → Taken α
  | .next => ⟨[], xs.head?, xs.tail⟩
  | .nextBack => ⟨[], xs.getLast?, xs.dropLast⟩
  | .nth k => ⟨xs.take k, (xs.drop k).head?, (xs.drop k).tail⟩
  | .nthBack k =>
      let rest := xs.take (xs.length - k)
      ⟨xs.drop (xs.length - k), rest.getLast?, rest.dropLast⟩

/-- What became of the items of a list: the answers, the items that were dropped, and those that are
left. -/
structure Account (α : Type) where
  answers : List (Option α)
  dropped : List α
  left : List α

/-- The items that were given. -/
def Account.given (a : Account α) : List α := a.answers.reduceOption

/-- Calls on a list, one after the other. -/
def account : List Call → List α → Account α
  | [], xs => ⟨[], [], xs⟩
  | c :: cs, xs =>
      let taken := c.take xs
      let rest := account cs taken.left
      ⟨taken.given :: rest.answers, taken.dropped ++ rest.dropped, rest.left⟩

/-! ### What became of the items -/

theorem head_append_tail (xs : List α) : xs.head?.toList ++ xs.tail = xs := by cases xs <;> rfl

theorem dropLast_append_last (xs : List α) : xs.dropLast ++ xs.getLast?.toList = xs := by
  rcases xs.eq_nil_or_concat' with rfl | ⟨init, x, rfl⟩
  · rfl
  · simp

/-- A call loses no item, and puts none of them in two places. -/
theorem Call.perm (c : Call) (xs : List α) :
    ((c.take xs).dropped ++ ((c.take xs).given.toList ++ (c.take xs).left)).Perm xs := by
  cases c with
  | next => exact .of_eq (head_append_tail xs)
  | nextBack =>
      change xs.getLast?.toList ++ xs.dropLast ~ xs
      exact List.perm_append_comm.trans (.of_eq (dropLast_append_last xs))
  | nth k => exact .of_eq ((congrArg _ (head_append_tail _)).trans (List.take_append_drop k xs))
  | nthBack k =>
      set m := xs.length - k with hm
      calc xs.drop m ++ ((xs.take m).getLast?.toList ++ (xs.take m).dropLast)
          ~ xs.drop m ++ ((xs.take m).dropLast ++ (xs.take m).getLast?.toList) :=
            List.perm_append_comm.append_left _
        _ = xs.drop m ++ xs.take m := by rw [dropLast_append_last]
        _ ~ xs.take m ++ xs.drop m := List.perm_append_comm
        _ = xs := List.take_append_drop m xs

/-- **No item is lost, and none of them is in two places**, whatever calls are made. -/
theorem perm_account (cs : List Call) (xs : List α) :
    ((account cs xs).dropped ++ ((account cs xs).given ++ (account cs xs).left)).Perm xs := by
  induction cs generalizing xs with
  | nil => exact .refl xs
  | cons c cs ih =>
      have hgiven : (account (c :: cs) xs).given =
          (c.take xs).given.toList ++ (account cs (c.take xs).left).given := by
        change List.reduceOption (_ :: _) = _
        cases (c.take xs).given <;> rfl
      rw [hgiven]
      set taken := c.take xs
      set rest := account cs taken.left
      calc (taken.dropped ++ rest.dropped) ++ ((taken.given.toList ++ rest.given) ++ rest.left)
          = taken.dropped ++
              (rest.dropped ++ (taken.given.toList ++ (rest.given ++ rest.left))) := by
            simp only [List.append_assoc]
        _ ~ taken.dropped ++ (taken.given.toList ++ (rest.dropped ++ (rest.given ++ rest.left))) :=
            (List.perm_append_comm_assoc ..).append_left _
        _ ~ taken.dropped ++ (taken.given.toList ++ taken.left) :=
          ((ih _).append_left _).append_left _
        _ ~ xs := c.perm xs

example : account [.next, .nth 1, .nthBack 1, .nth 5, .nextBack] [10, 11, 12, 13, 14, 15, 16] =
    ⟨[some 10, some 12, some 15, none, none], [11, 16, 13, 14], []⟩ := rfl

/-- A call that gives nothing leaves nothing. -/
theorem Call.left_of_given_eq_none {c : Call} {xs : List α} (h : (c.take xs).given = none) :
    (c.take xs).left = [] := by
  cases c with
  | next => exact congrArg List.tail (List.head?_eq_none_iff.1 h)
  | nextBack => exact congrArg List.dropLast (List.getLast?_eq_none_iff.1 h)
  | nth k => exact congrArg List.tail (List.head?_eq_none_iff.1 h)
  | nthBack k => exact congrArg List.dropLast (List.getLast?_eq_none_iff.1 h)

/-- Nothing is given from nothing. -/
theorem forall_answers_nil (cs : List Call) :
    ∀ answer ∈ (account cs ([] : List α)).answers, answer = none := by
  induction cs with
  | nil => simp [account]
  | cons c cs ih =>
      have hgiven : (c.take ([] : List α)).given = none := by cases c <;> simp [Call.take]
      refine List.forall_mem_cons.2 ⟨hgiven, ?_⟩
      rw [Call.left_of_given_eq_none hgiven]
      exact ih

/-- **After nothing was given, nothing is given any more.** -/
theorem pairwise_answers (cs : List Call) (xs : List α) :
    (account cs xs).answers.Pairwise fun earlier later => earlier = none → later = none := by
  induction cs generalizing xs with
  | nil => exact .nil
  | cons c cs ih =>
      refine List.pairwise_cons.2 ⟨fun later hlater hnone => ?_, ih _⟩
      rw [Call.left_of_given_eq_none hnone] at hlater
      exact forall_answers_nil cs later hlater

/-! ### Walks and the lists of their items -/

/-- A walk stands before the items of a list. -/
structure Shows (w : Walk α) (xs : List α) : Prop where
  stop_eq : w.stop = w.front + xs.length
  item_eq : ∀ i < xs.length, w.item (w.front + i) = .ok xs[i]?

namespace Shows

variable {w : Walk α} {xs : List α}

theorem size_eq (h : w.Shows xs) : w.size = xs.length := by
  rw [size, h.stop_eq, Nat.add_sub_cancel_left]

theorem toList_eq (h : w.Shows xs) : w.toList = .ok xs := by
  have hmap : (List.range xs.length).map (fun i => xs[i]?) = xs.map some := by
    refine List.ext_getElem (by simp) fun i h₁ h₂ => ?_
    rw [List.getElem_map, List.getElem_range, List.getElem_map, List.getElem?_eq_getElem]
  rw [toList, h.size_eq, Checked.mapM_eq_ok fun i hi => h.item_eq i (List.mem_range.1 hi), hmap,
    Checked.ok_bind, List.filterMap_map]
  exact congrArg Except.ok List.filterMap_some

/-- A walk over all items of a list. -/
theorem whole {item : ℕ → Checked (Option α)} (h : ∀ i, item i = .ok xs[i]?) :
    Shows ⟨item, 0, xs.length⟩ xs :=
  ⟨(Nat.zero_add _).symm, fun i _ => by rw [Nat.zero_add]; exact h i⟩

theorem next (h : w.Shows xs) : ∃ v, w.next = .ok (xs.head?, v) ∧ v.Shows xs.tail := by
  cases xs with
  | nil =>
      have hend : ¬ w.front < w.stop := by rw [h.stop_eq]; simp
      exact ⟨w, by rw [Walk.next, if_neg hend]; rfl, h⟩
  | cons x xs =>
      have hmore : w.front < w.stop := by rw [h.stop_eq]; simp
      have hitem : w.item w.front = .ok (some x) := h.item_eq 0 (by simp)
      refine ⟨{ w with front := w.front + 1 }, by rw [Walk.next, if_pos hmore, hitem]; rfl, ?_,
        fun i hi => ?_⟩
      · change w.stop = w.front + 1 + xs.length
        rw [h.stop_eq, List.length_cons, Nat.add_right_comm, Nat.add_assoc]
      · have hshift := h.item_eq (i + 1) (Nat.succ_lt_succ hi)
        rwa [← Nat.add_assoc, Nat.add_right_comm] at hshift

theorem nextBack (h : w.Shows xs) :
    ∃ v, w.nextBack = .ok (xs.getLast?, v) ∧ v.Shows xs.dropLast := by
  rcases xs.eq_nil_or_concat' with rfl | ⟨init, x, rfl⟩
  · have hend : ¬ w.front < w.stop := by rw [h.stop_eq]; simp
    exact ⟨w, by rw [Walk.nextBack, if_neg hend]; rfl, h⟩
  · have hlength : w.stop = w.front + init.length + 1 := by
      rw [h.stop_eq, List.length_append, List.length_singleton, Nat.add_assoc]
    have hmore : w.front < w.stop := by omega
    have hitem : w.item (w.stop - 1) = .ok (some x) := by
      rw [hlength, Nat.add_sub_cancel, h.item_eq init.length (by simp)]
      simp
    refine ⟨{ w with stop := w.stop - 1 }, ?_, ?_, fun i hi => ?_⟩
    · rw [Walk.nextBack, if_pos hmore, hitem, List.getLast?_concat]
      rfl
    · rw [List.dropLast_concat, hlength, Nat.add_sub_cancel]
    · rw [List.dropLast_concat] at hi ⊢
      have hitem' := h.item_eq i (by simp; omega)
      rwa [List.getElem?_append_left hi] at hitem'

theorem nth (h : w.Shows xs) (k : ℕ) :
    ∃ v, w.nth k = .ok ((xs.drop k).head?, v) ∧ v.Shows (xs.drop k).tail := by
  have hfront : min (w.front + k) w.stop = w.front + min k xs.length := by
    rw [h.stop_eq]
    omega
  refine Shows.next (w := { w with front := min (w.front + k) w.stop }) ⟨?_, fun i hi => ?_⟩
  · change w.stop = min (w.front + k) w.stop + _
    rw [hfront, h.stop_eq, List.length_drop]
    omega
  · rw [List.length_drop] at hi
    have hmin : min k xs.length = k := by omega
    have hitem := h.item_eq (k + i) (by omega)
    change w.item (min (w.front + k) w.stop + i) = _
    rwa [hfront, hmin, List.getElem?_drop, Nat.add_assoc]

theorem nthBack (h : w.Shows xs) (k : ℕ) :
    ∃ v, w.nthBack k = .ok ((xs.take (xs.length - k)).getLast?, v) ∧
      v.Shows (xs.take (xs.length - k)).dropLast := by
  induction k generalizing w xs with
  | zero =>
      rw [Nat.sub_zero, List.take_length]
      exact h.nextBack
  | succ k ih =>
      obtain ⟨v, hv, hleft⟩ := h.nextBack
      rw [Walk.nthBack, hv, Checked.ok_bind]
      rcases xs.eq_nil_or_concat' with rfl | ⟨init, x, rfl⟩
      · exact ⟨v, by simp, by simpa using hleft⟩
      · have hlength : (init ++ [x]).length - (k + 1) = init.length - k := by
          rw [List.length_append, List.length_singleton, Nat.add_sub_add_right]
        rw [List.getLast?_concat, hlength, List.take_append_of_le_length (Nat.sub_le ..)]
        rw [List.dropLast_concat] at hleft
        exact ih hleft

/-- **A call on a walk** answers like the call on the list, and the walk stands before what is
left. -/
theorem call (h : w.Shows xs) (c : Call) :
    ∃ v, w.call c = .ok ((c.take xs).given, v) ∧ v.Shows (c.take xs).left := by
  cases c with
  | next => exact h.next
  | nextBack => exact h.nextBack
  | nth k => exact h.nth k
  | nthBack k => exact h.nthBack k

/-- **Calls on a walk**, as many as there are. -/
theorem calls (h : w.Shows xs) (cs : List Call) :
    ∃ v, w.calls cs = .ok ((account cs xs).answers, v) ∧ v.Shows (account cs xs).left := by
  induction cs generalizing w xs with
  | nil => exact ⟨w, rfl, h⟩
  | cons c cs ih =>
      obtain ⟨v, hv, hleft⟩ := h.call c
      obtain ⟨u, hu, hleft⟩ := ih hleft
      refine ⟨u, ?_, hleft⟩
      simp only [Walk.calls, hv, Checked.ok_bind, hu]
      rfl

end Shows

/-- A walk that answers like a list, whatever calls are made: it is always known how much is left,
every item has been given or dropped or is left, none of them twice, and after nothing was given
nothing is given any more. -/
structure IsQueue (w : Walk α) (xs : List α) : Prop where
  answers : ∀ cs, ∃ v, w.calls cs = .ok ((account cs xs).answers, v) ∧
    v.size = (account cs xs).left.length ∧ v.toList = .ok (account cs xs).left
  accounted : ∀ cs, ((account cs xs).dropped ++
    ((account cs xs).given ++ (account cs xs).left)).Perm xs
  nodup : ∀ cs, ((account cs xs).dropped ++ ((account cs xs).given ++ (account cs xs).left)).Nodup
  ended : ∀ cs, (account cs xs).answers.Pairwise fun earlier later => earlier = none → later = none

/-- **A walk that stands before different items is a queue of them.** -/
theorem Shows.isQueue {w : Walk α} {xs : List α} (h : w.Shows xs) (hxs : xs.Nodup) :
    w.IsQueue xs where
  answers cs := by
    obtain ⟨v, hv, hleft⟩ := h.calls cs
    exact ⟨v, hv, hleft.size_eq, hleft.toList_eq⟩
  accounted cs := perm_account cs xs
  nodup cs := (perm_account cs xs).nodup_iff.2 hxs
  ended cs := pairwise_answers cs xs

end Walk

end PureGauge
