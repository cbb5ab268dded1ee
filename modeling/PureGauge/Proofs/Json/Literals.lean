/-
**Number literals that are printed.**

The literals of integers and of doubles are canonical: there are only digits before and behind the
point, and there is no superfluous zero in front.  A double has a literal exactly when it is finite.
The literal of an integer stands for this integer as far as words go, and its value as a double is
within the range of doubles.

Main definitions:

* `PureGauge.NumberLiteral.Canonical` — literals as they are printed.

Main results:

* `PureGauge.NumberLiteral.canonical_ofInt`, `PureGauge.NumberLiteral.canonical_ofDouble` — what is
  printed is canonical;
* `PureGauge.NumberLiteral.isSome_ofDouble?` — the doubles that have a literal;
* `PureGauge.NumberLiteral.word?_ofInt`, `PureGauge.NumberLiteral.signedWord?_ofInt` — integers are
  read back;
* `PureGauge.NumberLiteral.isSome_double?_of_word?`,
  `PureGauge.NumberLiteral.isSome_double?_ofInt` — words are within the range of doubles.
-/
import PureGauge.Json.Literal
import PureGauge.Proofs.Decimal.Digits

namespace PureGauge

namespace NumberLiteral

/-! ### The parts of a text -/

/-- The characters of the digits behind the point. -/
def fractionText : List Char → List Char
  | [] => []
  | c :: cs => '.' :: c :: cs

/-- The characters of an exponent. -/
def exponentText : Option ℤ → List Char
  | none => []
  | some e => 'e' :: (if e < 0 then '-' else '+') :: natDigits e.natAbs

theorem text_eq (l : NumberLiteral) :
    l.text =
      (if l.negative then ['-'] else []) ++ l.whole ++ fractionText l.fraction ++
        exponentText l.exponent := by
  obtain ⟨negative, whole, fraction, exponent⟩ := l
  cases fraction with
  | nil =>
      cases exponent with
      | none => rfl
      | some e => rfl
  | cons c cs =>
      cases exponent with
      | none => rfl
      | some e => rfl

/-! ### Canonical literals -/

/-- Only digits before and behind the point, and no superfluous zero in front. -/
structure Canonical (l : NumberLiteral) : Prop where
  whole : ∀ c ∈ l.whole, isDigit c = true
  leading : l.whole = ['0'] ∨ ∃ c cs, l.whole = c :: cs ∧ c ≠ '0'
  fraction : ∀ c ∈ l.fraction, isDigit c = true

/-- There is a digit before the point. -/
theorem Canonical.exists_whole {l : NumberLiteral} (hl : l.Canonical) :
    ∃ c cs, l.whole = c :: cs ∧ isDigit c = true := by
  rcases hl.leading with hzero | ⟨c, cs, hwhole, _⟩
  · exact ⟨'0', [], hzero, rfl⟩
  · exact ⟨c, cs, hwhole, hl.whole c (by rw [hwhole]; exact List.mem_cons_self)⟩

theorem canonical_ofInt (i : ℤ) : (ofInt i).Canonical where
  whole := fun c hc => isDigit_of_mem_natDigits hc
  leading := by
    obtain ⟨c, cs, hdigits, hc⟩ := exists_natDigits i.natAbs
    by_cases hzero : c = '0'
    · rw [ofInt, hc hzero]
      exact Or.inl rfl
    · exact Or.inr ⟨c, cs, hdigits, hzero⟩
  fraction := fun c hc => by simp [ofInt] at hc

/-- Proper digits laid out with a point are canonical. -/
theorem canonical_positional {d : Digits} (hd : d.Proper) {negative : Bool} {fraction : List Char}
    (hfraction : ∀ c ∈ fraction, c = '0' ∨ c ∈ (Layout.positional d).2) :
    Canonical ⟨negative, (Layout.positional d).1, fraction, none⟩ := by
  have hzero : isDigit '0' = true := rfl
  unfold Layout.positional at hfraction ⊢
  by_cases hexponent : d.exponent < 0
  · rw [if_pos hexponent] at hfraction ⊢
    refine ⟨fun c hc => ?_, Or.inl rfl, fun c hc => ?_⟩
    · rw [List.mem_singleton.1 hc, hzero]
    · rcases hfraction c hc with rfl | hc
      · exact hzero
      · rcases List.mem_append.1 hc with hc | hc
        · rw [(List.mem_replicate.1 hc).2, hzero]
        · exact hd.isDigit c hc
  · rw [if_neg hexponent] at hfraction ⊢
    refine ⟨fun c hc => ?_, ?_, fun c hc => ?_⟩
    · rcases List.mem_append.1 hc with hc | hc
      · exact hd.isDigit c (List.mem_of_mem_take hc)
      · rw [(List.mem_replicate.1 hc).2, hzero]
    · rcases hd.leading with rfl | ⟨c, cs, hdigits, hc⟩
      · exact Or.inl rfl
      · refine Or.inr ⟨c,
          cs.take d.exponent.toNat ++ List.replicate (d.exponent.toNat + 1 - d.digits.length) '0',
          ?_, hc⟩
        rw [hdigits]
        rfl
    · rcases hfraction c hc with rfl | hc
      · exact hzero
      · exact hd.isDigit c (List.mem_of_mem_drop hc)

theorem canonical_ofDouble {x : Float} {l : NumberLiteral} (h : ofDouble? x = some l) :
    l.Canonical := by
  unfold ofDouble? at h
  split at h
  · rename_i negative s power hx
    have hd := Digits.proper_shortest layout.tie s power
    simp only at h
    generalize Digits.shortest layout.tie s power = d at h hd
    split at h
    · -- one digit stands before the point
      cases h
      refine ⟨fun c hc => hd.isDigit c (List.mem_of_mem_take hc), ?_,
        fun c hc => hd.isDigit c (List.mem_of_mem_drop hc)⟩
      rcases hd.leading with rfl | ⟨c, cs, hdigits, hc⟩
      · exact Or.inl rfl
      · exact Or.inr ⟨c, [], by rw [hdigits]; rfl, hc⟩
    · cases h
      refine canonical_positional hd fun c hc => ?_
      split at hc
      · exact Or.inl (List.mem_singleton.1 hc)
      · exact Or.inr hc
  · cases h

/-- A double has a literal if it is finite. -/
theorem isSome_ofDouble? (x : Float) : (ofDouble? x).isSome = true ↔ x.isFinite = true := by
  rw [← Double.ofFloat_eq_finite_iff]
  unfold ofDouble?
  cases Double.ofFloat x with
  | notANumber => simp
  | infinite negative => simp
  | finite negative s power =>
      simp only
      split
      · simp
      · simp

/-! ### Integers -/

theorem isInteger_ofInt (i : ℤ) : (ofInt i).isInteger = true := rfl

theorem digitsValue_ofInt (i : ℤ) : digitsValue (ofInt i).whole = i.natAbs :=
  digitsValue_natDigits i.natAbs

/-- A word is the value of its literal. -/
theorem word?_ofInt (n : UInt64) : (ofInt n.toNat).word? = some n := by
  have hlt : n.toNat < UInt64.size := n.toNat_lt
  have hpos : ¬ ((n.toNat : ℤ) < 0) := by omega
  rw [word?, isInteger_ofInt, digitsValue_ofInt, Int.natAbs_natCast,
    if_pos ⟨rfl, by simp [ofInt, hpos], hlt⟩, UInt64.ofNat_toNat]

/-- A signed word is the value of its literal. -/
theorem signedWord?_ofInt (n : Int64) : (ofInt n.toInt).signedWord? = some n := by
  have hnegative : (ofInt n.toInt).negative = decide (n.toInt < 0) := rfl
  have hvalue :
      (if (ofInt n.toInt).negative then -(n.toInt.natAbs : ℤ) else (n.toInt.natAbs : ℤ)) =
        n.toInt := by
    rw [hnegative]
    split
    · rename_i hneg
      have hneg := of_decide_eq_true hneg
      omega
    · rename_i hneg
      have hneg : ¬ n.toInt < 0 := fun h => hneg (decide_eq_true h)
      omega
  have hinteger : ¬ (¬ (ofInt n.toInt).isInteger = true ∨
      ((ofInt n.toInt).negative = true ∧ (n.toInt.natAbs : ℤ) = 0)) := by
    rintro (hfraction | ⟨hneg, hzero⟩)
    · exact hfraction (isInteger_ofInt n.toInt)
    · have hneg := of_decide_eq_true (hnegative ▸ hneg)
      omega
  rw [signedWord?, digitsValue_ofInt]
  rw [if_neg hinteger, hvalue, if_pos ⟨Int64.minValue_le_toInt n, Int64.toInt_le n⟩,
    Int64.ofInt_toInt]

/-! ### Integers as doubles -/

/-- Further digits do not make a number smaller. -/
theorem le_foldl_digits (ds : List Char) (s : ℕ) :
    s ≤ ds.foldl (fun n c => 10 * n + (digitValue? c).getD 0) s := by
  induction ds generalizing s with
  | nil => exact le_rfl
  | cons c ds ih =>
      have hle := ih (10 * s + (digitValue? c).getD 0)
      rw [List.foldl_cons]
      omega

/-- All digits of a number that fits into a word are taken. -/
theorem extend_eq {ds : List Char} {s : ℕ}
    (h : ds.foldl (fun n c => 10 * n + (digitValue? c).getD 0) s < UInt64.size) :
    extend s ds = (ds.foldl (fun n c => 10 * n + (digitValue? c).getD 0) s, []) := by
  induction ds generalizing s with
  | nil => rfl
  | cons c ds ih =>
      rw [List.foldl_cons] at h ⊢
      have hle := le_foldl_digits ds (10 * s + (digitValue? c).getD 0)
      rw [extend, if_pos (by omega), ih h]

/-- If the digits before the point fit into a word, the exponent is diminished by the digits behind
it that are taken. -/
theorem double?_eq {l : NumberLiteral} (h : digitsValue l.whole < UInt64.size) :
    l.double? = (scaled? (UInt64.ofNat (extend (digitsValue l.whole) l.fraction).1).toFloat
      (l.exponent.getD 0 -
        (l.fraction.length - (extend (digitsValue l.whole) l.fraction).2.length : ℕ))).map
        fun x => if l.negative then -x else x := by
  have hextend : extend 0 l.whole = (digitsValue l.whole, []) := extend_eq h
  unfold double?
  simp only [hextend, List.length_nil, Nat.cast_zero, zero_sub, neg_add_eq_sub]

/-- Nothing is too large to be divided by a power of ten. -/
theorem isSome_scaled?_of_nonpos (x : Float) {e : ℤ} (he : e ≤ 0) :
    (scaled? x e).isSome = true := by
  unfold scaled?
  split
  · rfl
  · rw [if_neg (by omega), if_neg (by omega)]
    split
    · rfl
    · split
      · rfl
      · rfl

/-- Without an exponent, numbers before whose point there is a word are within the range of
doubles. -/
theorem isSome_double?_of_exponent {l : NumberLiteral} (hl : l.exponent = none)
    (h : digitsValue l.whole < UInt64.size) : l.double?.isSome = true := by
  rw [double?_eq h, Option.isSome_map, hl]
  exact isSome_scaled?_of_nonpos _ (by rw [Option.getD_none]; omega)

theorem exponent_of_isInteger {l : NumberLiteral} (hl : l.isInteger = true) :
    l.exponent = none := by
  rw [isInteger, Bool.and_eq_true] at hl
  exact Option.isNone_iff_eq_none.1 hl.2

theorem isSome_double?_of_word? {l : NumberLiteral} {n : UInt64} (h : l.word? = some n) :
    l.double?.isSome = true := by
  unfold word? at h
  simp only at h
  split at h
  case isTrue hword => exact isSome_double?_of_exponent (exponent_of_isInteger hword.1) hword.2.2
  case isFalse => cases h

theorem isSome_double?_ofInt {i : ℤ} (h : i.natAbs < UInt64.size) :
    (ofInt i).double?.isSome = true :=
  isSome_double?_of_exponent rfl (by rwa [digitsValue_ofInt])

end NumberLiteral

end PureGauge
