/-
**The grammar of JSON texts.**

Texts are described here without a reader: which characters stand between the parts of a text, how
numbers and quoted texts are spelled, and which characters make up a value.  There are many
spellings of one thing.  Blanks may stand nearly everywhere, an exponent may have a sign or none,
and a character of a quoted text can be spelled by its code.

Main definitions:

* `PureGauge.Grammar.Blanks`, `PureGauge.Grammar.Lead` — what stands between the parts of a text;
* `PureGauge.Grammar.Number` — the spellings of a number literal;
* `PureGauge.Grammar.Quoted` — the spellings of a quoted text, which is used or skipped;
* `PureGauge.Grammar.Part` — values, and the rests of lists and records.

Main results:

* `PureGauge.Grammar.number_text`, `PureGauge.Grammar.quoted_escaped` — what is printed is a
  spelling.
-/
import PureGauge.Json.Reader
import PureGauge.Proofs.Json.Literals
import Mathlib.Tactic.IntervalCases

namespace PureGauge

namespace Grammar

open Reader (isBlank hexValue?)

/-! ### Blanks -/

/-- Characters that mean nothing. -/
def Blanks (cs : List Char) : Prop := ∀ c ∈ cs, isBlank c = true

instance (cs : List Char) : Decidable (Blanks cs) := List.decidableBAll (isBlank · = true) cs

theorem blanks_nil : Blanks [] := fun c hc => by cases hc

/-- What stands before a member of a list or a record, behind the bracket or behind another
member. -/
inductive Lead : Bool → List Char → Prop
  | first {b : List Char} (hb : Blanks b) : Lead true b
  | comma {a b : List Char} (ha : Blanks a) (hb : Blanks b) : Lead false (a ++ ',' :: b)

/-! ### Numbers -/

/-- The spellings of an exponent: a letter, perhaps a sign, and digits. -/
inductive Exponent : List Char → Option ℤ → Prop
  | none : Exponent [] none
  | some {letter : Char} {sign ds : List Char} (hletter : letter = 'e' ∨ letter = 'E')
      (hsign : sign = [] ∨ sign = ['+'] ∨ sign = ['-']) (hne : ds ≠ [])
      (hds : ∀ c ∈ ds, isDigit c = true) :
      Exponent (letter :: (sign ++ ds))
        (some (if sign = ['-'] then -(digitsValue ds : ℤ) else digitsValue ds))

/-- The spellings of a number literal, whose parts before the exponent have only one. -/
inductive Number : List Char → NumberLiteral → Prop
  | mk {l : NumberLiteral} {exponent : List Char} (hl : l.Canonical)
      (hexponent : Exponent exponent l.exponent) :
      Number ((if l.negative then ['-'] else []) ++
        (l.whole ++ (NumberLiteral.fractionText l.fraction ++ exponent))) l

theorem exponent_text (e : Option ℤ) : Exponent (NumberLiteral.exponentText e) e := by
  cases e with
  | none => exact .none
  | some e =>
      have hds : ∀ c ∈ natDigits e.natAbs, isDigit c = true :=
        fun c hc => isDigit_of_mem_natDigits hc
      obtain ⟨c, cs, hdigits, -⟩ := exists_natDigits e.natAbs
      have hne : natDigits e.natAbs ≠ [] := by simp [hdigits]
      rw [NumberLiteral.exponentText]
      by_cases he : e < 0
      · have hspelling := Exponent.some (Or.inl rfl) (Or.inr (Or.inr rfl)) hne hds
        rw [if_pos rfl, digitsValue_natDigits, show -(e.natAbs : ℤ) = e by omega] at hspelling
        rw [if_pos he]
        exact hspelling
      · have hspelling := Exponent.some (Or.inl rfl) (Or.inr (Or.inl rfl)) hne hds
        rw [if_neg (by decide), digitsValue_natDigits,
          show (e.natAbs : ℤ) = e by omega] at hspelling
        rw [if_neg he]
        exact hspelling

/-- A canonical literal is spelled by its text. -/
theorem number_text {l : NumberLiteral} (hl : l.Canonical) : Number l.text l := by
  rw [NumberLiteral.text_eq]
  simp only [List.append_assoc]
  exact .mk hl (exponent_text l.exponent)

/-! ### Quoted texts -/

/-- Four hexadecimal digits and the number that they are. -/
def Code (ds : List Char) (n : ℕ) : Prop :=
  ds.length = 4 ∧ ∃ vs, ds.mapM hexValue? = some vs ∧ vs.foldl (fun n d => 16 * n + d) 0 = n

/-- The escapes that consist of a single character, and what they stand for. -/
def shortEscapes : List (Char × Char) :=
  [('"', '"'), ('\\', '\\'), ('/', '/'), ('b', '\x08'), ('f', '\x0c'), ('n', '\n'), ('r', '\r'),
    ('t', '\t')]

/-- The spellings of a character.  In a text that is not used, codes need not be those of
characters. -/
inductive Piece : Bool → List Char → Char → Prop
  | plain (used : Bool) {c : Char} (hquote : c ≠ '"') (hslash : c ≠ '\\')
      (hcontrol : ¬ c.toNat < 32) :
      Piece used [c] c
  | short (used : Bool) {e c : Char} (h : (e, c) ∈ shortEscapes) : Piece used ['\\', e] c
  | code {ds : List Char} {n : ℕ} (h : Code ds n) (hn : n < 0xD800 ∨ 0xDFFF < n) :
      Piece true ('\\' :: 'u' :: ds) (Char.ofNat n)
  | pair {hs ls : List Char} {high low : ℕ} (hhs : Code hs high) (hls : Code ls low)
      (hhigh : 0xD800 ≤ high ∧ high ≤ 0xDBFF) (hlow : 0xDC00 ≤ low ∧ low ≤ 0xDFFF) :
      Piece true ('\\' :: 'u' :: (hs ++ '\\' :: 'u' :: ls))
        (Char.ofNat (0x10000 + 1024 * (high - 0xD800) + (low - 0xDC00)))
  | skipped {ds : List Char} {n : ℕ} (h : Code ds n) : Piece false ('\\' :: 'u' :: ds) 'u'

/-- The spellings of a text between quotes, character by character. -/
inductive Quoted (used : Bool) : List Char → List Char → Prop
  | nil : Quoted used [] []
  | cons {p cs s : List Char} {c : Char} (head : Piece used p c) (tail : Quoted used cs s) :
      Quoted used (p ++ cs) (c :: s)

/-- A printed character is a spelling of the character. -/
theorem piece_escaped (c : Char) : Piece true (Json.escaped c) c := by
  by_cases hshort : c ∈ ['"', '\\', '\n', '\r', '\t', '\x08', '\x0c']
  · simp only [List.mem_cons, List.not_mem_nil, or_false] at hshort
    rcases hshort with rfl | rfl | rfl | rfl | rfl | rfl | rfl
    all_goals exact .short true (by decide)
  · simp only [List.mem_cons, List.not_mem_nil, or_false, not_or] at hshort
    obtain ⟨hquote, hslash, hline, hreturn, htab, hback, hfeed⟩ := hshort
    rw [Json.escaped, if_neg hquote, if_neg hslash, if_neg hline, if_neg hreturn, if_neg htab,
      if_neg hback, if_neg hfeed]
    by_cases hcontrol : c.toNat < 32
    · have hcode :
          Code ['0', '0', Json.hexDigit (c.toNat / 16), Json.hexDigit (c.toNat % 16)] c.toNat := by
        generalize c.toNat = n at hcontrol
        interval_cases n <;> exact ⟨rfl, _, rfl, rfl⟩
      have hpiece := Piece.code hcode (by omega)
      rw [Char.ofNat_toNat] at hpiece
      rw [if_pos hcontrol]
      exact hpiece
    · rw [if_neg hcontrol]
      exact .plain true hquote hslash hcontrol

/-- A printed text is a spelling of the text. -/
theorem quoted_escaped (s : List Char) : Quoted true (s.flatMap Json.escaped) s := by
  induction s with
  | nil => exact .nil
  | cons c s ih =>
      rw [List.flatMap_cons]
      exact .cons (piece_escaped c) ih

/-- Every character of a spelled text is spelled by at least one. -/
theorem Quoted.length_le {used : Bool} {cs s : List Char} (h : Quoted used cs s) :
    s.length ≤ cs.length := by
  induction h with
  | nil => exact le_rfl
  | @cons p cs s c head tail ih =>
      have hhead : 1 ≤ p.length := by
        cases head with
        | _ => simp
      rw [List.length_append, List.length_cons]
      omega

/-! ### Values -/

/-- What a stretch of a text is: a value, or what is left of a list or a record with the bracket
that closes it.  The flag tells whether there was no member yet. -/
inductive Kind where
  | value
  | items (first : Bool)
  | fields (first : Bool)

/-- The stretches of texts. -/
inductive Part : Kind → List Char → Prop
  | null : Part .value ['n', 'u', 'l', 'l']
  | yes : Part .value ['t', 'r', 'u', 'e']
  | no : Part .value ['f', 'a', 'l', 's', 'e']
  | number {cs : List Char} {l : NumberLiteral} (h : Number cs l) : Part .value cs
  | text {cs s : List Char} (h : Quoted false cs s) : Part .value ('"' :: (cs ++ ['"']))
  | list {cs : List Char} (h : Part (.items true) cs) : Part .value ('[' :: cs)
  | record {cs : List Char} (h : Part (.fields true) cs) : Part .value ('\x7b' :: cs)
  | itemsEnd {first : Bool} {b : List Char} (hb : Blanks b) : Part (.items first) (b ++ [']'])
  | item {first : Bool} {a v cs : List Char} (ha : Lead first a) (hv : Part .value v)
      (tail : Part (.items false) cs) : Part (.items first) (a ++ (v ++ cs))
  | fieldsEnd {first : Bool} {b : List Char} (hb : Blanks b) : Part (.fields first) (b ++ ['\x7d'])
  | field {first : Bool} {a k s b b' v cs : List Char} (ha : Lead first a) (hk : Quoted false k s)
      (hb : Blanks b) (hb' : Blanks b') (hv : Part .value v) (tail : Part (.fields false) cs) :
      Part (.fields first) (a ++ '"' :: (k ++ '"' :: (b ++ ':' :: (b' ++ (v ++ cs)))))

/-- No stretch is empty. -/
theorem Part.length_pos {kind : Kind} {cs : List Char} (h : Part kind cs) : 0 < cs.length := by
  induction h with
  | number hnumber =>
      cases hnumber with
      | mk hl =>
          obtain ⟨c, cs, hdigits, -⟩ := hl.exists_whole
          simp only [hdigits, List.length_append, List.length_cons]
          omega
  | item _ _ _ ihv _ =>
      rw [List.length_append, List.length_append]
      omega
  | _ => simp

end Grammar

end PureGauge
