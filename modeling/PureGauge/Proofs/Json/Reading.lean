/-
**Reading what the grammar spells.**

A reader takes from the front of the characters exactly what was spelled there, whatever follows.
What follows a value inside a text does not go on with a number, so that numbers end where they were
meant to end.  That a reader takes a value unless some number in it was printed as null is one
judgement on readers, with a rule for chains: the first part that was not printed in full decides.

Main definitions:

* `PureGauge.Reader.EndsNumber`, `PureGauge.Reader.Delimited`, `PureGauge.Reader.Opens` — what
  follows a value, and how a value starts;
* `PureGauge.Reader.Reads` — a reader takes a value, or finds one of another kind.

Main results:

* `PureGauge.Reader.goesOn_lead`, `PureGauge.Reader.goesOn_end` — the members of lists and records;
* `PureGauge.Reader.literal_spelled`, `PureGauge.Reader.numberOf_spelled` — numbers are read in
  every spelling;
* `PureGauge.Reader.numberOf_null` — null is not a number;
* `PureGauge.Reader.textRest_spelled` — quoted texts are read in every spelling, whatever characters
  they hold;
* `PureGauge.Reader.skipValue_part` — a value that nobody asked for is passed over, whatever it is;
* `PureGauge.Reader.Reads.bind` — the rule for chains.
-/
import PureGauge.Proofs.Json.Grammar

namespace PureGauge

namespace Reader

open Grammar (Blanks Lead)

variable {α β : Type}

/-! ### Chains -/

theorem bind_of_ok {x : Reader α} {f : α → Reader β} {a : α} {cs rest : List Char}
    (h : x cs = .ok a rest) :
    (x >>= f) cs = f a rest := by
  change EStateM.bind x f cs = _
  rw [EStateM.bind, h]

theorem bind_of_error {x : Reader α} {f : α → Reader β} {e : ReadError} {cs rest : List Char}
    (h : x cs = .error e rest) : (x >>= f) cs = .error e rest := by
  change EStateM.bind x f cs = _
  rw [EStateM.bind, h]

theorem pure_apply (a : α) (cs : List Char) : (pure a : Reader α) cs = .ok a cs := rfl

theorem throw_apply (e : ReadError) (cs : List Char) : (throw e : Reader α) cs = .error e cs := rfl

/-- A reader takes a value from the front of the characters if what was printed for it is intact,
and otherwise finds a value of another kind. -/
def Reads (x : Reader α) (cs : List Char) (intact : Prop) (a : α) (rest : List Char) : Prop :=
  (intact → x cs = .ok a rest) ∧ (¬ intact → ∃ left, x cs = .error .mismatched left)

namespace Reads

variable {x : Reader α} {f : α → Reader β} {cs rest rest' : List Char} {a : α} {b : β} {p q : Prop}

theorem of_ok (h : x cs = .ok a rest) : x.Reads cs True a rest :=
  ⟨fun _ => h, fun hp => absurd trivial hp⟩

theorem congr (h : x.Reads cs p a rest) (hpq : q ↔ p) : x.Reads cs q a rest := by
  rw [propext hpq]
  exact h

/-- The first part that is not intact decides. -/
theorem bind (hx : x.Reads cs p a rest) (hf : (f a).Reads rest q b rest') :
    (x >>= f).Reads cs (p ∧ q) b rest' := by
  by_cases hp : p
  · have hbind : (x >>= f) cs = f a rest := bind_of_ok (hx.1 hp)
    refine ⟨fun hpq => ?_, fun hpq => ?_⟩
    · rw [hbind, hf.1 hpq.2]
    · rw [hbind]
      exact hf.2 fun hq => hpq ⟨hp, hq⟩
  · obtain ⟨left, hleft⟩ := hx.2 hp
    exact ⟨fun hpq => absurd hpq.1 hp, fun _ => ⟨left, bind_of_error hleft⟩⟩

theorem bind_of_ok (hx : x cs = .ok a rest) (hf : (f a).Reads rest q b rest') :
    (x >>= f).Reads cs q b rest' :=
  ((of_ok hx).bind hf).congr (by rw [true_and])

/-- The last link of a chain does not fail. -/
theorem bind_ok (hx : x.Reads cs p a rest) (hf : f a rest = .ok b rest') :
    (x >>= f).Reads cs p b rest' :=
  (hx.bind (of_ok hf)).congr (by rw [and_true])

end Reads

/-! ### Characters -/

theorem peek_cons (c : Char) (cs : List Char) : peek (c :: cs) = .ok (some c) (c :: cs) := rfl

theorem advance_cons (c : Char) (cs : List Char) : advance (c :: cs) = .ok () cs := rfl

theorem start_blanks {b : List Char} (hb : Blanks b) {c : Char} (hc : isBlank c = false)
    (cs : List Char) :
    start (b ++ c :: cs) = .ok c (c :: cs) := by
  have hdrop : (b ++ c :: cs).dropWhile isBlank = c :: cs := by
    rw [List.dropWhile_append_of_pos hb, List.dropWhile_cons, hc]
    rfl
  have hnext : next (b ++ c :: cs) = .ok (some c) (c :: cs) := by
    change EStateM.Result.ok ((b ++ c :: cs).dropWhile isBlank).head?
      ((b ++ c :: cs).dropWhile isBlank) = _
    rw [hdrop]
    rfl
  exact bind_of_ok hnext

theorem start_cons {c : Char} (hc : isBlank c = false) (cs : List Char) :
    start (c :: cs) = .ok c (c :: cs) := start_blanks Grammar.blanks_nil hc cs

theorem keyword_append (ks rest : List Char) : keyword ks (ks ++ rest) = .ok () rest := by
  induction ks with
  | nil => rfl
  | cons c ks ih =>
      rw [keyword, List.cons_append, bind_of_ok (peek_cons c _)]
      simp only [if_true]
      rw [bind_of_ok (advance_cons c _), ih]

theorem mark_blanks {b : List Char} (hb : Blanks b) {c : Char} (hc : isBlank c = false)
    (cs : List Char) :
    mark c (b ++ c :: cs) = .ok () cs := by
  rw [mark, bind_of_ok (start_blanks hb hc cs), if_pos rfl, advance_cons]

theorem mark_cons {c : Char} (hc : isBlank c = false) (cs : List Char) :
    mark c (c :: cs) = .ok () cs :=
  mark_blanks Grammar.blanks_nil hc cs

/-! ### Members of lists and records -/

section

variable {closing c : Char} {opens : Char → Bool}

/-- The bracket ends a list or a record. -/
theorem goesOn_end {b : List Char} (hb : Blanks b) (hclosing : isBlank closing = false)
    (first : Bool) (rest : List Char) :
    goesOn closing opens first (b ++ closing :: rest) = .ok false (closing :: rest) := by
  rw [goesOn, bind_of_ok (start_blanks hb hclosing rest), if_pos rfl, pure_apply]

/-- A further member comes first or behind a comma. -/
theorem goesOn_lead {first : Bool} {a : List Char} (ha : Lead first a) (hclosing : closing ≠ ',')
    (hblank : isBlank c = false) (hc : c ≠ closing) (hopens : opens c = true) (rest : List Char) :
    goesOn closing opens first (a ++ c :: rest) = .ok true (c :: rest) := by
  cases ha with
  | first hb =>
      rw [goesOn, bind_of_ok (start_blanks hb hblank rest), if_neg hc, if_pos rfl, if_pos hopens,
        pure_apply]
  | @comma a b ha hb =>
      have hcomma : ¬ (c = closing ∨ ¬ opens c = true) := by
        rintro (h | h)
        · exact hc h
        · exact h hopens
      rw [List.append_assoc, List.cons_append, goesOn, bind_of_ok (start_blanks ha rfl _),
        if_neg hclosing.symm, if_neg (by decide), if_pos rfl, bind_of_ok (advance_cons _ _),
        bind_of_ok (start_blanks hb hblank rest), if_neg hcomma, pure_apply]

theorem goesOn_closing (hclosing : isBlank closing = false) (first : Bool) (rest : List Char) :
    goesOn closing opens first (closing :: rest) = .ok false (closing :: rest) :=
  goesOn_end Grammar.blanks_nil hclosing first rest

theorem goesOn_first (hclosing : closing ≠ ',') (hblank : isBlank c = false) (hc : c ≠ closing)
    (hopens : opens c = true) (rest : List Char) :
    goesOn closing opens true (c :: rest) = .ok true (c :: rest) :=
  goesOn_lead (.first Grammar.blanks_nil) hclosing hblank hc hopens rest

theorem goesOn_comma (hclosing : closing ≠ ',') (hblank : isBlank c = false) (hc : c ≠ closing)
    (hopens : opens c = true) (rest : List Char) :
    goesOn closing opens false (',' :: c :: rest) = .ok true (c :: rest) :=
  goesOn_lead (.comma Grammar.blanks_nil Grammar.blanks_nil) hclosing hblank hc hopens rest

end

/-! ### Numbers -/

/-- What follows a value inside a text: nothing, a comma, or what closes a list or a record. -/
def Delimited (rest : List Char) : Prop := ∀ c ∈ rest.head?, c = ',' ∨ c = ']' ∨ c = '\x7d'

theorem delimited_nil : Delimited [] := fun c hc => by cases hc

theorem delimited_cons {c : Char} (h : c = ',' ∨ c = ']' ∨ c = '\x7d') (cs : List Char) :
    Delimited (c :: cs) := by
  intro d hd
  rw [List.head?_cons, Option.mem_some_iff] at hd
  rwa [← hd]

/-- The characters do not go on with a digit. -/
def EndsDigits (rest : List Char) : Prop := ∀ c ∈ rest.head?, isDigit c = false

theorem endsDigits_cons {c : Char} (hc : isDigit c = false) (cs : List Char) :
    EndsDigits (c :: cs) := by
  intro d hd
  rw [List.head?_cons, Option.mem_some_iff] at hd
  rwa [← hd]

/-- The characters do not go on with a number. -/
def EndsNumber (rest : List Char) : Prop :=
  ∀ c ∈ rest.head?, isDigit c = false ∧ c ≠ '.' ∧ c ≠ 'e' ∧ c ≠ 'E'

theorem endsNumber_cons {c : Char} (hc : isDigit c = false ∧ c ≠ '.' ∧ c ≠ 'e' ∧ c ≠ 'E')
    (cs : List Char) :
    EndsNumber (c :: cs) := by
  intro d hd
  rw [List.head?_cons, Option.mem_some_iff] at hd
  rwa [← hd]

/-- A number ends in front of blanks. -/
theorem endsNumber_blanks {b : List Char} (hb : Blanks b) {c : Char}
    (hc : isDigit c = false ∧ c ≠ '.' ∧ c ≠ 'e' ∧ c ≠ 'E') (cs : List Char) :
    EndsNumber (b ++ c :: cs) := by
  cases b with
  | nil => exact endsNumber_cons hc cs
  | cons d b =>
      have hd := hb d List.mem_cons_self
      simp only [isBlank, Bool.or_eq_true, decide_eq_true_eq, or_assoc] at hd
      refine endsNumber_cons ?_ _
      rcases hd with rfl | rfl | rfl | rfl
      all_goals decide

/-- A number ends in front of a further member. -/
theorem endsNumber_lead {a : List Char} (ha : Lead false a) (cs : List Char) :
    EndsNumber (a ++ cs) := by
  cases ha with
  | comma ha _ =>
      rw [List.append_assoc]
      exact endsNumber_blanks ha (by decide) _

theorem EndsNumber.endsDigits {rest : List Char} (h : EndsNumber rest) : EndsDigits rest :=
  fun c hc => (h c hc).1

theorem EndsNumber.head?_ne {rest : List Char} (h : EndsNumber rest) : rest.head? ≠ some '.' :=
  fun hhead => (h '.' hhead).2.1 rfl

theorem Delimited.endsNumber {rest : List Char} (h : Delimited rest) : EndsNumber rest := by
  intro c hc
  rcases h c hc with rfl | rfl | rfl
  all_goals decide

theorem digits_append {ds rest : List Char} (hds : ∀ c ∈ ds, isDigit c = true)
    (hrest : EndsDigits rest) :
    digits (ds ++ rest) = .ok ds rest := by
  have htake : rest.takeWhile isDigit = [] ∧ rest.dropWhile isDigit = rest := by
    cases rest with
    | nil => exact ⟨rfl, rfl⟩
    | cons c cs =>
        have hc := hrest c (by rw [List.head?_cons, Option.mem_some_iff])
        rw [List.takeWhile_cons, List.dropWhile_cons, hc]
        exact ⟨rfl, rfl⟩
  rw [digits, List.takeWhile_append_of_pos hds, List.dropWhile_append_of_pos hds, htake.1, htake.2,
    List.append_nil]

theorem digits1_append (ended : ReadError) {c : Char} {cs rest : List Char}
    (hds : ∀ d ∈ c :: cs, isDigit d = true) (hrest : EndsDigits rest) :
    digits1 ended (c :: cs ++ rest) = .ok (c :: cs) rest := by
  rw [digits1, bind_of_ok (digits_append hds hrest)]
  rfl

theorem wholePart_append (ended : ReadError) {l : NumberLiteral} (hl : l.Canonical)
    {rest : List Char} (hrest : EndsDigits rest) :
    wholePart ended (l.whole ++ rest) = .ok l.whole rest := by
  rcases hl.leading with hzero | ⟨c, cs, hwhole, hc⟩
  · rw [hzero, List.singleton_append, wholePart, bind_of_ok (peek_cons _ _), if_pos rfl,
      bind_of_ok (advance_cons _ _)]
    cases rest with
    | nil => rfl
    | cons c cs =>
        have hc := hrest c (by rw [List.head?_cons, Option.mem_some_iff])
        rw [bind_of_ok (peek_cons c cs)]
        simp only
        rw [if_neg (by rw [hc]; decide), pure_apply]
  · have hdigits := hl.whole
    rw [hwhole] at hdigits ⊢
    have hne : ¬ some c = some '0' := fun h => hc (Option.some.inj h)
    rw [wholePart, List.cons_append, bind_of_ok (peek_cons c _), if_neg hne, ← List.cons_append,
      digits1_append ended hdigits hrest]

theorem fractionPart_append (ended : ReadError) {ds rest : List Char}
    (hds : ∀ c ∈ ds, isDigit c = true) (hrest : EndsDigits rest) (hpoint : rest.head? ≠ some '.') :
    fractionPart ended (NumberLiteral.fractionText ds ++ rest) = .ok ds rest := by
  cases ds with
  | nil =>
      have hpeek : peek rest = .ok rest.head? rest := rfl
      rw [NumberLiteral.fractionText, List.nil_append, fractionPart, bind_of_ok hpeek,
        if_neg hpoint, pure_apply]
  | cons c cs =>
      rw [NumberLiteral.fractionText, List.cons_append, fractionPart, bind_of_ok (peek_cons _ _),
        if_pos rfl, bind_of_ok (advance_cons _ _), digits1_append ended hds hrest]

/-- An exponent is read in every spelling. -/
theorem exponentPart_spelled (ended : ReadError) {e : Option ℤ} {cs rest : List Char}
    (h : Grammar.Exponent cs e) (hrest : EndsNumber rest) :
    exponentPart ended (cs ++ rest) = .ok e rest := by
  cases h with
  | none =>
      rw [List.nil_append, exponentPart]
      cases rest with
      | nil => rfl
      | cons c cs =>
          obtain ⟨-, -, hlower, hupper⟩ := hrest c rfl
          have hc : ¬ (c = 'e' ∨ c = 'E') := by
            rintro (h | h)
            · exact hlower h
            · exact hupper h
          rw [bind_of_ok (peek_cons c cs)]
          simp only
          rw [if_neg hc, pure_apply]
  | @some letter sign ds hletter hsign hne hds =>
      obtain ⟨c, cs, rfl⟩ := List.exists_cons_of_ne_nil hne
      have hread : digits1 ended (c :: (cs ++ rest)) = .ok (c :: cs) rest :=
        digits1_append ended hds hrest.endsDigits
      have hdigit := hds c List.mem_cons_self
      have hplus : ¬ (some c = some '+' ∨ some c = some '-') := by
        rintro (h | h)
        · rw [Option.some.inj h] at hdigit
          cases hdigit
        · rw [Option.some.inj h] at hdigit
          cases hdigit
      rw [List.cons_append, exponentPart, bind_of_ok (peek_cons _ _)]
      simp only
      rw [if_pos hletter, bind_of_ok (advance_cons _ _)]
      rcases hsign with rfl | rfl | rfl
      · rw [List.nil_append, List.cons_append, bind_of_ok (peek_cons c _), if_neg hplus,
          bind_of_ok hread, pure_apply, if_neg fun h => hplus (Or.inr h), if_neg (by decide)]
      · rw [List.singleton_append, List.cons_append, List.cons_append, bind_of_ok (peek_cons _ _),
          if_pos (Or.inl rfl), bind_of_ok (advance_cons _ _), bind_of_ok hread, pure_apply,
          if_neg (by decide), if_neg (by decide)]
      · rw [List.singleton_append, List.cons_append, List.cons_append, bind_of_ok (peek_cons _ _),
          if_pos (Or.inr rfl), bind_of_ok (advance_cons _ _), bind_of_ok hread, pure_apply,
          if_pos rfl, if_pos rfl]

/-- The parts of a literal behind its sign are read. -/
theorem literalParts_spelled (ended : ReadError) {l : NumberLiteral} (hl : l.Canonical)
    {exponent : List Char} (hspelling : Grammar.Exponent exponent l.exponent) {rest : List Char}
    (hrest : EndsNumber rest) (negative : Bool) :
    (do
      let whole ← wholePart ended
      let fraction ← fractionPart ended
      let exponent ← exponentPart ended
      return ⟨negative, whole, fraction, exponent⟩ : Reader NumberLiteral)
      (l.whole ++ (NumberLiteral.fractionText l.fraction ++ (exponent ++ rest))) =
      .ok ⟨negative, l.whole, l.fraction, l.exponent⟩ rest := by
  -- each part ends where the next one starts, so what is needed of them is found from the back
  have hexponent := exponentPart_spelled ended hspelling hrest
  generalize hafter : exponent ++ rest = after at hexponent
  have hends : EndsDigits after ∧ after.head? ≠ some '.' := by
    rw [← hafter]
    generalize l.exponent = e at hspelling
    cases hspelling with
    | none => exact ⟨hrest.endsDigits, hrest.head?_ne⟩
    | some hletter =>
        rcases hletter with rfl | rfl
        · exact ⟨endsDigits_cons rfl _, by simp⟩
        · exact ⟨endsDigits_cons rfl _, by simp⟩
  have hfraction := fractionPart_append ended hl.fraction hends.1 hends.2
  generalize hbehind : NumberLiteral.fractionText l.fraction ++ after = behind at hfraction
  have hstop : EndsDigits behind := by
    rw [← hbehind]
    cases l.fraction with
    | nil => exact hends.1
    | cons c cs => exact endsDigits_cons rfl _
  rw [bind_of_ok (wholePart_append ended hl hstop), bind_of_ok hfraction, bind_of_ok hexponent,
    pure_apply]

/-- A number is read in every spelling. -/
theorem literal_spelled (ended : ReadError) {l : NumberLiteral} {cs rest : List Char}
    (h : Grammar.Number cs l) (hrest : EndsNumber rest) :
    literal ended (cs ++ rest) = .ok l rest := by
  cases h with
  | @mk l exponent hl hexponent =>
      have hparts := literalParts_spelled ended hl hexponent hrest
      obtain ⟨c, cs, hdigits, hc⟩ := hl.exists_whole
      rw [literal]
      simp only [List.append_assoc]
      cases hnegative : l.negative with
      | true =>
          rw [if_pos rfl, List.singleton_append, bind_of_ok (peek_cons _ _)]
          simp only [decide_true, if_true]
          rw [bind_of_ok (advance_cons _ _), hparts true, ← hnegative]
      | false =>
          have hminus : ¬ some c = some '-' := by
            intro h
            rw [Option.some.inj h] at hc
            cases hc
          have hpeek (behind : List Char) : peek (l.whole ++ behind) =
              .ok (some c) (l.whole ++ behind) := by
            rw [hdigits, List.cons_append, peek_cons]
          rw [if_neg (by decide), List.nil_append, bind_of_ok (hpeek _)]
          simp only [hminus, decide_false, if_false]
          rw [hparts false, ← hnegative]

/-- How the characters of a value start inside a list: neither with a blank nor with the closing
bracket. -/
def Opens (c : Char) : Prop := isBlank c = false ∧ c ≠ ']'

theorem opens_of_startsNumber {c : Char} (hc : startsNumber c = true) : Opens c := by
  have hdigit : c = '-' ∨ isDigit c = true := by
    rw [startsNumber, Bool.or_eq_true, decide_eq_true_eq] at hc
    exact hc
  rcases hdigit with rfl | hdigit
  · exact ⟨rfl, by decide⟩
  · have hne {d : Char} (hd : isDigit d = false) : c ≠ d := by
      rintro rfl
      rw [hdigit] at hd
      cases hd
    have hblank : isBlank c = false := by
      simp [isBlank, hne (rfl : isDigit ' ' = false), hne (rfl : isDigit '\n' = false),
        hne (rfl : isDigit '\t' = false), hne (rfl : isDigit '\r' = false)]
    exact ⟨hblank, hne rfl⟩

/-- A number starts as numbers do. -/
theorem exists_startsNumber {l : NumberLiteral} {cs : List Char} (h : Grammar.Number cs l) :
    ∃ c left, cs = c :: left ∧ startsNumber c = true := by
  cases h with
  | mk hl =>
      obtain ⟨c, left, hdigits, hc⟩ := hl.exists_whole
      rw [hdigits]
      cases l.negative with
      | true => exact ⟨'-', _, rfl, rfl⟩
      | false => exact ⟨c, _, rfl, by rw [startsNumber, hc, Bool.or_true]⟩

/-- A number that is within the range of doubles and of the right kind is read in every spelling. -/
theorem numberOf_spelled {kind : NumberLiteral → Option α} {l : NumberLiteral} {cs : List Char}
    (h : Grammar.Number cs l) (hrange : l.double?.isSome = true) {a : α} (hkind : kind l = some a)
    {b rest : List Char} (hb : Blanks b) (hrest : EndsNumber rest) :
    numberOf kind (b ++ (cs ++ rest)) = .ok a rest := by
  obtain ⟨c, left, hcs, hc⟩ := exists_startsNumber h
  have hstart : start (b ++ (cs ++ rest)) = .ok c (cs ++ rest) := by
    rw [hcs, List.cons_append, start_blanks hb (opens_of_startsNumber hc).1]
  have hnumber : number (cs ++ rest) = .ok l rest := by
    rw [number, bind_of_ok (literal_spelled .truncated h hrest), if_pos hrange, pure_apply]
  rw [numberOf, bind_of_ok hstart, if_pos hc, bind_of_ok hnumber, hkind]
  rfl

/-- Null is a value of another kind than a number. -/
theorem numberOf_null (kind : NumberLiteral → Option α) (rest : List Char) :
    numberOf kind ('n' :: 'u' :: 'l' :: 'l' :: rest) = .error .mismatched rest := by
  have hkeyword : keyword ['u', 'l', 'l'] ('u' :: 'l' :: 'l' :: rest) = .ok () rest :=
    keyword_append ['u', 'l', 'l'] rest
  rw [numberOf, bind_of_ok (start_cons rfl _), if_neg (by decide), refuse, if_pos rfl,
    bind_of_ok (advance_cons _ _), bind_of_ok hkeyword, throw_apply]

/-! ### Quoted texts -/

/-- Four digits are read. -/
theorem hex4_spelled {ds : List Char} {n : ℕ} (h : Grammar.Code ds n) (rest : List Char) :
    hex4 (ds ++ rest) = .ok n rest := by
  obtain ⟨hlength, vs, hvs, rfl⟩ := h
  match ds, hlength with
  | [a, b, c, d], _ =>
      -- the digits take at least four bytes
      have hsize : ¬ [a, b, c, d].foldl (fun n c => n + c.utf8Size) 0 < 4 := by
        have ha := a.utf8Size_pos
        have hb := b.utf8Size_pos
        have hc := c.utf8Size_pos
        have hd := d.utf8Size_pos
        simp only [List.foldl_cons, List.foldl_nil]
        omega
      have hget : (get : Reader (List Char)) ([a, b, c, d] ++ rest) = .ok ([a, b, c, d] ++ rest)
          ([a, b, c, d] ++ rest) := rfl
      have htake : ([a, b, c, d] ++ rest).take 4 = [a, b, c, d] := rfl
      rw [hex4, bind_of_ok hget]
      simp only [htake]
      rw [if_neg hsize, hvs]
      rfl

/-- A code, or two of them, stands for a character. -/
theorem codeEscape_code {ds : List Char} {n : ℕ} (h : Grammar.Code ds n)
    (hn : n < 0xD800 ∨ 0xDFFF < n) (rest : List Char) :
    codeEscape (ds ++ rest) = .ok (Char.ofNat n) rest := by
  have hlow : ¬ (0xDC00 ≤ n ∧ n ≤ 0xDFFF) := by omega
  have hhigh : n < 0xD800 ∨ 0xDBFF < n := by omega
  rw [codeEscape, bind_of_ok (hex4_spelled h rest), if_neg hlow, if_pos hhigh, pure_apply]

theorem codeEscape_pair {hs ls : List Char} {high low : ℕ} (hhs : Grammar.Code hs high)
    (hls : Grammar.Code ls low) (hhigh : 0xD800 ≤ high ∧ high ≤ 0xDBFF)
    (hlow : 0xDC00 ≤ low ∧ low ≤ 0xDFFF) (rest : List Char) :
    codeEscape (hs ++ '\\' :: 'u' :: (ls ++ rest)) =
      .ok (Char.ofNat (0x10000 + 1024 * (high - 0xD800) + (low - 0xDC00))) rest := by
  have hfirst : ¬ (0xDC00 ≤ high ∧ high ≤ 0xDFFF) := by omega
  have hsecond : ¬ (high < 0xD800 ∨ 0xDBFF < high) := by omega
  have horder : ¬ (low < 0xDC00 ∨ 0xDFFF < low) := by omega
  rw [codeEscape, bind_of_ok (hex4_spelled hhs _), if_neg hfirst, if_neg hsecond]
  -- between the codes stand the two characters that the second one starts with
  change (do
    let low ← hex4
    if low < 0xDC00 ∨ 0xDFFF < low then throw .malformed
    else return Char.ofNat (0x10000 + 1024 * (high - 0xD800) + (low - 0xDC00)) : Reader Char)
      (ls ++ rest) = _
  rw [bind_of_ok (hex4_spelled hls rest), if_neg horder, pure_apply]

/-- A character is read in every spelling, and takes one turn. -/
theorem textChars_piece {used : Bool} {p : List Char} {c : Char} (h : Grammar.Piece used p c)
    {n : ℕ} {cs rest s : List Char} (hcs : textChars used n cs = .ok s rest) :
    textChars used (n + 1) (p ++ cs) = .ok (c :: s) rest := by
  have hescape {e : Char} {left : List Char} (hescape : escape used left = .ok e cs) :
      textChars used (n + 1) ('\\' :: left) = .ok (e :: s) rest := by
    rw [textChars, bind_of_ok (peek_cons _ _)]
    simp only
    rw [bind_of_ok (advance_cons _ _), if_neg (by decide), if_pos trivial, bind_of_ok hescape,
      bind_of_ok hcs, pure_apply]
  cases h with
  | plain _ hquote hslash hcontrol =>
      rw [List.singleton_append, textChars, bind_of_ok (peek_cons _ _)]
      simp only
      rw [bind_of_ok (advance_cons _ _), if_neg hquote, if_neg hslash, if_neg hcontrol,
        bind_of_ok hcs, pure_apply]
  | short _ hmem =>
      simp only [Grammar.shortEscapes, List.mem_cons, Prod.mk.injEq, List.not_mem_nil,
        or_false] at hmem
      rcases hmem with ⟨rfl, rfl⟩ | ⟨rfl, rfl⟩ | ⟨rfl, rfl⟩ | ⟨rfl, rfl⟩ | ⟨rfl, rfl⟩ | ⟨rfl, rfl⟩ |
        ⟨rfl, rfl⟩ | ⟨rfl, rfl⟩
      all_goals exact hescape rfl
  | code hcode hn => exact hescape (codeEscape_code hcode hn cs)
  | pair hhs hls hhigh hlow =>
      have hpair := codeEscape_pair hhs hls hhigh hlow cs
      rw [← List.cons_append, ← List.cons_append, ← List.append_assoc] at hpair
      exact hescape hpair
  | skipped hcode => exact hescape (bind_of_ok (hex4_spelled hcode cs))

/-- A quoted text is read in every spelling, up to the quote behind it. -/
theorem textChars_spelled {used : Bool} {cs s : List Char} (h : Grammar.Quoted used cs s)
    (rest : List Char) {n : ℕ} (hn : s.length < n) :
    textChars used n (cs ++ '"' :: rest) = .ok s rest := by
  induction h generalizing n with
  | nil =>
      obtain ⟨n, rfl⟩ := Nat.exists_eq_succ_of_ne_zero hn.ne'
      rfl
  | cons head tail ih =>
      obtain ⟨n, rfl⟩ := Nat.exists_eq_succ_of_ne_zero (Nat.ne_of_gt (Nat.zero_lt_of_lt hn))
      rw [List.append_assoc]
      exact textChars_piece head (ih (Nat.lt_of_succ_lt_succ hn))

/-- A quoted text is read behind its first quote. -/
theorem textRest_spelled {used : Bool} {cs s : List Char} (h : Grammar.Quoted used cs s)
    (rest : List Char) :
    textRest used (cs ++ '"' :: rest) = .ok (String.ofList s) rest := by
  have hlength := h.length_le
  have hchars : bounded (textChars used) (cs ++ '"' :: rest) = .ok s rest := by
    refine textChars_spelled h rest ?_
    rw [List.length_append]
    omega
  rw [textRest, bind_of_ok hchars, pure_apply]

/-- A printed text is read back behind its first quote. -/
theorem textRest_escaped (s : String) (rest : List Char) :
    textRest true (s.toList.flatMap Json.escaped ++ '"' :: rest) = .ok s rest := by
  rw [textRest_spelled (Grammar.quoted_escaped s.toList), String.ofList_toList]

/-! ### Values that are skipped -/

open Grammar (Kind Part)

/-- A value starts neither with a blank nor with a closing bracket. -/
theorem exists_opens {cs : List Char} (h : Part .value cs) :
    ∃ c left, cs = c :: left ∧ Opens c := by
  cases h with
  | number hnumber =>
      obtain ⟨c, left, hcs, hc⟩ := exists_startsNumber hnumber
      exact ⟨c, left, hcs, opens_of_startsNumber hc⟩
  | _ => exact ⟨_, _, rfl, rfl, by decide⟩

/-- A number ends in front of what is left of a list or a record behind a member. -/
theorem endsNumber_items {cs : List Char} (h : Part (.items false) cs) (rest : List Char) :
    EndsNumber (cs ++ rest) := by
  cases h with
  | itemsEnd hb =>
      rw [List.append_assoc]
      exact endsNumber_blanks hb (by decide) _
  | item ha _ _ =>
      rw [List.append_assoc]
      exact endsNumber_lead ha _

theorem endsNumber_fields {cs : List Char} (h : Part (.fields false) cs) (rest : List Char) :
    EndsNumber (cs ++ rest) := by
  cases h with
  | fieldsEnd hb =>
      rw [List.append_assoc]
      exact endsNumber_blanks hb (by decide) _
  | field ha _ _ _ _ _ =>
      rw [List.append_assoc]
      exact endsNumber_lead ha _

/-- A stretch of a text is skipped if there are as many turns as characters.  What is left of a list
or a record is skipped up to its bracket. -/
def Skips : Kind → List Char → Prop
  | .value, cs => ∀ (n : ℕ) (b rest : List Char), cs.length ≤ n + 1 → Blanks b → EndsNumber rest →
      skipWithin (n + 1) (b ++ (cs ++ rest)) = .ok () rest
  | .items first, cs => ∀ (n : ℕ) (rest : List Char), cs.length ≤ n + 1 →
      skipItems (n + 1) first (cs ++ rest) = .ok () (']' :: rest)
  | .fields first, cs => ∀ (n : ℕ) (rest : List Char), cs.length ≤ n + 1 →
      skipFields (n + 1) first (cs ++ rest) = .ok () ('\x7d' :: rest)

theorem skipWithin_number {l : NumberLiteral} {cs b rest : List Char} (h : Grammar.Number cs l)
    (hb : Blanks b) (hrest : EndsNumber rest) (n : ℕ) :
    skipWithin (n + 1) (b ++ (cs ++ rest)) = .ok () rest := by
  obtain ⟨c, left, hcs, hc⟩ := exists_startsNumber h
  have hstart : start (b ++ (cs ++ rest)) = .ok c (cs ++ rest) := by
    rw [hcs, List.cons_append, start_blanks hb (opens_of_startsNumber hc).1]
  have hletter {d : Char} (hd : startsNumber d = false) : c ≠ d := by
    rintro rfl
    rw [hc] at hd
    cases hd
  rw [skipWithin, bind_of_ok hstart, if_neg (hletter rfl), if_neg (hletter rfl),
    if_neg (hletter rfl), if_pos hc, bind_of_ok (literal_spelled .malformed h hrest), pure_apply]

/-- Every stretch of a text is skipped. -/
theorem skips_of_part {kind : Kind} {cs : List Char} (h : Part kind cs) : Skips kind cs := by
  -- along the text; a turn is spent on every value and on every member, each
  -- of which has a character
  induction h with
  | null =>
      intro n b rest _ hb _
      rw [List.cons_append, skipWithin, bind_of_ok (start_blanks hb rfl _), if_pos rfl,
        bind_of_ok (advance_cons _ _)]
      exact keyword_append ['u', 'l', 'l'] rest
  | yes =>
      intro n b rest _ hb _
      rw [List.cons_append, skipWithin, bind_of_ok (start_blanks hb rfl _), if_neg (by decide),
        if_pos rfl, bind_of_ok (advance_cons _ _)]
      exact keyword_append ['r', 'u', 'e'] rest
  | no =>
      intro n b rest _ hb _
      rw [List.cons_append, skipWithin, bind_of_ok (start_blanks hb rfl _), if_neg (by decide),
        if_neg (by decide), if_pos rfl, bind_of_ok (advance_cons _ _)]
      exact keyword_append ['a', 'l', 's', 'e'] rest
  | number hnumber =>
      intro n b rest _ hb hrest
      exact skipWithin_number hnumber hb hrest n
  | text htext =>
      intro n b rest _ hb _
      rw [List.cons_append, List.append_assoc, skipWithin, bind_of_ok (start_blanks hb rfl _),
        if_neg (by decide), if_neg (by decide), if_neg (by decide), if_neg (by decide), if_pos rfl,
        bind_of_ok (advance_cons _ _)]
      exact bind_of_ok (textRest_spelled htext rest)
  | list hitems ih =>
      intro n b rest hn hb _
      have hpos := hitems.length_pos
      rw [List.length_cons] at hn
      obtain ⟨n, rfl⟩ := Nat.exists_eq_succ_of_ne_zero (show n ≠ 0 by omega)
      rw [List.cons_append, skipWithin, bind_of_ok (start_blanks hb rfl _), if_neg (by decide),
        if_neg (by decide), if_neg (by decide), if_neg (by decide), if_neg (by decide), if_pos rfl,
        bind_of_ok (advance_cons _ _), bind_of_ok (ih n rest (Nat.le_of_succ_le_succ hn)),
        mark_cons rfl rest]
  | record hfields ih =>
      intro n b rest hn hb _
      have hpos := hfields.length_pos
      rw [List.length_cons] at hn
      obtain ⟨n, rfl⟩ := Nat.exists_eq_succ_of_ne_zero (show n ≠ 0 by omega)
      rw [List.cons_append, skipWithin, bind_of_ok (start_blanks hb rfl _), if_neg (by decide),
        if_neg (by decide), if_neg (by decide), if_neg (by decide), if_neg (by decide),
        if_neg (by decide), if_pos rfl, bind_of_ok (advance_cons _ _),
        bind_of_ok (ih n rest (Nat.le_of_succ_le_succ hn)), mark_cons rfl rest]
  | @itemsEnd first b hb =>
      intro n rest _
      rw [List.append_assoc, List.singleton_append, skipItems, hasItem,
        bind_of_ok (goesOn_end hb rfl first rest), if_neg (by decide), pure_apply]
  | @item first a v cs ha hv htail ihv iht =>
      intro n rest hn
      have hpos := hv.length_pos
      have hmore := htail.length_pos
      obtain ⟨c, left, hvalue, hblank, hc⟩ := exists_opens hv
      have hlead : hasItem first (a ++ (v ++ (cs ++ rest))) = .ok true (v ++ (cs ++ rest)) := by
        rw [hvalue, List.cons_append, hasItem, goesOn_lead ha (by decide) hblank hc rfl]
      rw [List.length_append, List.length_append] at hn
      obtain ⟨n, rfl⟩ := Nat.exists_eq_succ_of_ne_zero (show n ≠ 0 by omega)
      have hskip : skipWithin (n + 1) (v ++ (cs ++ rest)) = .ok () (cs ++ rest) :=
        ihv n [] _ (by omega) Grammar.blanks_nil (endsNumber_items htail rest)
      rw [List.append_assoc, List.append_assoc, skipItems, bind_of_ok hlead, if_pos rfl,
        bind_of_ok hskip, iht n rest (by omega)]
  | @fieldsEnd first b hb =>
      intro n rest _
      rw [List.append_assoc, List.singleton_append, skipFields, hasField,
        bind_of_ok (goesOn_end hb rfl first rest), if_neg (by decide), pure_apply]
  | @field first a k s b b' v cs ha hk hb hb' hv htail ihv iht =>
      intro n rest hn
      simp only [List.length_append, List.length_cons] at hn
      obtain ⟨n, rfl⟩ := Nat.exists_eq_succ_of_ne_zero (show n ≠ 0 by omega)
      simp only [List.append_assoc, List.cons_append]
      rw [skipFields, hasField,
        bind_of_ok (goesOn_lead ha (by decide) rfl (by decide) (by decide) _), if_pos rfl,
        bind_of_ok (advance_cons _ _), bind_of_ok (textRest_spelled hk _),
        bind_of_ok (mark_blanks hb rfl _),
        bind_of_ok (ihv n b' _ (by omega) hb' (endsNumber_fields htail rest)),
        iht n rest (by omega)]

/-- Every value is skipped, with the blanks before it. -/
theorem skipValue_part {cs b rest : List Char} (h : Part .value cs) (hb : Blanks b)
    (hrest : EndsNumber rest) :
    skipValue (b ++ (cs ++ rest)) = .ok () rest := by
  have hpos := h.length_pos
  have hskips : Skips .value cs := skips_of_part h
  refine hskips (2 * (b ++ (cs ++ rest)).length + 1) b rest ?_ hb hrest
  rw [List.length_append, List.length_append]
  omega

end Reader

end PureGauge
