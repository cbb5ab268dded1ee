/-
**Formats read what they write.**

A format settles a value if it reads back what it wrote for it, whatever follows in the text, unless
some number of the value was written as null: then it finds a value of another kind.  Every way to
put formats together carries this over from the parts to the whole.  For a list this is an induction
on its items; for a record it is an induction on its fields, along which the parts that were read so
far are filled in.

Main definitions:

* `PureGauge.Format.Settles` — a format settles a value;
* `PureGauge.RecordField.Settles`, `PureGauge.RecordFormat.Fills` — fields fill in the parts of a
  record.

Main results:

* `PureGauge.Format.Settles.list`, `PureGauge.Format.Settles.exactly`,
  `PureGauge.Format.Settles.tuple` — lists;
* `PureGauge.RecordFormat.Fills.settles` — records;
* `PureGauge.Format.Settles.decodeText_encodeText` — what this says about texts.
-/
import PureGauge.Json.Format
import PureGauge.Proofs.Json.Reading

namespace PureGauge

/-! ### Characters of lists and records -/

namespace Json

/-- The characters behind an item of a list, if these items follow. -/
def itemTail : List Json → List Char
  | [] => [']']
  | v :: rest => ',' :: itemChars (v :: rest)

/-- The characters of items, behind the bracket or behind another item. -/
def itemsFrom (first : Bool) (vs : List Json) : List Char :=
  if first then itemChars vs else itemTail vs

theorem itemsFrom_nil (first : Bool) : itemsFrom first [] = [']'] := by
  cases first with
  | true => rw [itemsFrom, if_pos rfl, itemChars]
  | false => rfl

theorem itemChars_cons (v : Json) (rest : List Json) :
    itemChars (v :: rest) = v.chars ++ itemTail rest := by
  cases rest with
  | nil => rw [itemChars, itemTail]
  | cons w rest => simp [itemChars, itemTail]

theorem length_itemChars (vs : List Json) : vs.length ≤ (itemChars vs).length := by
  induction vs with
  | nil => exact Nat.zero_le _
  | cons v rest ih =>
      rw [itemChars_cons]
      cases rest with
      | nil => simp [itemTail]
      | cons w rest =>
          simp only [itemTail, List.length_append, List.length_cons] at ih ⊢
          omega

/-- The characters behind a field of a record, if these fields follow. -/
def fieldTail : List (String × Json) → List Char
  | [] => ['\x7d']
  | field :: rest => ',' :: fieldChars (field :: rest)

/-- The characters of fields, behind the brace or behind another field. -/
def fieldsFrom (first : Bool) (fields : List (String × Json)) : List Char :=
  if first then fieldChars fields else fieldTail fields

theorem fieldChars_cons (k : String) (v : Json) (rest : List (String × Json)) :
    fieldChars ((k, v) :: rest) =
      '"' :: (k.toList.flatMap escaped ++ '"' :: ':' :: (v.chars ++ fieldTail rest)) := by
  cases rest with
  | nil => simp [fieldChars, fieldTail, quoted]
  | cons w rest => simp [fieldChars, fieldTail, quoted]

theorem length_fieldChars (fields : List (String × Json)) :
    fields.length ≤ (fieldChars fields).length := by
  induction fields with
  | nil => exact Nat.zero_le _
  | cons field rest ih =>
      rw [fieldChars_cons]
      cases rest with
      | nil => simp
      | cons w rest =>
          simp only [fieldTail, List.length_append, List.length_cons] at ih ⊢
          omega

theorem fieldsFrom_nil (first : Bool) : fieldsFrom first [] = ['\x7d'] := by
  cases first with
  | true => rw [fieldsFrom, if_pos rfl, fieldChars]
  | false => rfl

theorem delimited_itemTail (vs : List Json) (rest : List Char) :
    Reader.Delimited (itemTail vs ++ rest) := by
  cases vs with
  | nil => exact Reader.delimited_cons (Or.inr (Or.inl rfl)) _
  | cons v vs => exact Reader.delimited_cons (Or.inl rfl) _

theorem delimited_fieldTail (fields : List (String × Json)) (rest : List Char) :
    Reader.Delimited (fieldTail fields ++ rest) := by
  cases fields with
  | nil => exact Reader.delimited_cons (Or.inr (Or.inr rfl)) _
  | cons v vs => exact Reader.delimited_cons (Or.inl rfl) _

end Json

open Reader (Delimited Opens)
open Json (itemTail itemsFrom fieldTail fieldsFrom)

/-! ### Values -/

/-- A format reads back what it writes for a value if that is intact, and otherwise finds a value of
another kind. -/
structure Format.Settles {α : Type} (f : Format α) (a : α) (intact : Prop) : Prop where
  opens : ∃ c cs, (f.encode a).chars = c :: cs ∧ Opens c
  reads : ∀ rest, Delimited rest → f.decode.Reads ((f.encode a).chars ++ rest) intact a rest

namespace Format

variable {α β : Type}

theorem Settles.congr {f : Format α} {a : α} {p q : Prop} (h : f.Settles a p) (hpq : q ↔ p) :
    f.Settles a q := by
  rw [propext hpq]
  exact h

/-- What settling a value says about its text. -/
theorem Settles.decodeText_encodeText {f : Format α} {a : α} {intact : Prop}
    (h : f.Settles a intact) :
    (intact → f.decodeText (f.encodeText a) = .ok a) ∧
      (¬ intact → f.decodeText (f.encodeText a) = .error .mismatched) := by
  have hreads := h.reads [] Reader.delimited_nil
  rw [List.append_nil] at hreads
  have hsource : (f.encodeText a).toList = (f.encode a).chars := by
    rw [encodeText, Json.compact, String.toList_ofList]
  have hnext : Reader.next [] = .ok none [] := rfl
  refine ⟨fun hintact => ?_, fun hintact => ?_⟩
  · rw [decodeText, Reader.whole, hsource]
    simp only
    rw [Reader.bind_of_ok (hreads.1 hintact), Reader.bind_of_ok hnext]
    rfl
  · obtain ⟨left, hleft⟩ := hreads.2 hintact
    rw [decodeText, Reader.whole, hsource]
    simp only
    rw [Reader.bind_of_error hleft]

/-! ### Numbers -/

/-- A number that is printed as a literal and read back from it is settled. -/
theorem settles_number {f : Format α} {kind : NumberLiteral → Option α}
    (hdecode : f.decode = Reader.numberOf kind) {a : α} {l : NumberLiteral}
    (hencode : f.encode a = .number l) (hl : l.Canonical) (hrange : l.double?.isSome = true)
    (hkind : kind l = some a) : f.Settles a True := by
  have hnumber := Grammar.number_text hl
  obtain ⟨c, cs, htext, hc⟩ := Reader.exists_startsNumber hnumber
  have hchars : (f.encode a).chars = l.text := by rw [hencode, Json.chars]
  refine ⟨⟨c, cs, ?_, Reader.opens_of_startsNumber hc⟩, fun rest hrest => Reader.Reads.of_ok ?_⟩
  · rw [hchars, htext]
  · rw [hchars, hdecode]
    exact Reader.numberOf_spelled hnumber hrange hkind Grammar.blanks_nil hrest.endsNumber

theorem settles_word (n : UInt64) : word.Settles n True :=
  settles_number rfl rfl (NumberLiteral.canonical_ofInt _)
    (NumberLiteral.isSome_double?_ofInt n.toNat_lt)
    (NumberLiteral.word?_ofInt n)

theorem settles_signedWord (n : Int64) : signedWord.Settles n True := by
  have hrange : n.toInt.natAbs < UInt64.size := by
    have hlow := Int64.le_toInt n
    have hhigh := Int64.toInt_lt n
    simp only [UInt64.size]
    omega
  exact settles_number rfl rfl (NumberLiteral.canonical_ofInt _)
    (NumberLiteral.isSome_double?_ofInt hrange)
    (NumberLiteral.signedWord?_ofInt n)

theorem encode_real (x : Float) :
    (real : Format Float).encode x = match NumberLiteral.ofDouble? x with
    | some l => .number l
    | none => .null := rfl

/-- A double is settled if its literal stands for it; it is intact if it is finite. -/
theorem settles_real {x : Float}
    (hcodec : x.isFinite = true → (NumberLiteral.ofDouble? x).bind NumberLiteral.double? = some x) :
    real.Settles x (x.isFinite = true) := by
  cases hliteral : NumberLiteral.ofDouble? x with
  | some l =>
      have hfinite : x.isFinite = true := by
        rw [← NumberLiteral.isSome_ofDouble?, hliteral]
        rfl
      have hvalue : l.double? = some x := by
        have hcodec := hcodec hfinite
        rwa [hliteral, Option.bind_some] at hcodec
      have hencode : (real : Format Float).encode x = .number l := by rw [encode_real, hliteral]
      have hdecode : (real : Format Float).decode =
          Reader.numberOf fun l => some (l.double?.getD 0) := rfl
      have hkind : some (l.double?.getD 0) = some x := by rw [hvalue, Option.getD_some]
      exact (settles_number hdecode hencode (NumberLiteral.canonical_ofDouble hliteral)
        (by rw [hvalue]; rfl)
        hkind).congr (iff_true_intro hfinite)
  | none =>
      have hfinite : ¬ x.isFinite = true := by
        rw [← NumberLiteral.isSome_ofDouble?, hliteral]
        decide
      have hchars : ((real : Format Float).encode x).chars = ['n', 'u', 'l', 'l'] := by
        rw [encode_real, hliteral, Json.chars]
      refine ⟨⟨'n', _, hchars, rfl, by decide⟩,
        fun rest hrest => ⟨fun h => absurd h hfinite, fun _ => ?_⟩⟩
      rw [hchars]
      exact ⟨rest, Reader.numberOf_null (fun l => some (RealLiteral.ofLiteral l)) rest⟩

/-! ### Names -/

/-- A name that is in the table for this value alone is read back. -/
theorem settles_names [DecidableEq α] {table : List (String × α)} {name : String} {a : α}
    (hvalue : (table.find? fun (_, b) => b = a) = some (name, a))
    (hname : (table.find? fun (n, _) => n = name) = some (name, a)) :
    (names table).Settles a True := by
  have hencode : (names table).encode a = .text name := by
    simp only [names, hvalue]
  have hchars : ((names table).encode a).chars = Json.quoted name := by rw [hencode, Json.chars]
  refine ⟨⟨'"', _, hchars, rfl, by decide⟩, fun rest _ => Reader.Reads.of_ok ?_⟩
  have hquoted : Json.quoted name ++ rest =
      '"' :: (name.toList.flatMap Json.escaped ++ '"' :: rest) := by
    simp [Json.quoted]
  have htext :
      Reader.text ('"' :: (name.toList.flatMap Json.escaped ++ '"' :: rest)) = .ok name rest := by
    rw [Reader.text, Reader.bind_of_ok (Reader.start_cons rfl _), if_pos rfl,
      Reader.bind_of_ok (Reader.advance_cons _ _), Reader.textRest_escaped]
  change Reader.variant table _ = _
  rw [hchars, hquoted, Reader.variant, Reader.bind_of_ok (Reader.start_cons rfl _),
    if_neg (by decide), if_pos rfl, Reader.bind_of_ok htext]
  simp only [hname]
  rfl

/-! ### Other types -/

theorem Settles.convert {f : Format α} {write : β → α} {read : α → Option β} {b : β} {intact : Prop}
    (h : f.Settles (write b) intact) (hread : read (write b) = some b) :
    (convert f write read).Settles b intact := by
  refine ⟨h.opens, fun rest hrest => ?_⟩
  refine (h.reads rest hrest).bind_ok ?_
  rw [hread]
  rfl

/-! ### Lists -/

section

variable {f : Format α} {a : α} {as : List α} {p q : Prop} {rest : List Char}

theorem hasItem_nil (first : Bool) (rest : List Char) :
    Reader.hasItem first (itemsFrom first [] ++ rest) = .ok false (']' :: rest) := by
  rw [Json.itemsFrom_nil, List.singleton_append, Reader.hasItem, Reader.goesOn_closing rfl]

theorem hasItem_cons {v : Json} (hv : ∃ c cs, v.chars = c :: cs ∧ Opens c) (first : Bool)
    (vs : List Json) (rest : List Char) :
    Reader.hasItem first (itemsFrom first (v :: vs) ++ rest) =
      .ok true (v.chars ++ (itemTail vs ++ rest)) := by
  obtain ⟨c, cs, hchars, hblank, hc⟩ := hv
  cases first with
  | true =>
      rw [itemsFrom, if_pos rfl, Json.itemChars_cons, List.append_assoc, hchars, List.cons_append,
        Reader.hasItem, Reader.goesOn_first (by decide) hblank hc rfl]
  | false =>
      rw [itemsFrom, if_neg (by decide), itemTail, List.cons_append, Json.itemChars_cons,
        List.append_assoc, hchars, List.cons_append, Reader.hasItem,
        Reader.goesOn_comma (by decide) hblank hc rfl]

/-- One turn of a loop over the items of a list. -/
theorem Settles.reads_item (h : f.Settles a p) {loop stop : Reader (List α)}
    (hloop : loop.Reads (itemTail (as.map f.encode) ++ rest) q as (']' :: rest)) (first : Bool) :
    (do
      if ← Reader.hasItem first then
        let a ← f.decode
        return a :: (← loop)
      else stop : Reader (List α)).Reads (itemsFrom first ((a :: as).map f.encode) ++ rest)
        (p ∧ q) (a :: as)
      (']' :: rest) := by
  refine Reader.Reads.bind_of_ok (hasItem_cons h.opens first _ _) ?_
  rw [if_pos rfl]
  -- what follows the item starts with a comma or a bracket, so a number ends
  -- where it was meant to end
  refine (h.reads _ (Json.delimited_itemTail _ rest)).bind ?_
  exact hloop.bind_ok rfl

/-- All items of a list, if there are enough turns. -/
theorem reads_items (intact : α → Prop) (h : ∀ a ∈ as, f.Settles a (intact a)) {n : ℕ}
    (hn : as.length < n) (first : Bool) :
    (Reader.items f.decode n first).Reads (itemsFrom first (as.map f.encode) ++ rest)
      (∀ a ∈ as, intact a) as (']' :: rest) := by
  induction as generalizing n first with
  | nil =>
      obtain ⟨n, rfl⟩ := Nat.exists_eq_succ_of_ne_zero hn.ne'
      refine (Reader.Reads.of_ok ?_).congr (by simp)
      rw [Reader.items, List.map_nil, Reader.bind_of_ok (hasItem_nil first rest),
        if_neg (by decide), Reader.pure_apply]
  | cons a as ih =>
      obtain ⟨n, rfl⟩ := Nat.exists_eq_succ_of_ne_zero (Nat.ne_of_gt (Nat.zero_lt_of_lt hn))
      have hrest :=
        ih (fun b hb => h b (List.mem_cons_of_mem a hb)) (Nat.lt_of_succ_lt_succ hn) false
      rw [List.forall_mem_cons, Reader.items]
      exact (h a List.mem_cons_self).reads_item hrest first

/-- As many items as there are, counted. -/
theorem reads_exactItems (intact : α → Prop) (h : ∀ a ∈ as, f.Settles a (intact a)) (first : Bool) :
    (Reader.exactItems f.decode as.length first).Reads (itemsFrom first (as.map f.encode) ++ rest)
      (∀ a ∈ as, intact a) as (']' :: rest) := by
  induction as generalizing first with
  | nil =>
      refine (Reader.Reads.of_ok ?_).congr (by simp)
      rw [List.length_nil, Reader.exactItems, List.map_nil,
        Reader.bind_of_ok (hasItem_nil first rest), if_neg (by decide), Reader.pure_apply]
  | cons a as ih =>
      have hrest := ih (fun b hb => h b (List.mem_cons_of_mem a hb)) false
      rw [List.forall_mem_cons, List.length_cons, Reader.exactItems]
      exact (h a List.mem_cons_self).reads_item hrest first

/-- As many items as there are, without a look at what follows them. -/
theorem reads_firstItems (intact : α → Prop) (h : ∀ a ∈ as, f.Settles a (intact a)) (first : Bool) :
    (Reader.firstItems f.decode as.length first).Reads (itemsFrom first (as.map f.encode) ++ rest)
      (∀ a ∈ as, intact a) as (']' :: rest) := by
  induction as generalizing first with
  | nil =>
      refine (Reader.Reads.of_ok ?_).congr (by simp)
      rw [List.length_nil, Reader.firstItems, List.map_nil, Json.itemsFrom_nil,
        List.singleton_append, Reader.pure_apply]
  | cons a as ih =>
      have hrest := ih (fun b hb => h b (List.mem_cons_of_mem a hb)) false
      rw [List.forall_mem_cons, List.length_cons, Reader.firstItems]
      exact (h a List.mem_cons_self).reads_item hrest first

/-- A list, given how its items are read. -/
theorem settles_listOf {f : Format α} {loop : Reader α} {vs : List Json} {a : α} {p : Prop}
    (hencode : f.encode a = .list vs) (hdecode : f.decode = Reader.listOf loop)
    (hloop : ∀ rest, loop.Reads (Json.itemChars vs ++ rest) p a (']' :: rest)) : f.Settles a p := by
  have hchars : (f.encode a).chars = '[' :: Json.itemChars vs := by rw [hencode, Json.chars]
  refine ⟨⟨'[', _, hchars, rfl, by decide⟩, fun rest _ => ?_⟩
  rw [hchars, hdecode, List.cons_append]
  refine Reader.Reads.bind_of_ok (Reader.start_cons rfl _) ?_
  rw [if_pos rfl]
  refine Reader.Reads.bind_of_ok (Reader.advance_cons _ _) ?_
  refine (hloop rest).bind_ok ?_
  rw [Reader.bind_of_ok (Reader.mark_cons rfl rest), Reader.pure_apply]

theorem Settles.list {f : Format α} {as : List α} (intact : α → Prop)
    (h : ∀ a ∈ as, f.Settles a (intact a)) :
    (list f).Settles as (∀ a ∈ as, intact a) := by
  have hdecode :
      (Format.list f).decode =
        Reader.listOf (Reader.bounded fun n => Reader.items f.decode n true) := rfl
  refine settles_listOf rfl hdecode fun rest => ?_
  refine reads_items intact h ?_ true
  have hlength := Json.length_itemChars (as.map f.encode)
  rw [List.length_map] at hlength
  rw [List.length_append]
  omega

theorem Settles.exactly {n : ℕ} {f : Format α} {as : List α} (intact : α → Prop)
    (h : ∀ a ∈ as, f.Settles a (intact a)) (hlength : as.length = n) :
    (exactly n f).Settles as (∀ a ∈ as, intact a) := by
  subst hlength
  exact settles_listOf rfl rfl fun rest => reads_exactItems intact h true

theorem Settles.tuple {n : ℕ} {f : Format α} {as : List α} (intact : α → Prop)
    (h : ∀ a ∈ as, f.Settles a (intact a)) (hlength : as.length = n) :
    (tuple n f).Settles as (∀ a ∈ as, intact a) := by
  subst hlength
  exact settles_listOf rfl rfl fun rest => reads_firstItems intact h true

end

end Format

/-! ### Records -/

/-- A field reads back what it writes for a record, into the parts that were read so far. -/
structure RecordField.Settles {P α : Type} (g : RecordField P α) (a : α) (p p' : P)
    (intact : Prop) : Prop where
  unfilled : g.filled p = false
  reads : ∀ rest, Delimited rest → (g.decode p).Reads ((g.encode a).chars ++ rest) intact p' rest

theorem RecordField.settles_of {P α β : Type} {name : String} {f : Format β} {value : α → β}
    {part : P → Option β} {fill : P → β → P} {a : α} {p : P} {intact : Prop}
    (h : f.Settles (value a) intact) (hpart : part p = none) :
    (RecordField.of name f value part fill).Settles a p (fill p (value a)) intact := by
  refine ⟨?_, fun rest hrest => ?_⟩
  · change (part p).isSome = false
    rw [hpart]
    rfl
  · exact (h.reads rest hrest).bind_ok rfl

namespace RecordFormat

variable {P α : Type}

/-- The fields fill in the parts of a record one after another. -/
inductive Fills (a : α) : List (RecordField P α) → P → P → Prop → Prop
  | nil (p : P) : Fills a [] p p True
  | cons {g : RecordField P α} {gs : List (RecordField P α)} {p p' p'' : P} {intact others : Prop}
      (head : g.Settles a p p' intact) (tail : Fills a gs p' p'' others) :
      Fills a (g :: gs) p p'' (intact ∧ others)

variable {r : RecordFormat P α} {a : α} {p p' : P} {intact : Prop}

/-- The fields of a record as they are written. -/
def written (gs : List (RecordField P α)) (a : α) : List (String × Json) :=
  gs.map fun g => (g.name, g.encode a)

theorem hasField_nil (first : Bool) (rest : List Char) :
    Reader.hasField first (fieldsFrom first [] ++ rest) = .ok false ('\x7d' :: rest) := by
  rw [Json.fieldsFrom_nil, List.singleton_append, Reader.hasField, Reader.goesOn_closing rfl]

theorem hasField_cons (first : Bool) (k : String) (v : Json) (fields : List (String × Json))
    (rest : List Char) :
    Reader.hasField first (fieldsFrom first ((k, v) :: fields) ++ rest) =
      .ok true
        ('"' :: (k.toList.flatMap Json.escaped ++ '"' :: ':' ::
          (v.chars ++ (fieldTail fields ++ rest)))) := by
  have hchars : Json.fieldChars ((k, v) :: fields) ++ rest =
      '"' :: (k.toList.flatMap Json.escaped ++ '"' :: ':' ::
        (v.chars ++ (fieldTail fields ++ rest))) := by
    simp [Json.fieldChars_cons]
  cases first with
  | true =>
      rw [fieldsFrom, if_pos rfl, hchars, Reader.hasField,
        Reader.goesOn_first (by decide) rfl (by decide) (by decide)]
  | false =>
      rw [fieldsFrom, if_neg (by decide), fieldTail, List.cons_append, hchars, Reader.hasField,
        Reader.goesOn_comma (by decide) rfl (by decide) (by decide)]

/-- A field is found by its name if the names are distinct. -/
theorem find?_name {gs : List (RecordField P α)} (hnames : (gs.map (·.name)).Nodup)
    {g : RecordField P α} (hg : g ∈ gs) : gs.find? (·.name = g.name) = some g := by
  induction gs with
  | nil => cases hg
  | cons g' gs ih =>
      rw [List.map_cons, List.nodup_cons] at hnames
      rcases List.mem_cons.1 hg with rfl | hg
      · rw [List.find?_cons_of_pos (by simp)]
      · have hne : g'.name ≠ g.name := fun h => hnames.1 (h ▸ List.mem_map_of_mem hg)
        rw [List.find?_cons_of_neg (by simpa using hne), ih hnames.2 hg]

/-- The remaining fields of a record are read in the order in which they were written. -/
theorem Fills.reads {gs : List (RecordField P α)} (h : Fills a gs p p' intact)
    (hnames : (r.fields.map (·.name)).Nodup) (hgs : gs ⊆ r.fields) {n : ℕ} (hn : gs.length < n)
    (first : Bool) (rest : List Char) :
    (r.readFields n first p).Reads (fieldsFrom first (written gs a) ++ rest) intact p'
      ('\x7d' :: rest) := by
  -- along the fields that are left; one turn is spent on each of them, and one on the brace
  induction h generalizing n first with
  | nil p =>
      obtain ⟨n, rfl⟩ := Nat.exists_eq_succ_of_ne_zero hn.ne'
      refine Reader.Reads.of_ok ?_
      rw [readFields, written, List.map_nil, Reader.bind_of_ok (hasField_nil first rest),
        if_neg (by decide), Reader.pure_apply]
  | @cons g gs p p₁ p₂ intact others head tail ih =>
      obtain ⟨n, rfl⟩ := Nat.exists_eq_succ_of_ne_zero (Nat.ne_of_gt (Nat.zero_lt_of_lt hn))
      have hothers :=
        ih (fun g' hg' => hgs (List.mem_cons_of_mem g hg')) (Nat.lt_of_succ_lt_succ hn) false
      have hfind := find?_name hnames (hgs List.mem_cons_self)
      rw [readFields]
      refine Reader.Reads.bind_of_ok
        (hasField_cons first g.name (g.encode a) (written gs a) rest) ?_
      rw [if_pos rfl]
      refine Reader.Reads.bind_of_ok (Reader.advance_cons _ _) ?_
      refine Reader.Reads.bind_of_ok (Reader.textRest_escaped g.name _) ?_
      simp only [hfind, head.unfilled]
      refine Reader.Reads.bind_of_ok (Reader.mark_cons rfl _) ?_
      exact (head.reads _ (Json.delimited_fieldTail _ rest)).bind hothers

/-- A record is settled if its fields fill in its parts and these make the record. -/
theorem Fills.settles (h : Fills a r.fields r.empty p intact)
    (hnames : (r.fields.map (·.name)).Nodup) (hcomplete : r.complete p = some a) :
    r.format.Settles a intact := by
  have hchars : (r.format.encode a).chars = '\x7b' :: Json.fieldChars (written r.fields a) := by
    change (Json.record (written r.fields a)).chars = _
    rw [Json.chars]
  have hfinish (cs : List Char) : r.finish p cs = .ok a cs := by
    rw [finish, hcomplete]
    rfl
  refine ⟨⟨'\x7b', _, hchars, rfl, by decide⟩, fun rest _ => ?_⟩
  have hfields : (Reader.bounded fun n => r.readFields n true r.empty).Reads
      (Json.fieldChars (written r.fields a) ++ rest) intact p ('\x7d' :: rest) := by
    refine h.reads hnames (List.Subset.refl _) ?_ true rest
    have hlength := Json.length_fieldChars (written r.fields a)
    rw [written, List.length_map] at hlength
    rw [written, List.length_append]
    omega
  rw [hchars, List.cons_append]
  refine Reader.Reads.bind_of_ok (Reader.start_cons rfl _) ?_
  rw [if_pos rfl]
  refine Reader.Reads.bind_of_ok (Reader.advance_cons _ _) ?_
  refine hfields.bind_ok ?_
  rw [Reader.bind_of_ok (hfinish _), Reader.bind_of_ok (Reader.mark_cons rfl rest),
    Reader.pure_apply]

theorem settles_single {α β : Type} {name : String} {f : Format β} {value : α → β} {make : β → α}
    {a : α} {intact : Prop} (h : f.Settles (value a) intact) (hmake : make (value a) = a) :
    (single name f value make).Settles a intact := by
  refine (Fills.settles (p := some (value a)) ?_ ?_ ?_).congr (Iff.of_eq (and_true intact).symm)
  · exact .cons (RecordField.settles_of h rfl) (.nil _)
  · change [name].Nodup
    simp
  · change some (make (value a)) = some a
    rw [hmake]

theorem settles_pair {α β γ : Type} {name₁ name₂ : String} {f₁ : Format β} {f₂ : Format γ}
    {value₁ : α → β} {value₂ : α → γ} {make : β → γ → α} {a : α} {p q : Prop}
    (h₁ : f₁.Settles (value₁ a) p) (h₂ : f₂.Settles (value₂ a) q) (hnames : name₁ ≠ name₂)
    (hmake : make (value₁ a) (value₂ a) = a) :
    (pair name₁ f₁ value₁ name₂ f₂ value₂ make).Settles a (p ∧ q) := by
  refine (Fills.settles (p := (some (value₁ a), some (value₂ a))) ?_ ?_ ?_).congr
    (Iff.of_eq (by rw [and_true] : (p ∧ q) = (p ∧ q ∧ True)))
  · exact .cons (RecordField.settles_of h₁ rfl) (.cons (RecordField.settles_of h₂ rfl) (.nil _))
  · change [name₁, name₂].Nodup
    simpa using hnames
  · change some (make (value₁ a) (value₂ a)) = some a
    rw [hmake]

end RecordFormat

end PureGauge
