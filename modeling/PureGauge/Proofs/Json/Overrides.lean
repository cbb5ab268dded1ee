/-
**A configuration text overrides the standard configuration.**

An object gives some fields of a configuration, in any order and between any fields that are not
known, whose values may be anything.  What it gives replaces the fields of the standard
configuration and nothing else does: the number of sweeps before the first measurement does not
follow the number between two of them.  A list gives the first fields by their position.

The text of a configuration is an object that gives all fields.  It leads back to the configuration
if its two real numbers are read back from their digits, which is not so for every double.

Main definitions:

* `PureGauge.Setting` — a field of a configuration with a value, and the spellings of that value;
* `PureGauge.Setting.overridden` — the standard configuration with some fields replaced;
* `PureGauge.Setting.IsObject`, `PureGauge.Setting.IsList` — the texts that give some fields.

Main results:

* `PureGauge.Setting.foldl_replace_perm` — different fields are replaced in any order;
* `PureGauge.Setting.Members.reads`, `PureGauge.Setting.Values.reads` — objects and lists are read;
* `PureGauge.Setting.isObject_encodeText` — the text of a configuration is such an object;
* `PureGauge.Setting.decodeText_overrides` — what texts that give some fields hold;
* `PureGauge.Setting.reread_uneven` — a configuration that does not come back from its text.
-/
import PureGauge.Proofs.Json.Parts
import PureGauge.Proofs.Json.Formats
import PureGauge.Proofs.Json.Range

namespace PureGauge

open Format (ConfigParts configFields configRecord)
open Grammar (Blanks Lead Number Quoted Part)
open Reader (EndsNumber)

/-! ### Spelled values -/

/-- The spellings of a word. -/
def SpellsWord (cs : List Char) (n : UInt64) : Prop := ∃ l, Number cs l ∧ l.word? = some n

/-- The spellings of a double: the number literals that stand for it. -/
def SpellsReal (cs : List Char) (x : Float) : Prop := ∃ l, Number cs l ∧ l.double? = some x

/-- The names of the starts. -/
def startNames : List (String × Start) :=
  [("Cold", .cold), ("Hot", .hot), ("CloseToUnity", .nearUnity)]

/-- The spellings of a start: its name alone, or as the only field of a record whose value is
null. -/
inductive SpellsStart : List Char → Start → Prop
  | name {k : List Char} {name : String} {s : Start} (hk : Quoted true k name.toList)
      (hs : (name, s) ∈ startNames) : SpellsStart ('"' :: (k ++ ['"'])) s
  | record {b k b₁ b₂ b₃ : List Char} {name : String} {s : Start} (hb : Blanks b)
      (hk : Quoted true k name.toList) (hs : (name, s) ∈ startNames) (hb₁ : Blanks b₁)
      (hb₂ : Blanks b₂) (hb₃ : Blanks b₃) :
      SpellsStart
        ('\x7b' :: (b ++ '"' ::
          (k ++ '"' :: (b₁ ++ ':' :: (b₂ ++ 'n' :: 'u' :: 'l' :: 'l' :: (b₃ ++ ['\x7d'])))))) s

theorem decode_word {cs b rest : List Char} {n : UInt64} (h : SpellsWord cs n) (hb : Blanks b)
    (hrest : EndsNumber rest) : Format.word.decode (b ++ (cs ++ rest)) = .ok n rest := by
  obtain ⟨l, hl, hn⟩ := h
  exact Reader.numberOf_spelled hl (NumberLiteral.isSome_double?_of_word? hn) hn hb hrest

theorem decode_real {cs b rest : List Char} {x : Float} (h : SpellsReal cs x) (hb : Blanks b)
    (hrest : EndsNumber rest) :
    (Format.real : Format Float).decode (b ++ (cs ++ rest)) = .ok x rest := by
  obtain ⟨l, hl, hx⟩ := h
  have hkind : (fun l : NumberLiteral => some (RealLiteral.ofLiteral l : Float)) l = some x := by
    change some (l.double?.getD 0) = some x
    rw [hx, Option.getD_some]
  change Reader.numberOf (fun l : NumberLiteral => some (RealLiteral.ofLiteral l : Float)) _ = _
  exact Reader.numberOf_spelled hl (by rw [hx]; rfl) hkind hb hrest

theorem decode_start {cs b rest : List Char} {s : Start} (h : SpellsStart cs s) (hb : Blanks b) :
    Format.start.decode (b ++ (cs ++ rest)) = .ok s rest := by
  have htable {name : String} {s : Start} (hs : (name, s) ∈ startNames) :
      startNames.find? (fun (n, _) => n = name) = some (name, s) := by
    simp only [startNames, List.mem_cons, Prod.mk.injEq, List.not_mem_nil, or_false] at hs
    rcases hs with ⟨rfl, rfl⟩ | ⟨rfl, rfl⟩ | ⟨rfl, rfl⟩
    all_goals rfl
  have hread {k rest : List Char} {name : String} (hk : Quoted true k name.toList) :
      Reader.text ('"' :: (k ++ '"' :: rest)) = .ok name rest := by
    rw [Reader.text, Reader.bind_of_ok (Reader.start_cons rfl _), if_pos rfl,
      Reader.bind_of_ok (Reader.advance_cons _ _), Reader.textRest_spelled hk, String.ofList_toList]
  change Reader.variant startNames _ = _
  cases h with
  | name hk hs =>
      simp only [List.cons_append, List.append_assoc, List.nil_append]
      rw [Reader.variant, Reader.bind_of_ok (Reader.start_blanks hb rfl _), if_neg (by decide),
        if_pos rfl, Reader.bind_of_ok (hread hk)]
      simp only [htable hs]
      rfl
  | @record b' k b₁ b₂ b₃ name s hb' hk hs hb₁ hb₂ hb₃ =>
      have hname (behind : List Char) :
          Reader.fieldName (b' ++ '"' :: (k ++ '"' :: behind)) = .ok name behind := by
        rw [Reader.fieldName, Reader.bind_of_ok (Reader.start_blanks hb' rfl _), if_pos rfl,
          hread hk]
      have hnull (behind : List Char) :
          Reader.null (b₂ ++ 'n' :: 'u' :: 'l' :: 'l' :: behind) = .ok () behind := by
        rw [Reader.null, Reader.bind_of_ok (Reader.start_blanks hb₂ rfl _), if_pos rfl,
          Reader.bind_of_ok (Reader.advance_cons _ _)]
        exact Reader.keyword_append ['u', 'l', 'l'] behind
      simp only [List.cons_append, List.append_assoc, List.nil_append]
      rw [Reader.variant, Reader.bind_of_ok (Reader.start_blanks hb rfl _), if_pos rfl,
        Reader.bind_of_ok (Reader.advance_cons _ _), Reader.bind_of_ok (hname _)]
      simp only [htable hs]
      rw [Reader.bind_of_ok (Reader.pure_apply _ _),
        Reader.bind_of_ok (Reader.mark_blanks hb₁ rfl _), Reader.bind_of_ok (hnull _),
        Reader.bind_of_ok (Reader.mark_blanks hb₃ rfl _), Reader.pure_apply]

/-- A text is read if what a reader leaves of it is blank. -/
theorem Reader.whole_of_ok {α : Type} {x : Reader α} {source : String} {a : α} {after : List Char}
    (h : x source.toList = .ok a after) (hafter : Blanks after) : whole x source = .ok a := by
  have hdrop : after.dropWhile isBlank = [] := List.dropWhile_eq_nil_iff.2 hafter
  have hnext : next after = .ok none [] := by
    change EStateM.Result.ok (after.dropWhile isBlank).head? (after.dropWhile isBlank) = _
    rw [hdrop]
    rfl
  rw [whole]
  simp only
  rw [bind_of_ok h, bind_of_ok hnext]
  rfl

/-! ### Settings -/

/-- A field of a configuration with a value. -/
inductive Setting where
  | points (n : UInt64)
  | beta (x : Float)
  | spacing (n : UInt64)
  | measurements (n : UInt64)
  | spread (x : Float)
  | pairs (n : UInt64)
  | thermalisation (n : UInt64)
  | start (s : Start)

/-- The names of the fields, in order. -/
def fieldNames : List String :=
  (configFields : List (RecordField (ConfigParts Float) (Config Float))).map (·.name)

namespace Setting

def name : Setting → String
  | points _ => "number_of_points"
  | beta _ => "beta"
  | spacing _ => "ncor"
  | measurements _ => "ncf"
  | spread _ => "spread"
  | pairs _ => "number_of_pairs"
  | thermalisation _ => "number_of_thermalisation"
  | start _ => "start"

/-- The configuration with the field replaced. -/
def replace : Setting → Config Float → Config Float
  | points n, c => { c with points := n }
  | beta x, c => { c with beta := x }
  | spacing n, c => { c with spacing := n }
  | measurements n, c => { c with measurements := n }
  | spread x, c => { c with spread := x }
  | pairs n, c => { c with pairs := n }
  | thermalisation n, c => { c with thermalisation := n }
  | start s, c => { c with start := s }

/-- The spellings of the value. -/
def Spells : Setting → List Char → Prop
  | points n, cs | spacing n, cs | measurements n, cs | pairs n, cs | thermalisation n, cs =>
      SpellsWord cs n
  | beta x, cs | spread x, cs => SpellsReal cs x
  | start s, cs => SpellsStart cs s

/-- The standard configuration with some fields replaced. -/
def overridden (settings : List Setting) : Config Float :=
  settings.foldl (fun c s => s.replace c) Config.standard

/-- The number of sweeps before the first measurement is replaced by its own field only. -/
theorem thermalisation_overridden {settings : List Setting} (h : ∀ n, thermalisation n ∉ settings) :
    (overridden settings).thermalisation = Config.standard.thermalisation := by
  have hkept (c : Config Float) : (settings.foldl (fun c s => s.replace c) c).thermalisation =
      c.thermalisation := by
    induction settings generalizing c with
    | nil => rfl
    | cons s settings ih =>
        have hs : (s.replace c).thermalisation = c.thermalisation := by
          cases s with
          | thermalisation n => exact absurd List.mem_cons_self (h n)
          | _ => rfl
        rw [List.foldl_cons, ih (fun n hn => h n (List.mem_cons_of_mem _ hn)), hs]
  exact hkept Config.standard

/-- Different fields are replaced in either order. -/
theorem replace_comm {s t : Setting} (h : s.name ≠ t.name) (c : Config Float) :
    s.replace (t.replace c) = t.replace (s.replace c) := by
  cases s <;> cases t <;> first
    | rfl
    | exact absurd rfl h

/-- Different fields are replaced in any order. -/
theorem foldl_replace_perm {settings settings' : List Setting} (h : settings'.Perm settings)
    (c : Config Float) (hnames : (settings.map name).Nodup) :
    settings'.foldl (fun c s => s.replace c) c = settings.foldl (fun c s => s.replace c) c := by
  induction h generalizing c with
  | nil => rfl
  | cons s _ ih =>
      rw [List.map_cons, List.nodup_cons] at hnames
      rw [List.foldl_cons, List.foldl_cons, ih _ hnames.2]
  | swap s t l =>
      rw [List.map_cons, List.map_cons, List.nodup_cons] at hnames
      have hne : s.name ≠ t.name := fun heq => hnames.1 (by rw [heq]; exact List.mem_cons_self)
      rw [List.foldl_cons, List.foldl_cons, List.foldl_cons, List.foldl_cons, replace_comm hne]
  | trans _ h ih ih' => rw [ih c ((h.map name).nodup_iff.2 hnames), ih' c hnames]

/-! ### Parts -/

/-- The parts with the field given. -/
def fill : Setting → ConfigParts Float → ConfigParts Float
  | points n, p => { p with points := some n }
  | beta x, p => { p with beta := some x }
  | spacing n, p => { p with spacing := some n }
  | measurements n, p => { p with measurements := some n }
  | spread x, p => { p with spread := some x }
  | pairs n, p => { p with pairs := some n }
  | thermalisation n, p => { p with thermalisation := some n }
  | start s, p => { p with start := some s }

/-- Whether the parts give the field. -/
def given : Setting → ConfigParts Float → Bool
  | points _, p => p.points.isSome
  | beta _, p => p.beta.isSome
  | spacing _, p => p.spacing.isSome
  | measurements _, p => p.measurements.isSome
  | spread _, p => p.spread.isSome
  | pairs _, p => p.pairs.isSome
  | thermalisation _, p => p.thermalisation.isSome
  | start _, p => p.start.isSome

/-- Another field is not given by a setting. -/
theorem given_fill {s t : Setting} (h : t.name ≠ s.name) (p : ConfigParts Float) :
    t.given (s.fill p) = t.given p := by
  cases s <;> cases t <;> first
    | rfl
    | exact absurd rfl h

theorem completedBy_fill (s : Setting) (p : ConfigParts Float) (base : Config Float) :
    (s.fill p).completedBy base = s.replace (p.completedBy base) := by
  cases s with
  | _ => rfl

/-- The parts with several fields given. -/
def fillAll (settings : List Setting) (p : ConfigParts Float) : ConfigParts Float :=
  settings.foldl (fun p s => s.fill p) p

theorem completedBy_fillAll (settings : List Setting) (p : ConfigParts Float)
    (base : Config Float) :
    (fillAll settings p).completedBy base =
      settings.foldl (fun c s => s.replace c) (p.completedBy base) := by
  induction settings generalizing p with
  | nil => rfl
  | cons s settings ih =>
      have hcons : fillAll (s :: settings) p = fillAll settings (s.fill p) := rfl
      rw [hcons, ih, completedBy_fill, List.foldl_cons]

theorem completedBy_fillAll_nothing (settings : List Setting) :
    (fillAll settings .nothing).completedBy Config.standard = overridden settings :=
  completedBy_fillAll settings .nothing Config.standard

/-- The field of a setting among those of the record, which reads its value in every spelling. -/
theorem exists_field (s : Setting) : ∃ g ∈ (configRecord Config.standard).fields, g.name = s.name ∧
    ∀ p, g.filled p = s.given p ∧ ∀ {cs b rest : List Char},
      s.Spells cs → Blanks b → EndsNumber rest →
      g.decode p (b ++ (cs ++ rest)) = .ok (s.fill p) rest := by
  cases s with
  | points n =>
      exact ⟨configFields[0], List.getElem_mem _, rfl, fun p => ⟨rfl, fun hv hb hrest =>
        Reader.bind_of_ok (decode_word hv hb hrest)⟩⟩
  | beta x =>
      exact ⟨configFields[1], List.getElem_mem _, rfl, fun p => ⟨rfl, fun hv hb hrest =>
        Reader.bind_of_ok (decode_real hv hb hrest)⟩⟩
  | spacing n =>
      exact ⟨configFields[2], List.getElem_mem _, rfl, fun p => ⟨rfl, fun hv hb hrest =>
        Reader.bind_of_ok (decode_word hv hb hrest)⟩⟩
  | measurements n =>
      exact ⟨configFields[3], List.getElem_mem _, rfl, fun p => ⟨rfl, fun hv hb hrest =>
        Reader.bind_of_ok (decode_word hv hb hrest)⟩⟩
  | spread x =>
      exact ⟨configFields[4], List.getElem_mem _, rfl, fun p => ⟨rfl, fun hv hb hrest =>
        Reader.bind_of_ok (decode_real hv hb hrest)⟩⟩
  | pairs n =>
      exact ⟨configFields[5], List.getElem_mem _, rfl, fun p => ⟨rfl, fun hv hb hrest =>
        Reader.bind_of_ok (decode_word hv hb hrest)⟩⟩
  | thermalisation n =>
      exact ⟨configFields[6], List.getElem_mem _, rfl, fun p => ⟨rfl, fun hv hb hrest =>
        Reader.bind_of_ok (decode_word hv hb hrest)⟩⟩
  | start s =>
      exact ⟨configFields[7], List.getElem_mem _, rfl, fun p => ⟨rfl, fun hv hb _ =>
        Reader.bind_of_ok (decode_start hv hb)⟩⟩

/-! ### Objects -/

/-- What is left of an object behind its brace or behind a field, up to the brace that closes it,
with the settings that it gives.  Of a field that is not known the value may be anything. -/
inductive Members : Bool → List Setting → List Char → Prop
  | done {first : Bool} {b : List Char} (hb : Blanks b) : Members first [] (b ++ ['\x7d'])
  | setting {first : Bool} {s : Setting} {settings : List Setting} {a k b b' v cs : List Char}
      (ha : Lead first a) (hk : Quoted true k s.name.toList) (hb : Blanks b) (hb' : Blanks b')
      (hv : s.Spells v) (tail : Members false settings cs) :
      Members first (s :: settings) (a ++ '"' :: (k ++ '"' :: (b ++ ':' :: (b' ++ (v ++ cs)))))
  | other {first : Bool} {name : String} {settings : List Setting} {a k b b' v cs : List Char}
      (ha : Lead first a) (hk : Quoted true k name.toList) (hname : name ∉ fieldNames)
      (hb : Blanks b) (hb' : Blanks b') (hv : Part .value v) (tail : Members false settings cs) :
      Members first settings (a ++ '"' :: (k ++ '"' :: (b ++ ':' :: (b' ++ (v ++ cs)))))

/-- The texts of objects that give settings. -/
def IsObject (settings : List Setting) (source : String) : Prop :=
  ∃ before cs after, Blanks before ∧ Blanks after ∧ Members true settings cs ∧
    source.toList = before ++ '\x7b' :: (cs ++ after)

/-- A number ends in front of what is left of an object. -/
theorem Members.endsNumber {settings : List Setting} {cs : List Char}
    (h : Members false settings cs) (rest : List Char) : EndsNumber (cs ++ rest) := by
  cases h with
  | done hb =>
      rw [List.append_assoc]
      exact Reader.endsNumber_blanks hb (by decide) _
  | setting ha _ _ _ _ _ =>
      rw [List.append_assoc]
      exact Reader.endsNumber_lead ha _
  | other ha _ _ _ _ _ _ =>
      rw [List.append_assoc]
      exact Reader.endsNumber_lead ha _

theorem nodup_names : ((configRecord Config.standard).fields.map (·.name)).Nodup := by
  decide

/-- What is left of an object is read: its settings are filled in, and everything else is passed
over. -/
theorem Members.reads {first : Bool} {settings : List Setting} {cs : List Char}
    (h : Members first settings cs) (hnames : (settings.map name).Nodup) {p : ConfigParts Float}
    (hgiven : ∀ s ∈ settings, s.given p = false) {n : ℕ} (hn : cs.length ≤ n) (rest : List Char) :
    (configRecord Config.standard).readFields n first p (cs ++ rest) =
      .ok (fillAll settings p) ('\x7d' :: rest) := by
  -- along the fields of the text; a turn is spent on each of them, and one on the brace
  induction h generalizing n p with
  | @done first b hb =>
      rw [List.length_append, List.length_singleton] at hn
      obtain ⟨n, rfl⟩ := Nat.exists_eq_succ_of_ne_zero (Nat.ne_of_gt (Nat.zero_lt_of_lt hn))
      rw [List.append_assoc, List.singleton_append, RecordFormat.readFields, Reader.hasField,
        Reader.bind_of_ok (Reader.goesOn_end hb rfl first rest), if_neg (by decide),
        Reader.pure_apply]
      rfl
  | @setting first s settings a k b b' v cs ha hk hb hb' hv tail ih =>
      simp only [List.length_append, List.length_cons] at hn
      obtain ⟨n, rfl⟩ := Nat.exists_eq_succ_of_ne_zero (show n ≠ 0 by omega)
      rw [List.map_cons, List.nodup_cons] at hnames
      rw [List.forall_mem_cons] at hgiven
      obtain ⟨g, hg, hname, hfield⟩ := s.exists_field
      obtain ⟨hfilled, hdecode⟩ := hfield p
      have hfind := RecordFormat.find?_name nodup_names hg
      rw [hname] at hfind
      have hothers : ∀ t ∈ settings, t.given (s.fill p) = false := by
        intro t ht
        have hne : t.name ≠ s.name := fun heq => hnames.1 (heq ▸ List.mem_map_of_mem ht)
        rw [given_fill hne, hgiven.2 t ht]
      simp only [List.append_assoc, List.cons_append]
      rw [RecordFormat.readFields, Reader.hasField,
        Reader.bind_of_ok (Reader.goesOn_lead ha (by decide) rfl (by decide) (by decide) _),
        if_pos rfl, Reader.bind_of_ok (Reader.advance_cons _ _),
        Reader.bind_of_ok (Reader.textRest_spelled hk _)]
      simp only [String.ofList_toList, hfind, hfilled, hgiven.1, Bool.false_eq_true, if_false]
      rw [Reader.bind_of_ok (Reader.mark_blanks hb rfl _),
        Reader.bind_of_ok (hdecode hv hb' (tail.endsNumber rest)), ih hnames.2 hothers (by omega)]
      rfl
  | @other first name settings a k b b' v cs ha hk hname hb hb' hv tail ih =>
      simp only [List.length_append, List.length_cons] at hn
      obtain ⟨n, rfl⟩ := Nat.exists_eq_succ_of_ne_zero (show n ≠ 0 by omega)
      have hfind : (configRecord Config.standard).fields.find? (·.name = name) = none := by
        rw [List.find?_eq_none]
        intro g hg heq
        rw [decide_eq_true_eq] at heq
        exact hname (heq ▸ List.mem_map_of_mem hg)
      simp only [List.append_assoc, List.cons_append]
      rw [RecordFormat.readFields, Reader.hasField,
        Reader.bind_of_ok (Reader.goesOn_lead ha (by decide) rfl (by decide) (by decide) _),
        if_pos rfl, Reader.bind_of_ok (Reader.advance_cons _ _),
        Reader.bind_of_ok (Reader.textRest_spelled hk _)]
      simp only [String.ofList_toList, hfind]
      rw [Reader.bind_of_ok (Reader.mark_blanks hb rfl _),
        Reader.bind_of_ok (Reader.skipValue_part hv hb' (tail.endsNumber rest)),
        ih hnames hgiven (by omega)]

/-! ### Lists -/

/-- What is left of a list behind its bracket or behind an item, with the settings whose values it
holds. -/
inductive Values : Bool → List Setting → List Char → Prop
  | done {first : Bool} {b : List Char} (hb : Blanks b) : Values first [] (b ++ [']'])
  | value {first : Bool} {s : Setting} {settings : List Setting} {a v cs : List Char}
      (ha : Lead first a) (hv : s.Spells v) (tail : Values false settings cs) :
      Values first (s :: settings) (a ++ (v ++ cs))

/-- The texts of lists that hold the values of settings. -/
def IsList (settings : List Setting) (source : String) : Prop :=
  ∃ before cs after, Blanks before ∧ Blanks after ∧ Values true settings cs ∧
    source.toList = before ++ '[' :: (cs ++ after)

theorem Values.endsNumber {settings : List Setting} {cs : List Char} (h : Values false settings cs)
    (rest : List Char) : EndsNumber (cs ++ rest) := by
  cases h with
  | done hb =>
      rw [List.append_assoc]
      exact Reader.endsNumber_blanks hb (by decide) _
  | value ha _ _ =>
      rw [List.append_assoc]
      exact Reader.endsNumber_lead ha _

/-- The value of a setting starts neither with a blank nor with a closing bracket. -/
theorem exists_opens {s : Setting} {cs : List Char} (h : s.Spells cs) :
    ∃ c left, cs = c :: left ∧ Reader.Opens c := by
  have hnumber {l : NumberLiteral} (hl : Number cs l) :
      ∃ c left, cs = c :: left ∧ Reader.Opens c := by
    obtain ⟨c, left, hcs, hc⟩ := Reader.exists_startsNumber hl
    exact ⟨c, left, hcs, Reader.opens_of_startsNumber hc⟩
  cases s with
  | start s =>
      cases h with
      | _ => exact ⟨_, _, rfl, rfl, by decide⟩
  | _ =>
      obtain ⟨l, hl, -⟩ := h
      exact hnumber hl

/-- What is left of a list is read: the fields come in order, and those behind its end are not
given. -/
theorem Values.reads {first : Bool} {settings : List Setting} {cs : List Char}
    (h : Values first settings cs) {gs : List (RecordField (ConfigParts Float) (Config Float))}
    (hgs : gs ⊆ (configRecord Config.standard).fields)
    (hnames : settings.map name = (gs.map (·.name)).take settings.length) (p : ConfigParts Float)
    (rest : List Char) :
    ∃ left, (configRecord Config.standard).readItems gs first p (cs ++ rest) =
      .ok (fillAll settings p) left ∧
      Reader.mark ']' left = .ok () rest := by
  induction h generalizing gs p with
  | @done first b hb =>
      rw [List.append_assoc, List.singleton_append]
      cases gs with
      | nil => exact ⟨_, rfl, Reader.mark_blanks hb rfl rest⟩
      | cons g gs =>
          refine ⟨']' :: rest, ?_, Reader.mark_cons rfl rest⟩
          rw [RecordFormat.readItems, Reader.hasItem,
            Reader.bind_of_ok (Reader.goesOn_end hb rfl first rest), if_neg (by decide)]
          rfl
  | @value first s settings a v cs ha hv tail ih =>
      cases gs with
      | nil => simp at hnames
      | cons g gs =>
          rw [List.map_cons, List.map_cons, List.length_cons, List.take_succ_cons,
            List.cons.injEq] at hnames
          obtain ⟨hname, hnames⟩ := hnames
          -- the names are distinct, so this is the field of the setting
          obtain ⟨g', hg', hname', hfield⟩ := s.exists_field
          have hsame : g' = g := by
            have hfind := RecordFormat.find?_name nodup_names (hgs List.mem_cons_self)
            rw [← hname, ← hname', RecordFormat.find?_name nodup_names hg'] at hfind
            exact Option.some.inj hfind
          subst hsame
          obtain ⟨-, hdecode⟩ := hfield p
          obtain ⟨c, behind, hvalue, hblank, hc⟩ := exists_opens hv
          have hlead : Reader.hasItem first (a ++ (v ++ (cs ++ rest))) =
              .ok true (v ++ (cs ++ rest)) := by
            rw [hvalue, List.cons_append, Reader.hasItem,
              Reader.goesOn_lead ha (by decide) hblank hc rfl]
          have hread : g'.decode p (v ++ (cs ++ rest)) = .ok (s.fill p) (cs ++ rest) :=
            hdecode (b := []) hv Grammar.blanks_nil (tail.endsNumber rest)
          obtain ⟨left, hleft, hmark⟩ :=
            ih (fun g hg => hgs (List.mem_cons_of_mem _ hg)) hnames (s.fill p)
          refine ⟨left, ?_, hmark⟩
          rw [List.append_assoc, List.append_assoc, RecordFormat.readItems, Reader.bind_of_ok hlead,
            if_pos rfl, Reader.bind_of_ok hread, hleft]
          rfl

/-! ### Texts -/

/-- An object is read as the standard configuration with its settings replaced. -/
theorem decodeText_of_object {settings : List Setting} {source : String}
    (h : IsObject settings source) (hnames : (settings.map name).Nodup) :
    Format.config.decodeText source = .ok (overridden settings) := by
  obtain ⟨before, cs, after, hbefore, hafter, hcs, hsource⟩ := h
  have hfields : Reader.bounded (fun n => (configRecord Config.standard).readFields n true .nothing)
      (cs ++ after) = .ok (fillAll settings .nothing) ('\x7d' :: after) := by
    refine hcs.reads hnames (fun s _ => ?_) ?_ after
    · cases s with
      | _ => rfl
    · rw [List.length_append]
      omega
  have hparts : (configRecord Config.standard).parts source.toList =
      .ok (fillAll settings .nothing) after := by
    rw [hsource, RecordFormat.parts, Reader.bind_of_ok (Reader.start_blanks hbefore rfl _),
      if_pos rfl, Reader.bind_of_ok (Reader.advance_cons _ _)]
    refine (Reader.bind_of_ok hfields).trans ?_
    rw [Reader.bind_of_ok (Reader.mark_cons rfl _), Reader.pure_apply]
  have hdecode := Format.decodeText_configOver Config.standard Config.standard source
  rw [Reader.whole_of_ok hparts hafter, Except.map, completedBy_fillAll_nothing] at hdecode
  exact hdecode

/-- A list is read as the standard configuration with its first fields replaced. -/
theorem decodeText_of_list {settings : List Setting} {source : String} (h : IsList settings source)
    (hnames : settings.map name = fieldNames.take settings.length) :
    Format.config.decodeText source = .ok (overridden settings) := by
  obtain ⟨before, cs, after, hbefore, hafter, hcs, hsource⟩ := h
  obtain ⟨left, hleft, hmark⟩ := hcs.reads (List.Subset.refl _) hnames .nothing after
  have hparts : (configRecord Config.standard).parts source.toList =
      .ok (fillAll settings .nothing) after := by
    rw [hsource, RecordFormat.parts, Reader.bind_of_ok (Reader.start_blanks hbefore rfl _),
      if_neg (by decide), Reader.listOf, Reader.bind_of_ok (Reader.start_cons rfl _), if_pos rfl,
      Reader.bind_of_ok (Reader.advance_cons _ _)]
    refine (Reader.bind_of_ok hleft).trans ?_
    rw [Reader.bind_of_ok hmark, Reader.pure_apply]
  have hdecode := Format.decodeText_configOver Config.standard Config.standard source
  rw [Reader.whole_of_ok hparts hafter, Except.map, completedBy_fillAll_nothing] at hdecode
  exact hdecode

/-! ### The text of a configuration -/

/-- Fields that are written without blanks are an object. -/
theorem members_written (fields : List (Setting × Json)) (h : ∀ q ∈ fields, q.1.Spells q.2.chars)
    (first : Bool) :
    Members first (fields.map (·.1))
      (Json.fieldsFrom first (fields.map fun q => (q.1.name, q.2))) := by
  induction fields generalizing first with
  | nil =>
      have hclosing := Json.fieldsFrom_nil first
      simp only [List.map_nil, hclosing]
      exact .done Grammar.blanks_nil
  | cons q fields ih =>
      rw [List.forall_mem_cons] at h
      have hname := Grammar.quoted_escaped q.1.name.toList
      have hrest := ih h.2 false
      have hchars := Json.fieldChars_cons q.1.name q.2 (fields.map fun q => (q.1.name, q.2))
      cases first with
      | true =>
          rw [List.map_cons, List.map_cons, Json.fieldsFrom, if_pos rfl, hchars]
          exact .setting (.first Grammar.blanks_nil) hname Grammar.blanks_nil
            Grammar.blanks_nil h.1 hrest
      | false =>
          rw [List.map_cons, List.map_cons, Json.fieldsFrom, if_neg (by decide), Json.fieldTail,
            hchars]
          exact .setting (.comma Grammar.blanks_nil Grammar.blanks_nil) hname Grammar.blanks_nil
            Grammar.blanks_nil
            h.1 hrest

theorem spellsWord_int (n : UInt64) : SpellsWord (Json.int n.toNat).chars n := by
  rw [Json.int, Json.chars]
  exact ⟨_, Grammar.number_text (NumberLiteral.canonical_ofInt _), NumberLiteral.word?_ofInt n⟩

/-- The number of a double is spelled by its digits, which need not stand for the double. -/
theorem spellsReal_real {x y : Float} (h : Double.reread? x = some y) :
    SpellsReal (Json.real x).chars y := by
  obtain ⟨l, hl, hy⟩ := Option.bind_eq_some_iff.1 h
  have hreal : Json.real x = .number l := by
    have hliteral : RealLiteral.literal? x = some l := hl
    rw [Json.real, hliteral]
  rw [hreal, Json.chars]
  exact ⟨l, Grammar.number_text (NumberLiteral.canonical_ofDouble hl), hy⟩

theorem spellsStart_encode (s : Start) : SpellsStart (Format.start.encode s).chars s := by
  have hquoted (name : String) (hs : (name, s) ∈ startNames) :
      SpellsStart (Json.quoted name) s := by
    have hspelling := SpellsStart.name (Grammar.quoted_escaped name.toList) hs
    rw [Json.quoted]
    exact hspelling
  cases s with
  | cold => exact hquoted "Cold" (by decide)
  | hot => exact hquoted "Hot" (by decide)
  | nearUnity => exact hquoted "CloseToUnity" (by decide)

/-- All fields of a configuration, with two other real numbers. -/
def settingsOf (c : Config Float) (y z : Float) : List Setting :=
  [.points c.points, .beta y, .spacing c.spacing, .measurements c.measurements, .spread z,
    .pairs c.pairs, .thermalisation c.thermalisation, .start c.start]

/-- The text of a configuration is an object that gives all fields, with real numbers that the
digits stand for. -/
theorem isObject_encodeText {c : Config Float} {y z : Float}
    (hy : Double.reread? c.beta = some y)
    (hz : Double.reread? c.spread = some z) :
    IsObject (settingsOf c y z) (Format.config.encodeText c) := by
  have hmembers := members_written
    [(.points c.points, Json.int c.points.toNat), (.beta y, Json.real c.beta),
      (.spacing c.spacing, Json.int c.spacing.toNat),
      (.measurements c.measurements, Json.int c.measurements.toNat),
      (.spread z, Json.real c.spread), (.pairs c.pairs, Json.int c.pairs.toNat),
      (.thermalisation c.thermalisation, Json.int c.thermalisation.toNat),
      (.start c.start, Format.start.encode c.start)] (by
    simp only [List.forall_mem_cons]
    exact ⟨spellsWord_int _, spellsReal_real hy, spellsWord_int _, spellsWord_int _,
      spellsReal_real hz, spellsWord_int _, spellsWord_int _, spellsStart_encode _, by simp⟩) true
  refine ⟨[], _, [], Grammar.blanks_nil, Grammar.blanks_nil, hmembers, ?_⟩
  rw [Format.encodeText, Json.compact, String.toList_ofList, List.append_nil]
  have hencode : Format.config.encode c =
      .record (configFields.map fun f => (f.name, f.encode c)) := rfl
  rw [hencode, Json.chars]
  rfl

/-- Real numbers that have a spelling are finite. -/
theorem isFinite_of_spells {s : Setting} {cs : List Char} (h : s.Spells cs) (c : Config Float)
    (hc : c.beta.isFinite = true ∧ c.spread.isFinite = true) :
    (s.replace c).beta.isFinite = true ∧ (s.replace c).spread.isFinite = true := by
  cases s with
  | beta x =>
      obtain ⟨l, -, hx⟩ := h
      exact ⟨NumberLiteral.isFinite_double? hx, hc.2⟩
  | spread x =>
      obtain ⟨l, -, hx⟩ := h
      exact ⟨hc.1, NumberLiteral.isFinite_double? hx⟩
  | _ => exact hc

theorem isFinite_overridden {settings : List Setting} (h : ∀ s ∈ settings, ∃ cs, s.Spells cs) :
    (overridden settings).beta.isFinite = true ∧ (overridden settings).spread.isFinite = true := by
  have hkept (c : Config Float) (hc : c.beta.isFinite = true ∧ c.spread.isFinite = true) :
      (settings.foldl (fun c s => s.replace c) c).beta.isFinite = true ∧
        (settings.foldl (fun c s => s.replace c) c).spread.isFinite = true := by
    induction settings generalizing c with
    | nil => exact hc
    | cons s settings ih =>
        obtain ⟨⟨cs, hs⟩, h⟩ := List.forall_mem_cons.1 h
        exact ih h (s.replace c) (isFinite_of_spells hs c hc)
  exact hkept Config.standard (by decide +kernel)

/-! ### Partial texts -/

theorem spellsReal_plain : SpellsReal ['6', '.', '2', '5'] 6.25 := by
  have hchars : (Json.real (6.25 : Float)).chars = ['6', '.', '2', '5'] := by decide +kernel
  rw [← hchars]
  exact spellsReal_real (by decide +kernel)

theorem spellsWord_plain : SpellsWord ['9'] 9 := spellsWord_int 9

/-- An object with blanks, an escaped name and a field that is not known. -/
theorem isObject_mixed : IsObject [.beta 6.25, .points 9]
    "\x7b \"\\u0062eta\":6.25,\"note\":[null],\"number_of_points\" : 9\x7d" := by
  have hnote := Grammar.quoted_escaped "note".toList
  have hpoints := Grammar.quoted_escaped "number_of_points".toList
  have hletter : Grammar.Code ['0', '0', '6', '2'] 98 := ⟨rfl, _, rfl, rfl⟩
  have hbeta : Quoted true ['\\', 'u', '0', '0', '6', '2', 'e', 't', 'a'] "beta".toList :=
    .cons (.code hletter (by decide)) (Grammar.quoted_escaped ['e', 't', 'a'])
  have hblank : Blanks [' '] := by decide
  have hvalue : Part .value "[null]".toList :=
    .list (.item (.first Grammar.blanks_nil) .null (.itemsEnd Grammar.blanks_nil))
  have hbehind : Members false [.points 9] _ :=
    .setting (.comma Grammar.blanks_nil Grammar.blanks_nil) hpoints hblank hblank spellsWord_plain
      (.done Grammar.blanks_nil)
  have hmembers : Members true [.beta 6.25, .points 9] _ :=
    .setting (.first hblank) hbeta Grammar.blanks_nil Grammar.blanks_nil spellsReal_plain
      (.other (.comma Grammar.blanks_nil Grammar.blanks_nil) hnote (by decide) Grammar.blanks_nil
        Grammar.blanks_nil hvalue hbehind)
  exact ⟨[], _, [], Grammar.blanks_nil, Grammar.blanks_nil, hmembers, rfl⟩

/-- A list of the first two fields. -/
theorem isList_short : IsList [.points 9, .beta 6.25] "[9,6.25]" := by
  have hvalues : Values true [.points 9, .beta 6.25] _ :=
    .value (.first Grammar.blanks_nil) spellsWord_plain
      (.value (.comma Grammar.blanks_nil Grammar.blanks_nil) spellsReal_plain
        (.done Grammar.blanks_nil))
  exact ⟨[], _, [], Grammar.blanks_nil, Grammar.blanks_nil, hvalues, rfl⟩

/-- **Texts that give some fields hold the standard configuration with these fields replaced**:
objects in any order and with any other fields in between, and lists of the values of the first
fields.  The text of what they hold is read as well, its real numbers as the doubles that their
digits stand for. -/
theorem decodeText_overrides (settings : List Setting) (hnames : (settings.map name).Nodup)
    (hvalid : ∀ s ∈ settings, ∃ v, s.Spells v) :
    (∀ settings' source, settings'.Perm settings → IsObject settings' source →
      Format.config.decodeText source = .ok (overridden settings)) ∧
    (∀ source, settings.map name = fieldNames.take settings.length → IsList settings source →
      Format.config.decodeText source = .ok (overridden settings)) ∧
    ((∀ n, thermalisation n ∉ settings) →
      (overridden settings).thermalisation = Config.standard.thermalisation) ∧
    (∃ y z, Double.reread? (overridden settings).beta = some y ∧
      Double.reread? (overridden settings).spread = some z ∧
      Format.config.decodeText (Format.config.encodeText (overridden settings)) =
        .ok { overridden settings with beta := y, spread := z }) := by
  refine ⟨fun settings' source hperm hsource => ?_,
    fun source hprefix hsource => decodeText_of_list hsource hprefix, thermalisation_overridden, ?_⟩
  · have hsame : overridden settings' = overridden settings :=
      foldl_replace_perm hperm Config.standard hnames
    rw [decodeText_of_object hsource ((hperm.map name).nodup_iff.2 hnames), hsame]
  · obtain ⟨hbeta, hspread⟩ := isFinite_overridden hvalid
    obtain ⟨y, hy, -⟩ := Double.exists_reread? hbeta
    obtain ⟨z, hz, -⟩ := Double.exists_reread? hspread
    exact ⟨y, z, hy, hz, decodeText_of_object (isObject_encodeText hy hz) nodup_names⟩

/-- Two fields, given by an object and by a list, with real numbers that are read back. -/
theorem decodeText_points_beta :
    Format.config.decodeText
      "\x7b \"\\u0062eta\":6.25,\"note\":[null],\"number_of_points\" : 9\x7d" =
        .ok (overridden [.points 9, .beta 6.25]) ∧
      Format.config.decodeText "[9,6.25]" = .ok (overridden [.points 9, .beta 6.25]) ∧
      (overridden [.points 9, .beta 6.25]).thermalisation = 500 ∧
      Format.config.decodeText (Format.config.encodeText (overridden [.points 9, .beta 6.25])) =
        .ok (overridden [.points 9, .beta 6.25]) := by
  have hvalid : ∀ s ∈ [points 9, beta 6.25], ∃ v, s.Spells v := by
    simp only [List.forall_mem_cons]
    exact ⟨⟨_, spellsWord_plain⟩, ⟨_, spellsReal_plain⟩, by simp⟩
  have hbeta : Double.reread? (overridden [.points 9, .beta 6.25]).beta = some 6.25 := by
    decide +kernel
  have hspread : Double.reread? (overridden [.points 9, .beta 6.25]).spread = some 0.24 := by
    decide +kernel
  obtain ⟨hobject, hlist, hthermalisation, y, z, hy, hz, hagain⟩ :=
    decodeText_overrides [.points 9, .beta 6.25] (by decide) hvalid
  obtain rfl : 6.25 = y := Option.some.inj (hbeta.symm.trans hy)
  obtain rfl : 0.24 = z := Option.some.inj (hspread.symm.trans hz)
  refine ⟨hobject _ _ (.swap _ _ _) isObject_mixed, hlist _ (by decide) isList_short, ?_, hagain⟩
  rw [hthermalisation (by simp)]
  rfl

/-- A configuration whose text does not lead back to it: the digits that it is read from are rounded
to a double, and those that are written for this double are rounded to another one. -/
theorem reread_uneven :
    Format.config.decodeText "\x7b\"beta\":5.1234567891033590\x7d" =
      .ok (overridden [.beta 5.1234567891033596]) ∧
      Format.config.decodeText (Format.config.encodeText (overridden [.beta 5.1234567891033596])) ≠
        .ok (overridden [.beta 5.1234567891033596]) := by
  have hread : (Format.config.decodeText "\x7b\"beta\":5.1234567891033590\x7d").toOption =
      some (overridden [.beta 5.1234567891033596]) := by decide +kernel
  have hagain : (Format.config.decodeText (Format.config.encodeText
      (overridden [.beta 5.1234567891033596]))).toOption =
        some (overridden [.beta 5.12345678910336]) := by
    decide +kernel
  constructor
  · cases hsource : Format.config.decodeText "\x7b\"beta\":5.1234567891033590\x7d" with
    | error e =>
        rw [hsource] at hread
        cases hread
    | ok c =>
        rw [hsource] at hread
        exact congrArg Except.ok (Option.some.inj hread)
  · intro hsame
    rw [hsame] at hagain
    have hbeta : (5.1234567891033596 : Float) = 5.12345678910336 :=
      congrArg Config.beta (Option.some.inj hagain)
    exact absurd hbeta (by decide +kernel)

end Setting

end PureGauge
