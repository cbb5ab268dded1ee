/-
**Asking for sequential updates.**

Options are entered one after the other, and each of them looks at its own part of what was read and
changes nothing else.  So all other arguments are read the same way whether sequential updates were
asked for or not: the option that does so can be put before all of them, and it can be left out
wherever it stands.

Main definitions:

* `PureGauge.OptionRule.Indifferent` — an option to which it does not matter whether updates are
  sequential.

Main results:

* `PureGauge.Options.rules_indifferent` — all options but one are of this kind;
* `PureGauge.Options.Reading.argument_cases` — what an argument does;
* `PureGauge.Options.ofArguments?_cons_sequential`,
  `PureGauge.Options.ofArguments?_append_of_sequential` — the option put first, and left out.
-/
import PureGauge.CommandLine.Options

namespace PureGauge

/-- What a command line says, but for whether the links are to be updated one after the other. -/
def Options.marked (o : Options) (sequential : Option Unit) : Options :=
  { o with sequential := sequential }

/-! ### Options -/

namespace OptionRule

/-- An option with a value that neither looks at nor changes whether updates are sequential. -/
structure Indifferent (rule : OptionRule) : Prop where
  given_eq : ∀ o sequential, rule.given (o.marked sequential) = rule.given o
  enter_eq : ∃ set, rule.enter = .inr set ∧ ∀ text o sequential,
    set text (o.marked sequential) = (set text o).map (Options.marked · sequential)

theorem indifferent_valued {α : Type} {long : String} {short : Option Char}
    {read : String → Option α} {part : Options → Option α} {fill : Option α → Options → Options}
    (hpart : ∀ o sequential, part (o.marked sequential) = part o)
    (hfill : ∀ v o sequential, fill v (o.marked sequential) = (fill v o).marked sequential) :
    (valued long short read part fill).Indifferent where
  given_eq o sequential := congrArg Option.isSome (hpart o sequential)
  enter_eq := by
    refine ⟨_, rfl, fun text o sequential => ?_⟩
    cases read text with
    | none => rfl
    | some a => exact congrArg some (hfill (some a) o sequential)

/-- The option that asks for sequential updates. -/
def sequential : OptionRule :=
  ⟨"sequential", none, fun o => o.sequential.isSome, .inl fun o => { o with sequential := some () }⟩

end OptionRule

namespace Options

/-- All options but one take a value and are indifferent. -/
theorem rules_indifferent {rule : OptionRule} (h : rule ∈ rules) :
    rule = .sequential ∨ rule.Indifferent := by
  simp only [rules, List.mem_cons, List.not_mem_nil, or_false] at h
  rcases h with rfl | rfl | rfl | rfl | rfl | rfl | rfl | rfl | rfl | rfl | rfl | rfl
  case inr.inr.inr.inr.inr.inr.inr.inr.inr.inl => exact Or.inl rfl
  all_goals exact Or.inr (OptionRule.indifferent_valued (fun _ _ => rfl) fun _ _ _ => rfl)

namespace Reading

/-- What was read, but for whether the links are to be updated one after the other. -/
def marked (r : Reading) (sequential : Option Unit) : Reading :=
  { r with options := r.options.marked sequential }

/-- The option that waits for its value is indifferent. -/
def Tidy (r : Reading) : Prop := ∀ rule, r.waiting = some rule → rule.Indifferent

/-- What reading can do to whether updates are sequential: it leaves this alone and goes the same
way whatever it is, or it asks for them, and they were not asked for before. -/
inductive Effect (read : Reading → Option Reading) (r r' : Reading) : Prop where
  | other (kept : r'.options.sequential = r.options.sequential)
      (same : ∀ sequential, read (r.marked sequential) = some (r'.marked sequential))
  | sequential (absent : r.options.sequential = none) (made : r'.options.sequential = some ())

theorem Effect.congr {read read' : Reading → Option Reading} {r r' : Reading} (h : Effect read r r')
    (hread : ∀ sequential, read' (r.marked sequential) = read (r.marked sequential)) :
    Effect read' r r' := by
  cases h with
  | other kept same =>
      exact .other kept fun sequential => (hread sequential).trans (same sequential)
  | sequential absent made => exact .sequential absent made

theorem Effect.bind {read read' : Reading → Option Reading} {r r₁ r₂ : Reading}
    (h : Effect read r r₁) (h' : Effect read' r₁ r₂) :
    Effect (fun r => (read r).bind read') r r₂ := by
  cases h with
  | other kept same =>
      cases h' with
      | other kept' same' =>
          exact .other (kept'.trans kept) fun sequential => by rw [same, Option.bind_some, same']
      | sequential absent made => exact .sequential (kept ▸ absent) made
  | sequential absent made =>
      cases h' with
      | other kept' same' => exact .sequential absent (kept'.trans made)
      | sequential absent' made' =>
          rw [made] at absent'
          cases absent'

theorem enter_indifferent {r r' : Reading} {rule : OptionRule} {value : Option String}
    (hrule : rule.Indifferent) (h : r.enter rule value = some r') :
    r'.Tidy ∧ r'.options.sequential = r.options.sequential ∧
      ∀ sequential, (r.marked sequential).enter rule value = some (r'.marked sequential) := by
  obtain ⟨set, hset, hmarked⟩ := hrule.enter_eq
  have hgiven : ∀ sequential, rule.given (r.marked sequential).options = rule.given r.options :=
    hrule.given_eq r.options
  simp only [enter, hset, hgiven] at h ⊢
  split at h
  case isTrue => cases h
  case isFalse hnew =>
    simp only [if_neg hnew]
    cases value with
    | none =>
        obtain rfl := Option.some.inj h
        refine ⟨fun rule' hwaiting => ?_, rfl, fun sequential => rfl⟩
        obtain rfl := Option.some.inj hwaiting
        exact hrule
    | some text =>
        obtain ⟨o, ho, rfl⟩ := Option.map_eq_some_iff.mp h
        have ho' : ∀ sequential, set text (r.options.marked sequential) =
            some (o.marked sequential) :=
          fun sequential => by rw [hmarked, ho, Option.map_some]
        have hself : o = o.marked r.options.sequential := Option.some.inj (ho.symm.trans (ho' _))
        have hkept : o.sequential = (o.marked r.options.sequential).sequential :=
          congrArg Options.sequential hself
        exact ⟨fun _ hwaiting => (nomatch hwaiting), hkept,
          fun sequential => congrArg (Option.map _) (ho' sequential)⟩

theorem enter_sequential {r r' : Reading} {value : Option String}
    (h : r.enter .sequential value = some r') :
    value = none ∧ r.options.sequential = none ∧ r' = r.marked (some ()) := by
  unfold enter at h
  split at h
  case isTrue => cases h
  case isFalse hnew =>
    cases value with
    | none => exact ⟨rfl, Option.not_isSome_iff_eq_none.mp hnew, (Option.some.inj h).symm⟩
    | some text => cases h

/-- An option that a name was found for. -/
theorem enter_of_find? {r r' : Reading} {named : OptionRule → Bool} {value : Option String}
    (hr : r.waiting = none) (h : (rules.find? named).bind (r.enter · value) = some r') :
    r'.Tidy ∧ Effect (fun r => (rules.find? named).bind (r.enter · value)) r r' := by
  obtain ⟨rule, hfound, henter⟩ := Option.bind_eq_some_iff.mp h
  simp only [hfound, Option.bind_some]
  rcases rules_indifferent (List.mem_of_find?_eq_some hfound) with rfl | hrule
  · obtain ⟨-, habsent, rfl⟩ := enter_sequential henter
    exact ⟨fun _ hwaiting => (nomatch hr.symm.trans hwaiting), .sequential habsent rfl⟩
  · obtain ⟨htidy, hkept, hsame⟩ := enter_indifferent hrule henter
    exact ⟨htidy, .other hkept hsame⟩

/-- What an argument does. -/
theorem argument_cases {r r' : Reading} {text : String} (hr : r.Tidy)
    (h : r.argument text = some r') :
    r'.Tidy ∧ Effect (·.argument text) r r' := by
  obtain ⟨o, waiting, ended⟩ := r
  cases ended with
  | true => cases h
  | false =>
      cases waiting with
      | some rule =>
          cases hform : Argument.ofText text with
          | plain value =>
              simp only [argument, hform] at h ⊢
              obtain ⟨htidy, hkept, hsame⟩ := enter_indifferent (hr rule rfl) h
              exact ⟨htidy, .other hkept hsame⟩
          | _ => simp [argument, hform] at h
      | none =>
          cases hform : Argument.ofText text with
          | stop =>
              simp only [argument, hform] at h ⊢
              obtain rfl := Option.some.inj h
              exact ⟨hr, .other rfl fun sequential => rfl⟩
          | long name value =>
              simp only [argument, hform] at h
              exact (enter_of_find? rfl h).imp_right
                fun heffect => heffect.congr fun sequential => by
                  simp only [argument, hform]
                  rfl
          | short name value =>
              simp only [argument, hform] at h
              exact (enter_of_find? rfl h).imp_right
                fun heffect => heffect.congr fun sequential => by
                  simp only [argument, hform]
                  rfl
          | plain text' => simp [argument, hform] at h

/-- What arguments do. -/
theorem arguments_cases {arguments : List String} : ∀ {r r' : Reading}, r.Tidy →
    arguments.foldlM argument r = some r' →
      r'.Tidy ∧ Effect (fun r => arguments.foldlM argument r) r r' := by
  induction arguments with
  | nil =>
      intro r r' hr h
      obtain rfl := Option.some.inj h
      exact ⟨hr, .other rfl fun sequential => rfl⟩
  | cons text arguments ih =>
      intro r r' hr h
      rw [List.foldlM_cons] at h
      obtain ⟨r₁, h₁, h'⟩ := Option.bind_eq_some_iff.mp h
      obtain ⟨hr₁, heffect⟩ := argument_cases hr h₁
      obtain ⟨hr', heffect'⟩ := ih hr₁ h'
      exact ⟨hr', heffect.bind heffect'⟩

/-- The argument that asks for sequential updates. -/
theorem argument_sequential_iff {r r' : Reading} :
    r.argument "--sequential" = some r' ↔
      r.ended = false ∧ r.waiting = none ∧ r.options.sequential = none ∧
        r' = r.marked (some ()) := by
  have hform : Argument.ofText "--sequential" = .long "sequential" none := by decide
  have hfound : rules.find? (·.long = "sequential") = some .sequential := rfl
  obtain ⟨o, waiting, ended⟩ := r
  constructor
  · intro h
    cases ended with
    | true => cases h
    | false =>
        cases waiting with
        | some rule => simp [argument, hform] at h
        | none =>
            simp only [argument, hform, hfound] at h
            have hentered : Reading.enter ⟨o, none, false⟩ .sequential none = some r' := h
            exact ⟨rfl, rfl, (enter_sequential hentered).2⟩
  · rintro ⟨rfl, rfl, habsent, rfl⟩
    have hnew : ¬ OptionRule.sequential.given o := Option.not_isSome_iff_eq_none.mpr habsent
    simp only [argument, hform, hfound, Option.bind_some, enter, if_neg hnew]
    rfl

end Reading

/-! ### Command lines -/

/-- What is read of no arguments. -/
theorem tidy_empty : Reading.Tidy ⟨empty, none, false⟩ := fun _ h => nomatch h

/-- Sequential updates can be asked for before all other arguments. -/
theorem ofArguments?_cons_sequential {arguments : List String} {o : Options}
    (h : ofArguments? arguments = some o) (ho : o.sequential = none) :
    ofArguments? ("--sequential" :: arguments) = some (o.marked (some ())) := by
  obtain ⟨r, hr, hend⟩ := Option.bind_eq_some_iff.mp h
  obtain ⟨hwaiting, rfl⟩ : r.waiting.isNone ∧ r.options = o := by simpa using hend
  cases (Reading.arguments_cases tidy_empty hr).2 with
  | other kept same =>
      have hfirst : Reading.argument ⟨empty, none, false⟩ "--sequential" = some _ :=
        Reading.argument_sequential_iff.mpr ⟨rfl, rfl, rfl, rfl⟩
      rw [ofArguments?, List.foldlM_cons, hfirst, Option.bind_eq_bind, Option.bind_eq_bind,
        Option.bind_some, same (some ()), Option.bind_some]
      exact if_pos hwaiting
  | sequential absent made =>
      rw [ho] at made
      cases made

/-- Wherever sequential updates are asked for, this can be left out. -/
theorem ofArguments?_append_of_sequential {before after : List String} {o : Options}
    (h : ofArguments? (before ++ "--sequential" :: after) = some o) :
    ofArguments? (before ++ after) = some (o.marked none) := by
  obtain ⟨r, hr, hend⟩ := Option.bind_eq_some_iff.mp h
  obtain ⟨hwaiting, rfl⟩ : r.waiting.isNone ∧ r.options = o := by simpa using hend
  rw [List.foldlM_append] at hr
  obtain ⟨r₁, hbefore, hr⟩ := Option.bind_eq_some_iff.mp hr
  rw [List.foldlM_cons] at hr
  obtain ⟨r₂, hmiddle, hafter⟩ := Option.bind_eq_some_iff.mp hr
  obtain ⟨-, hnone, habsent, rfl⟩ := Reading.argument_sequential_iff.mp hmiddle
  have htidy : (r₁.marked (some ())).Tidy := fun rule h => nomatch hnone.symm.trans h
  cases (Reading.arguments_cases htidy hafter).2 with
  | other kept same =>
      have hunmarked : (r₁.marked (some ())).marked none = r₁ := by
        rw [← habsent]
        rfl
      rw [ofArguments?, List.foldlM_append, hbefore, Option.bind_eq_bind, Option.bind_eq_bind,
        Option.bind_some, ← hunmarked, same none, Option.bind_some]
      exact if_pos hwaiting
  | sequential absent made => cases absent

end Options

end PureGauge
