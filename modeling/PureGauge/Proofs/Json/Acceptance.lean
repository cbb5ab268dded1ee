/-
**What is read from a text.**

A value that is read from a text is put together from what was read for its parts, whatever the
order of the fields and whatever else stands in the text.  So what is checked for a part holds for
it in every value.  The only check is that of a spread; everything else that types say about their
values, such as a lattice having a point or a direction being one of four, does not have to hold for
a value that was read.  Together with the round trip this tells exactly which values a text can
hold.

Main definitions:

* `PureGauge.Reader.Gives` — all answers of a reader have a property.

Main results:

* `PureGauge.RecordFormat.gives_format` — a property of the parts of a record that every field
  keeps;
* `PureGauge.Document.exists_text` — the values that texts hold;
* `PureGauge.Document.unchecked` — values that the constructors refuse, read from texts.
-/
import PureGauge.Proofs.Json.RoundTrip

namespace PureGauge

namespace Reader

variable {α β : Type}

/-- All answers of a reader have a property. -/
def Gives (x : Reader α) (P : α → Prop) : Prop := ∀ cs a rest, x cs = .ok a rest → P a

theorem gives_true (x : Reader α) : x.Gives fun _ => True := fun _ _ _ _ => trivial

theorem gives_pure {a : α} {P : α → Prop} (h : P a) : (pure a : Reader α).Gives P := by
  intro cs b rest hb
  cases hb
  exact h

theorem gives_throw (e : ReadError) (P : α → Prop) : (throw e : Reader α).Gives P := by
  intro cs a rest ha
  cases ha

theorem Gives.bind {x : Reader α} {f : α → Reader β} {P : α → Prop} {Q : β → Prop} (hx : x.Gives P)
    (hf : ∀ a, P a → (f a).Gives Q) : (x >>= f).Gives Q := by
  intro cs b rest hb
  cases ha : x cs with
  | ok a left =>
      rw [bind_of_ok ha] at hb
      exact hf a (hx cs a left ha) left b rest hb
  | error e left =>
      rw [bind_of_error ha] at hb
      cases hb

/-- What comes before does not matter. -/
theorem gives_after (x : Reader α) {f : α → Reader β} {Q : β → Prop} (hf : ∀ a, (f a).Gives Q) :
    (x >>= f).Gives Q := (gives_true x).bind fun a _ => hf a

theorem gives_ite {c : Prop} [Decidable c] {x y : Reader α} {P : α → Prop} (hx : c → x.Gives P)
    (hy : ¬ c → y.Gives P) :
    (if c then x else y).Gives P := by
  by_cases hc : c
  · rw [if_pos hc]
    exact hx hc
  · rw [if_neg hc]
    exact hy hc

/-- A value of another kind is never taken. -/
theorem gives_refuse (c : Char) (P : α → Prop) : (refuse c : Reader α).Gives P := by
  have hthrow {β : Type} (x : Reader β) : (x >>= fun _ => (throw .mismatched : Reader α)).Gives P :=
    gives_after x fun _ => gives_throw _ P
  unfold refuse
  refine gives_ite (fun _ => gives_after _ fun _ => hthrow _) fun _ => ?_
  refine gives_ite (fun _ => gives_after _ fun _ => hthrow _) fun _ => ?_
  refine gives_ite (fun _ => gives_after _ fun _ => hthrow _) fun _ => ?_
  refine gives_ite (fun _ => hthrow _) fun _ => ?_
  refine gives_ite (fun _ => gives_after _ fun _ => hthrow _) fun _ => ?_
  exact gives_ite (fun _ => gives_throw _ P) fun _ => gives_throw _ P

theorem gives_listOf {items : Reader α} {P : α → Prop} (h : items.Gives P) :
    (listOf items).Gives P := by
  refine gives_after _ fun c => gives_ite (fun _ => ?_) fun _ => gives_refuse c P
  exact gives_after _ fun _ => h.bind fun a ha => gives_after _ fun _ => gives_pure ha

/-- An answer to a whole text is an answer of the reader. -/
theorem Gives.whole {x : Reader α} {P : α → Prop} (h : x.Gives P) {source : String} {a : α}
    (ha : whole x source = .ok a) : P a := by
  have hreading : (do
      let a ← x
      if (← next).isSome then throw .malformed
      return a : Reader α).Gives P := by
    refine h.bind fun a ha => gives_after _ fun c => ?_
    exact gives_ite (fun _ => gives_after _ fun _ => gives_pure ha) fun _ => gives_pure ha
  unfold Reader.whole at ha
  simp only at ha
  split at ha
  · rename_i b rest hb
    cases ha
    exact hreading _ _ _ hb
  · cases ha

end Reader

open Reader (Gives)

/-! ### Records -/

namespace RecordFormat

variable {P α : Type} {r : RecordFormat P α} {I : P → Prop}

/-- What every field keeps holds after the fields were read by name. -/
theorem gives_readFields (hfield : ∀ g ∈ r.fields, ∀ p, I p → (g.decode p).Gives I) (n : ℕ)
    (first : Bool) {p : P} (hp : I p) : (r.readFields n first p).Gives I := by
  induction n generalizing first p with
  | zero => exact Reader.gives_throw _ I
  | succ n ih =>
      rw [readFields]
      refine Reader.gives_after _ fun more => Reader.gives_ite (fun _ => ?_) fun _ =>
        Reader.gives_pure hp
      refine Reader.gives_after _ fun _ => Reader.gives_after _ fun name => ?_
      cases hfind : r.fields.find? (·.name = name) with
      | none =>
          exact Reader.gives_after _ fun _ => Reader.gives_after _ fun _ => ih false hp
      | some g =>
          have hg := hfield g (List.mem_of_find?_eq_some hfind)
          have hread : (do
              Reader.mark ':'
              r.readFields n false (← g.decode p)).Gives I :=
            Reader.gives_after _ fun _ => (hg p hp).bind fun p' hp' => ih false hp'
          exact Reader.gives_ite (fun _ => Reader.gives_after _ fun _ => hread) fun _ => hread

/-- What every field keeps holds after the fields were read in order. -/
theorem gives_readItems (gs : List (RecordField P α))
    (hfield : ∀ g ∈ gs, ∀ p, I p → (g.decode p).Gives I) (first : Bool) {p : P} (hp : I p) :
    (r.readItems gs first p).Gives I := by
  induction gs generalizing first p with
  | nil => exact Reader.gives_pure hp
  | cons g gs ih =>
      rw [readItems]
      refine Reader.gives_after _ fun more => Reader.gives_ite (fun _ => ?_) fun _ => ?_
      · exact (hfield g List.mem_cons_self p hp).bind fun p' hp' =>
          ih (fun g' hg' => hfield g' (List.mem_cons_of_mem g hg')) false hp'
      · exact Reader.gives_ite (fun _ => Reader.gives_pure hp) fun _ => Reader.gives_throw _ I

/-- A record is made of parts with a property that the empty parts have and that every field
keeps. -/
theorem gives_format {Q : α → Prop} (hempty : I r.empty)
    (hfield : ∀ g ∈ r.fields, ∀ p, I p → (g.decode p).Gives I)
    (hcomplete : ∀ p a, I p → r.complete p = some a → Q a) : r.format.decode.Gives Q := by
  have hfinish : ∀ p, I p → (r.finish p).Gives Q := by
    intro p hp
    rw [finish]
    cases ha : r.complete p with
    | some a => exact Reader.gives_pure (hcomplete p a hp ha)
    | none => exact Reader.gives_throw _ Q
  have hfields : (Reader.bounded fun n => r.readFields n true r.empty).Gives I :=
    fun cs p rest hp =>
    gives_readFields hfield _ true hempty cs p rest hp
  refine Reader.gives_after _ fun c =>
    Reader.gives_ite (fun _ => Reader.gives_after _ fun _ => ?_) fun _ => ?_
  · refine hfields.bind fun p hp => (hfinish p hp).bind fun a ha => ?_
    exact Reader.gives_after _ fun _ => Reader.gives_pure ha
  · exact Reader.gives_listOf ((gives_readItems r.fields hfield true hempty).bind hfinish)

theorem gives_of {β : Type} {name : String} {f : Format β} {value : α → β} {part : P → Option β}
    {fill : P → β → P} {R : β → Prop} {p : P} (hf : f.decode.Gives R)
    (hfill : ∀ b, R b → I (fill p b)) :
    ((RecordField.of name f value part fill).decode p).Gives I :=
  hf.bind fun b hb => Reader.gives_pure (hfill b hb)

/-- A record with two fields is made of two values that were read. -/
theorem gives_pair {β γ : Type} {name₁ name₂ : String} {f₁ : Format β} {f₂ : Format γ}
    {value₁ : α → β} {value₂ : α → γ} {make : β → γ → α} {R : β → Prop} {S : γ → Prop}
    {Q : α → Prop} (h₁ : f₁.decode.Gives R) (h₂ : f₂.decode.Gives S)
    (hmake : ∀ b c, R b → S c → Q (make b c)) :
    (pair name₁ f₁ value₁ name₂ f₂ value₂ make).decode.Gives Q := by
  refine gives_format (I := fun p => (∀ b ∈ p.1, R b) ∧ ∀ c ∈ p.2, S c) ⟨by simp, by simp⟩ ?_ ?_
  · intro g hg p hp
    rcases List.mem_pair.1 hg with rfl | rfl
    · exact gives_of h₁ fun b hb => ⟨by simpa using hb, hp.2⟩
    · exact gives_of h₂ fun c hc => ⟨hp.1, by simpa using hc⟩
  · rintro ⟨_ | b, _ | c⟩ a hp ha
    · cases ha
    · cases ha
    · cases ha
    · cases ha
      exact hmake b c (hp.1 b rfl) (hp.2 c rfl)

end RecordFormat

/-! ### Spreads -/

namespace Format

theorem gives_convert {α β : Type} {f : Format α} {write : β → α} {read : α → Option β} :
    (convert f write read).decode.Gives fun b => ∃ a, read a = some b := by
  refine Reader.gives_after _ fun a => ?_
  cases hb : read a with
  | some b => exact Reader.gives_pure ⟨a, hb⟩
  | none => exact Reader.gives_throw _ _

end Format

/-- A spread is what its value is read as. -/
theorem Spread.ofReal?_value {x : Float} {s : Spread Float} (h : ofReal? x = some s) :
    ofReal? s.value = some s := by
  have hvalue : s.value = x := by
    unfold ofReal? at h
    split at h
    · cases h
      rfl
    · cases h
  rw [hvalue, h]

theorem Format.gives_spread :
    (Format.spread (R := Float)).decode.Gives fun s => Spread.ofReal? s.value = some s := by
  intro cs s rest hs
  obtain ⟨x, hx⟩ := Format.gives_convert cs s rest hs
  exact Spread.ofReal?_value hx

/-! ### All types -/

namespace Document

/-- A text of some type holds a value only if its spread is one, and every such value whose numbers
are finite and read back is held by a text. -/
theorem exists_text (d : Document) :
    (∀ text v, d.format.decodeText text = .ok v → d.Made v) ∧
      ∀ v, d.Made v → (∀ x ∈ d.reals v, x.isFinite = true ∧ Double.ReadBack x) →
        ∃ text, d.format.decodeText text = .ok v := by
  refine ⟨fun text v hv => ?_, fun v hmade hreals => ?_⟩
  · cases d with
    | spread => exact Format.gives_spread.whole hv
    | pool =>
        exact (RecordFormat.gives_pair (Reader.gives_true _) Format.gives_spread
          fun _ _ _ hs => hs).whole hv
    | _ => trivial
  · have hsettles := d.settles v hmade fun x hx => (hreals x hx).2
    exact ⟨_, hsettles.decodeText_encodeText.1 fun x hx => (hreals x hx).1⟩

/-- A pool without matrices is held by a text. -/
theorem exists_text_emptyPool :
    ∃ text, Format.pool.decodeText text = .ok (⟨#[], ⟨0.24⟩⟩ : Pool Float) := by
  have hmade : Made pool (⟨#[], ⟨0.24⟩⟩ : Pool Float) := by
    change Spread.ofReal? _ = _
    decide +kernel
  exact (exists_text pool).2 (⟨#[], ⟨0.24⟩⟩ : Pool Float) hmade (by decide +kernel)

/-- A lattice without points, a fifth direction, a pool without matrices, and a state with a
negative coupling and without links, written as a list of its parts: all of them are read, and none
of them can be constructed. -/
theorem unchecked :
    (Format.lattice.decodeText "\x7b\"dim\":0\x7d" = .ok ⟨0⟩ ∧ Lattice.ofSize? 0 = none) ∧
      (Format.direction.decodeText "\x7b\"index\":4\x7d" = .ok ⟨4⟩ ∧ Direction.ofIndex? 4 = none) ∧
      (Format.pool.decodeText "\x7b\"matrices\":[],\"spread\":1\x7d" =
        .ok (⟨#[], ⟨1⟩⟩ : Pool Float) ∧
        ∀ g : Xoshiro, Pool.generate 0 (⟨1⟩ : Spread Float) g = .ok none g) ∧
      Format.state.decodeText "[[1],-1,[[]]]" = .ok (⟨⟨1⟩, -1, ⟨#[]⟩⟩ : LatticeState Float) ∧
        LatticeState.ofField ⟨1⟩ (-1 : Float) ⟨#[]⟩ = .ok (.error (.nonPositiveBeta (-1))) := by
  refine ⟨⟨rfl, rfl⟩, ⟨rfl, rfl⟩, ⟨rfl, fun g => rfl⟩, rfl, ?_⟩
  have hbeta : LatticeState.validBeta (-1 : Float) = false := by decide +kernel
  rw [LatticeState.ofField, if_pos (by rw [hbeta]; decide)]
  rfl

end Document

end PureGauge
