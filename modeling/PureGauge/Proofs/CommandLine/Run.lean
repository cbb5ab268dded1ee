/-
**A run from the command line is a run of the library.**

The parameters of a run are found field by field: an option counts before the file, and the file
before the standard value.  The simulation that is made of them, with a source that is seeded by the
command line, is set to the period of normalisation and then does what it would do anywhere else:
sweeps that are discarded but count, and a series of measurements.  Whether the links are updated
one after the other makes no difference to the samples, and so none to their mean and its error.

Main definitions:

* `PureGauge.Options.Reads`, `PureGauge.Options.effective` — what a file says, and the parameters of
  a run;
* `PureGauge.Report.Tells` — a report tells what a simulation does;
* `PureGauge.Outcome.figures?` — the samples of a run, their mean and its error.

Main results:

* `PureGauge.Simulation.Sound.sampling_cases` — the samples of a sound simulation;
* `PureGauge.Options.exists_effective` — where the parameters of a run come from;
* `PureGauge.runWith_eq_library` — a run from the command line in terms of the library.
-/
import PureGauge.CommandLine.Run
import PureGauge.Proofs.CommandLine.Arguments
import PureGauge.Proofs.Json.Parts
import PureGauge.Proofs.Simulation.Construction
import PureGauge.Proofs.Simulation.Sampling
import PureGauge.Proofs.Simulation.Twins
import PureGauge.Proofs.Sweep.Closure

namespace PureGauge

/-! ### Samples -/

/-- What a run does with a simulation: so many sweeps that are discarded, and then the series of
measurements. -/
def Simulation.sampling (s : Simulation Float Xoshiro) (n : ℕ) :
    Checked (Account Float Xoshiro (List Float)) := do
  let t ← s.after n
  let found ← t.series .blind 0
  let u ← t.after (t.measurements * t.spacing)
  return ⟨found.map fun m => m.1.1, u, found.flatMap Prod.snd⟩

theorem does_thermaliseAndSample (n : ℕ) :
    (thermaliseAndSample n).Does (Simulation.sampling · n) := by
  refine Run.does_congr (Run.does_bind (Run.does_sweepTimes n) fun _ =>
    Run.does_bind (Run.does_sampleWith .blind) fun _ => Run.does_pure _) fun s => ?_
  simp only [Simulation.sampling, Account.chain, bind_assoc, pure_bind, Checked.ok_bind,
    List.append_nil, List.nil_append, List.map_map, Function.comp_def]

/-- A sound simulation has as many samples as it has measurements, and each of them is the average
plaquette after the sweeps that are discarded and those between two measurements, as often as
measurements were made.  If there are none, there is no room for so many, or the steps that are
needed are interrupted. -/
theorem Simulation.Sound.sampling_cases {s : Simulation Float Xoshiro} (h : s.Sound 0) (n : ℕ) :
    (∃ account, s.sampling n = .ok account ∧ account.answer.length = s.measurements ∧
        ∀ k (hk : k < account.answer.length), ∃ u,
          s.after (n + (k + 1) * s.spacing) = .ok u ∧ u.average = .ok account.answer[k]) ∨
      ∃ fault, s.sampling n = .error fault ∧
        (fault = .storageTooLarge ∧ ¬ Storage.Fits Storage.wordBytes s.measurements ∨
          s.Interrupted (n + s.measurements * s.spacing) fault) := by
  unfold Simulation.sampling
  rcases h.after_cases Xoshiro.endless n with ⟨t, ht, hsound⟩ | ⟨fault, herr, hfault⟩
  · obtain ⟨-, hprotocol⟩ := Simulation.of_after_eq_ok ht
    rw [ht, Checked.ok_bind]
    rcases hsound.series_cases Xoshiro.endless 0 with
      ⟨found, hfound, hlength, hsamples⟩ | ⟨fault, herr, hfault⟩
    · obtain ⟨u, hu⟩ := Simulation.exists_after_of_series (t := t) rfl hfound
      rw [Nat.zero_add] at hu
      rw [hfound, Checked.ok_bind, hu, Checked.ok_bind, Checked.pure_eq]
      refine Or.inl ⟨_, rfl, ?_, fun k hk => ?_⟩
      · rw [List.length_map, hlength, hprotocol.measurements_eq]
      · have hk' : k < found.length := by rwa [List.length_map] at hk
        obtain ⟨w, hw, haverage⟩ := hsamples k hk'
        rw [Nat.zero_add, hprotocol.spacing_eq, Simulation.after_of_after ht] at hw
        exact ⟨w, hw, by rw [haverage, List.getElem_map]⟩
    · rw [herr, Checked.error_bind]
      rw [Nat.zero_add, hprotocol.measurements_eq, hprotocol.spacing_eq] at hfault
      exact Or.inr ⟨fault, rfl, hfault.imp_right fun hi => hi.of_after ht⟩
  · rw [herr, Checked.error_bind]
    exact Or.inr ⟨fault, rfl, Or.inr (hfault.mono (Nat.le_add_right _ _))⟩

/-- The samples that a simulation has after the sweeps that are discarded, or the fault that it
stops with. -/
def Simulation.samplesAfter (s : Simulation Float Xoshiro) (n : ℕ) : Checked (List Float) :=
  answerOf (thermaliseAndSample n ⟨s, #[]⟩)

theorem Simulation.samplesAfter_eq (s : Simulation Float Xoshiro) (n : ℕ) :
    s.samplesAfter n = (s.sampling n).map Account.answer := by
  have hdoes := does_thermaliseAndSample n
  rw [samplesAfter]
  cases haccount : s.sampling n with
  | ok account =>
      obtain ⟨t, hrun, -⟩ := hdoes.exists_ok (s := ⟨s, #[]⟩) haccount
      rw [hrun]
      rfl
  | error fault =>
      obtain ⟨t, hrun⟩ := hdoes.exists_error (s := ⟨s, #[]⟩) haccount
      rw [hrun]
      rfl

/-- The samples do not depend on the execution. -/
theorem Simulation.samplesAfter_withExecution {s : Simulation Float Xoshiro} (h : s.chain.Ready)
    (e : Execution) (n : ℕ) : (s.withExecution e).samplesAfter n = s.samplesAfter n := by
  have halike :
      Run.Alike (R := Float) (G := Xoshiro) e Eq (thermaliseAndSample n) (thermaliseAndSample n) :=
    Run.alike_bind (Run.alike_sweepTimes n) fun _ _ _ => Run.alike_sample
  have htwin : Session.Twin e ⟨s, #[]⟩ ⟨s.withExecution e, #[]⟩ := ⟨rfl, rfl, h⟩
  have hresults := halike _ _ htwin
  rw [samplesAfter, samplesAfter]
  generalize thermaliseAndSample n ⟨s, #[]⟩ = r at hresults
  generalize thermaliseAndSample n ⟨s.withExecution e, #[]⟩ = r' at hresults
  cases hresults with
  | ok hab _ => rw [hab]; rfl
  | error _ => rfl

/-! ### Parameters -/

namespace Options

/-- What the file says that the command line names, if it names one. -/
def Reads (o : Options) (folder : Folder) (parts : Format.ConfigParts Float) : Prop :=
  match o.config with
  | none => parts = .nothing
  | some path => ∃ text, folder.look path = .file text ∧
      ∀ base : Config Float, (Format.configOver base).decodeText text = .ok (parts.completedBy base)

/-- The parameters of a run, field by field: what the command line says, or else what the file says,
or else the standard value.  There is no option for the number of pairs. -/
def effective (o : Options) (parts : Format.ConfigParts Float) : Config Float where
  points := (o.points <|> parts.points).getD Config.standard.points
  beta := (o.beta <|> parts.beta).getD Config.standard.beta
  spacing := (o.spacing <|> parts.spacing).getD Config.standard.spacing
  measurements := (o.measurements <|> parts.measurements).getD Config.standard.measurements
  spread := (o.spread <|> parts.spread).getD Config.standard.spread
  pairs := parts.pairs.getD Config.standard.pairs
  thermalisation := (o.thermalisation <|> parts.thermalisation).getD Config.standard.thermalisation
  start := (o.start <|> parts.start).getD Config.standard.start

/-- Options change what a file says over the standard parameters. -/
theorem applyTo_completedBy (o : Options) (parts : Format.ConfigParts Float) :
    o.applyTo (parts.completedBy Config.standard) = o.effective parts := by
  have hfield : ∀ {α : Type} (x y : Option α) (a : α), x.getD (y.getD a) = (x <|> y).getD a := by
    intro α x y a
    cases x with
    | none => rfl
    | some b => rfl
  simp only [applyTo, effective, Format.ConfigParts.completedBy, hfield]

/-- The file that the command line names, if it names one, holds a configuration. -/
def Readable (o : Options) (folder : Folder) : Prop :=
  ∀ path, o.config = some path → ∃ text c, folder.look path = .file text ∧
    Format.config.decodeText text = .ok c

/-- The parameters of a run are the effective ones. -/
theorem exists_effective {o : Options} {folder : Folder} (h : o.Readable folder) :
    ∃ parts, o.Reads folder parts ∧ ∀ o' : Options, o'.config = o.config →
      o'.parameters (o'.config.map folder.look) = .ok (o'.effective parts) := by
  cases hconfig : o.config with
  | none =>
      refine ⟨.nothing, by rw [Reads, hconfig], fun o' ho' => ?_⟩
      rw [ho']
      exact congrArg Except.ok (applyTo_completedBy o' .nothing)
  | some path =>
      obtain ⟨text, c, hlook, hc⟩ := h path hconfig
      obtain ⟨parts, hparts⟩ := Format.exists_parts (R := Float) hc
      refine ⟨parts, by rw [Reads, hconfig]; exact ⟨text, hlook, hparts⟩, fun o' ho' => ?_⟩
      have htext : Format.config.decodeText text = .ok (parts.completedBy Config.standard) :=
        hparts Config.standard
      rw [ho', Option.map_some, hlook, parameters]
      simp only [htext, applyTo_completedBy]

end Options

/-! ### Runs -/

/-- A report of a run with the effective parameters `c` tells what the simulation `s` does when it
is set to the period of the command line: as many samples as there are measurements, each of them
the average plaquette after the sweeps that are discarded and those between two measurements, as
often as measurements were made, and with them their mean and its error. -/
structure Report.Tells (r : Report) (o : Options) (c : Config Float)
    (s : Simulation Float Xoshiro) :
    Prop where
  config_eq : r.config = c
  seed_eq : r.seed = o.seed.getD 0
  execution_eq : r.execution = o.execution
  length_eq : r.samples.length = c.measurements.toNat
  sample_eq : ∀ k (hk : k < r.samples.length), ∃ t,
    { s with period := o.period }.after (c.thermalisation.toNat + (k + 1) * c.spacing.toNat) =
      .ok t ∧
      t.average = .ok r.samples[k]
  figures_eq : (r.mean, r.error) = Statistics.meanWithError r.samples

/-- The samples of a run, their mean and its error, if it came to its end. -/
def Outcome.figures? : Outcome → Option (List Float × Float × Float)
  | measured r _ => some (r.samples, r.mean, r.error)
  | _ => none

/-- The report with given samples. -/
def Options.report (o : Options) (c : Config Float) (samples : List Float) : Report :=
  ⟨c, o.seed.getD 0, o.execution, samples, (Statistics.meanWithError samples).1,
    (Statistics.meanWithError samples).2⟩

/-- What is measured with given parameters, if a simulation can be made of them. -/
theorem measure_eq {o : Options} {c : Config Float} {s : Simulation Float Xoshiro}
    (hs : Simulation.ofConfig c (Xoshiro.ofSeed (o.seed.getD 0)) = .ok (.ok s)) :
    measure o c = (({ s with period := o.period } : Simulation Float Xoshiro).samplesAfter
      c.thermalisation.toNat).map fun samples => .ok (o.report c samples) := by
  obtain ⟨hsound, -⟩ := Simulation.sound_of_ofConfig hs
  have hready : ({ s with period := o.period } : Simulation Float Xoshiro).chain.Ready :=
    hsound.ready
  rw [← Simulation.samplesAfter_withExecution hready o.execution, measure, hs, Checked.ok_bind]
  simp only [Simulation.samplesAfter, Simulation.withExecution]
  cases thermaliseAndSample c.thermalisation.toNat
      ⟨{ s with chain := s.chain.setExecution o.execution, period := o.period }, #[]⟩ with
  | ok samples t => rfl
  | error fault t => rfl

/-- How a run ends if a simulation can be made of its parameters. -/
theorem runWith_eq {arguments : List String} {folder : Folder} {o : Options} {c : Config Float}
    {s : Simulation Float Xoshiro} (ho : Options.ofArguments? arguments = some o)
    (hc : o.parameters (o.config.map folder.look) = .ok c)
    (hs : Simulation.ofConfig c (Xoshiro.ofSeed (o.seed.getD 0)) = .ok (.ok s)) :
    runWith arguments folder =
      match ({ s with period := o.period } : Simulation Float Xoshiro).samplesAfter
        c.thermalisation.toNat with
      | .ok samples => .measured (o.report c samples) (o.writeResult (o.report c samples) folder)
      | .error fault => .stopped fault := by
  rw [runWith]
  simp only [ho, hc, measure_eq hs]
  cases ({ s with period := o.period } : Simulation Float Xoshiro).samplesAfter
    c.thermalisation.toNat with
  | ok samples => rfl
  | error fault => rfl

/-- Whether the links are updated one after the other makes no difference to the samples of a
run. -/
theorem figures?_runWith_marked {arguments arguments' : List String} {folder : Folder} {o : Options}
    {parts : Format.ConfigParts Float} {s : Simulation Float Xoshiro} {sequential : Option Unit}
    (hparameters : ∀ o' : Options, o'.config = o.config →
      o'.parameters (o'.config.map folder.look) = .ok (o'.effective parts))
    (hs : Simulation.ofConfig (o.effective parts) (Xoshiro.ofSeed (o.seed.getD 0)) = .ok (.ok s))
    (ho : Options.ofArguments? arguments = some o)
    (ho' : Options.ofArguments? arguments' = some (o.marked sequential)) :
    (runWith arguments' folder).figures? = (runWith arguments folder).figures? := by
  have heffective : (o.marked sequential).effective parts = o.effective parts := rfl
  have hperiod : (o.marked sequential).period = o.period := rfl
  rw [runWith_eq ho (hparameters o rfl) hs,
    runWith_eq ho' (hparameters (o.marked sequential) rfl) hs]
  simp only [heffective, hperiod]
  cases ({ s with period := o.period } : Simulation Float Xoshiro).samplesAfter
      (o.effective parts).thermalisation.toNat with
  | ok samples => rfl
  | error fault => rfl

/-- **A run from the command line is a run of the library.**  Let the arguments be in order, and let
the file that they name hold a configuration, if they name one.  Then the parameters of the run are
found field by field, and the number of sweeps between two measurements has no influence on the
number of those that are discarded.  If a simulation can be made of the parameters and the seed,
then the run tells what this simulation does when it is set to the period of the command line; if it
stops, then there is no room for the samples, or the simulation is interrupted.  Arguments that
differ in asking for sequential updates give the same samples with the same mean and error, so this
can be asked for before all other arguments, and it can be left out wherever it stands. -/
theorem runWith_eq_library {arguments : List String} {folder : Folder} {o : Options}
    (ho : Options.ofArguments? arguments = some o) (hfile : o.Readable folder) :
    ∃ parts, o.Reads folder parts ∧
      o.parameters (o.config.map folder.look) = .ok (o.effective parts) ∧
      (∀ spacing, { o with spacing := spacing }.parameters (o.config.map folder.look) =
        .ok { o.effective parts with
          spacing := (spacing <|> parts.spacing).getD Config.standard.spacing }) ∧
      ∀ s : Simulation Float Xoshiro,
        Simulation.ofConfig (o.effective parts) (Xoshiro.ofSeed (o.seed.getD 0)) = .ok (.ok s) →
          ((∃ r, runWith arguments folder = .measured r (o.writeResult r folder) ∧
              r.Tells o (o.effective parts) s) ∨
            ∃ fault, runWith arguments folder = .stopped fault ∧
              (fault = .storageTooLarge ∧
                  ¬ Storage.Fits Storage.wordBytes (o.effective parts).measurements.toNat ∨
                { s with period := o.period }.Interrupted
                  ((o.effective parts).thermalisation.toNat +
                    (o.effective parts).measurements.toNat * (o.effective parts).spacing.toNat)
                  fault)) ∧
          (∀ arguments' sequential,
            Options.ofArguments? arguments' = some { o with sequential := sequential } →
              (runWith arguments' folder).figures? = (runWith arguments folder).figures?) ∧
          (o.sequential = none →
            (runWith ("--sequential" :: arguments) folder).figures? =
              (runWith arguments folder).figures?) ∧
          ∀ before after, arguments = before ++ "--sequential" :: after →
            (runWith (before ++ after) folder).figures? = (runWith arguments folder).figures? := by
  obtain ⟨parts, hreads, hparameters⟩ := Options.exists_effective hfile
  have hc := hparameters o rfl
  refine ⟨parts, hreads, hc, fun spacing => hparameters { o with spacing := spacing } rfl,
    fun s hs => ⟨?_, fun arguments' sequential ho' => figures?_runWith_marked hparameters hs ho ho',
      fun habsent => figures?_runWith_marked hparameters hs ho
        (Options.ofArguments?_cons_sequential ho habsent), fun before after harguments => ?_⟩⟩
  · obtain ⟨hsound, -, hspacing, hmeasurements⟩ := Simulation.sound_of_ofConfig hs
    have hsound' : ({ s with period := o.period } : Simulation Float Xoshiro).Sound 0 :=
      ⟨hsound.ready, hsound.planes_lt, hsound.sweeps_lt⟩
    rw [runWith_eq ho hc hs, Simulation.samplesAfter_eq]
    rcases hsound'.sampling_cases (o.effective parts).thermalisation.toNat with
      ⟨account, haccount, hlength, hsamples⟩ | ⟨fault, haccount, hfault⟩
    · rw [haccount]
      refine Or.inl ⟨o.report (o.effective parts) account.answer, rfl, rfl, rfl, rfl,
        hlength.trans hmeasurements, ?_, rfl⟩
      rw [← hspacing]
      exact hsamples
    · rw [haccount, ← hspacing, ← hmeasurements]
      exact Or.inr ⟨fault, rfl, hfault⟩
  · rw [harguments] at ho
    rw [harguments]
    exact figures?_runWith_marked hparameters hs ho (Options.ofArguments?_append_of_sequential ho)

/-- Arguments that name a file and ask for a cold start, a single sweep that is discarded, two
measurements without a sweep before them, and sequential updates. -/
def pointArguments : List String :=
  ["--config", "run", "--start=cold", "--ncor", "0", "--ncf=2", "-t1", "--sequential"]

/-- The file makes a lattice with a single point, and a pool with a single pair of identities. -/
def pointFolder : Folder :=
  ⟨[("run", "\x7b\"number_of_points\": 1, \"spread\": 0, \"number_of_pairs\": 1\x7d")]⟩

/-- What the arguments say. -/
def pointOptions : Options :=
  { Options.empty with
    config := some "run", start := some .cold, spacing := some 0, measurements := some 2,
    thermalisation := some 1, sequential := some () }

/-- What the arguments and the file say together. -/
def pointConfig : Config Float := ⟨1, 5.5, 0, 2, 0, 1, 1, .cold⟩

/-- The name of the file has no slash, so that it is the only part of its path. -/
theorem splitOn_run : "run".splitOn "/" = ["run"] := by
  -- the search for the slash goes on by a letter at a time
  have hstep (i : ℕ) (hi : i < 3) : String.splitOnAux "run" "/" 0 ⟨i⟩ 0 [] =
      String.splitOnAux "run" "/" 0 ⟨i + 1⟩ 0 [] := by
    rw [String.splitOnAux]
    obtain rfl | rfl | rfl : i = 0 ∨ i = 1 ∨ i = 2 := by omega
    all_goals
      rw [if_neg (by decide), if_neg (by decide)]
      rfl
  have hend : String.splitOnAux "run" "/" 0 ⟨3⟩ 0 [] = ["run"] := by
    rw [String.splitOnAux, if_pos (by decide)]
    decide
  calc "run".splitOn "/"
      = String.splitOnAux "run" "/" 0 ⟨0⟩ 0 [] := if_neg (by decide)
    _ = String.splitOnAux "run" "/" 0 ⟨1⟩ 0 [] := hstep 0 (by decide)
    _ = String.splitOnAux "run" "/" 0 ⟨2⟩ 0 [] := hstep 1 (by decide)
    _ = String.splitOnAux "run" "/" 0 ⟨3⟩ 0 [] := hstep 2 (by decide)
    _ = ["run"] := hend

theorem look_pointFolder : pointFolder.look "run" =
    .file "\x7b\"number_of_points\": 1, \"spread\": 0, \"number_of_pairs\": 1\x7d" := by
  have hplace : Folder.place "run" = .file "run" := by
    rw [Folder.place, splitOn_run]
    rfl
  rw [Folder.look, hplace]
  rfl

/-- Whether a factor can be chosen for each link in the next sweep. -/
def Simulation.served (s : Simulation Float Xoshiro) : Bool :=
  match WordSource.next s.chain.engine.source with
  | .ok (seed, _) =>
      decide (s.chain.engine.pool.Serves seed (4 * s.chain.state.lattice.dim.toNat ^ 4))
  | .error _ => false

theorem served_pointConfig : ∃ s, Simulation.ofConfig pointConfig (Xoshiro.ofSeed 0) = .ok (.ok s) ∧
    s.served = true := by
  have hchecked : (match Simulation.ofConfig pointConfig (Xoshiro.ofSeed 0) with
      | .ok (.ok s) => s.served
      | _ => false) = true := by decide +kernel
  split at hchecked
  case h_1 s hs => exact ⟨s, hs, hchecked⟩
  case h_2 => cases hchecked

theorem runWith_eq_library_pointFolder :
    ∃ s r, Simulation.ofConfig pointConfig (Xoshiro.ofSeed 0) = .ok (.ok s) ∧
      runWith pointArguments pointFolder = .measured r (.ok pointFolder) ∧
      r.Tells pointOptions pointConfig s ∧
      (runWith pointArguments.dropLast pointFolder).figures? =
        some (r.samples, r.mean, r.error) := by
  have ho : Options.ofArguments? pointArguments = some pointOptions := rfl
  have hdecoded : Format.config.decodeText
      "\x7b\"number_of_points\": 1, \"spread\": 0, \"number_of_pairs\": 1\x7d" =
      .ok { Config.standard with points := 1, spread := 0, pairs := 1 } := rfl
  have hfile : pointOptions.Readable pointFolder := by
    intro path hpath
    obtain rfl := Option.some.inj hpath
    exact ⟨_, _, look_pointFolder, hdecoded⟩
  obtain ⟨parts, -, hparameters, -, hruns⟩ := runWith_eq_library ho hfile
  have hconfig : pointOptions.effective parts = pointConfig := by
    have hfound :
        pointOptions.parameters (pointOptions.config.map pointFolder.look) = .ok pointConfig := by
      rw [show pointOptions.config = some "run" from rfl, Option.map_some, look_pointFolder,
        Options.parameters]
      simp only [hdecoded]
      rfl
    exact Except.ok.inj (hparameters.symm.trans hfound)
  rw [hconfig] at hruns
  obtain ⟨s, hs, hserved⟩ := served_pointConfig
  obtain ⟨hends, -, -, hleft⟩ := hruns s hs
  rcases hends with ⟨r, hr, htells⟩ |
    ⟨fault, -, ⟨-, hroom⟩ | ⟨-, m, hm, t, ht, hstarved⟩ | ⟨-, hlarge⟩⟩
  · refine ⟨s, r, hs, hr, htells, ?_⟩
    rw [show pointArguments.dropLast = pointArguments.dropLast ++ [] from rfl, hleft _ _ rfl, hr]
    rfl
  · exact absurd (by decide) hroom
  · -- the only step is the sweep that is discarded
    obtain rfl : m = 0 := by
      have hsteps : m < 1 := hm
      omega
    obtain rfl := Except.ok.inj ht
    obtain ⟨seed, source, hnext, hserves⟩ := hstarved
    simp only [Simulation.served, hnext, decide_eq_true_eq] at hserved
    exact absurd hserved hserves
  · obtain ⟨-, hsweeps, -⟩ := Simulation.sound_of_ofConfig hs
    simp only [hsweeps] at hlarge
    exact absurd hlarge (by decide)

end PureGauge
