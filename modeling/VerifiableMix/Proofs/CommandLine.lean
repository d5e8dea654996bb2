import VerifiableMix.Proofs.Cascade
import VerifiableMix.Proofs.Completeness
import VerifiableMix.Proofs.RowSet

/-!
# Runs over an input file

A run starts its engine, reads a row set, draws, and mixes with what it has drawn.  The
draws are all that it takes from its source, so its output is a function of them; and
draws that fit checked rows are always mixed: what is proved is verified.

A run is described by its `Launch`.  It reaches its output unless it gets no draws, and
then its source has starved it.

## Main results

* `mix_eq` — a mix is a shuffle with proof, followed by its verification.
* `exists_mixWith_rowSet` — draws that fit are mixed.
* `Launch.exists_output_eq` — the output of a run is what `mixWith` makes of its draws.
* `Launch.exists_output`, `Launch.output_of_no_draws` — what comes of a run.
* `Launch.exists_output_of_fed` — a run whose source does not starve it reaches its output.
-/

namespace VerifiableMix.CommandLine

open VerifiableMix.Group VerifiableMix.Failure

variable {O : Oracle} {G : Group} {n w : Nat}

/-! ## Steps -/

/-- Steps are equal if they do the same from every source. -/
theorem step_ext {α : Type} {x y : Step α}
    (h : ∀ source, x.run.run source = y.run.run source) : x = y :=
  funext h

/-- A step that draws hands on what was drawn, or fails. -/
theorem run_sampled_bind {α β : Type} (x : Sampler α) (f : α → Step β) (source : ByteSource) :
    (sampled x >>= f).run.run source =
      match x.run.run source with
      | (.ok a, rest) => (f a).run.run rest
      | (.error cause, rest) => (.error (.error cause), rest) := by
  rw [sampled, ExceptT.run_bind, ExceptT.run_mk, StateT.run_bind, StateT.run_bind]
  generalize x.run.run source = outcome
  obtain ⟨result, rest⟩ := outcome
  cases result <;> rfl

/-- A step that draws ends with what it makes of what was drawn. -/
theorem run_sampled_liftM {α β : Type} (x : Sampler α) (f : α → Except Failure β)
    (source : ByteSource) :
    ((sampled x >>= fun a => (liftM (f a) : Step β)).run.run source).1 =
      ((x.run.run source).1.mapError Failure.error >>= f) := by
  rw [run_sampled_bind]
  generalize x.run.run source = outcome
  obtain ⟨result, rest⟩ := outcome
  cases result with
  | error cause => rfl
  | ok a =>
      show ((liftM (f a) : Step β).run.run rest).1 = f a
      cases f a <;> rfl

/-- A result that is known goes on without a draw. -/
theorem result_ok {α : Type} (a : α) : (result (.ok a) : Step α) = pure a := rfl

/-- What was read goes on without a draw. -/
theorem liftM_ok {α : Type} (a : α) : (liftM (Except.ok a : Except Failure α) : Step α) = pure a :=
  rfl

/-! ## Mixing -/

/-- A mix is a shuffle with proof, followed by its verification. -/
theorem mix_eq (O : Oracle) (engine : Engine) (G : Group) (mixName : String) (set : RowSet) :
    mix O engine G mixName set = (do
      let (mixed, proof) ← sampled (shuffleAndProve O engine G mixName set.publicKey set.rows)
      let statement : Statement := { pk := set.publicKey, rows := set.rows, mixed }
      match ← result (verifyShuffle O engine G statement proof) with
      | .accepted => return { rowSet := { publicKey := set.publicKey, rows := mixed }, proof }
      | .rejected _ => throw .unverified) := by
  refine step_ext fun source => ?_
  rw [mix, shuffleAndProve_eq]
  cases rowWidth set.rows with
  | error cause => rfl
  | ok width =>
      rw [result_ok, pure_bind, Sampler.liftM_ok, pure_bind, run_sampled_bind, run_sampled_bind,
        Sampler.run_bind]
      generalize (Draws.sample set.rows.length width).run.run source = outcome
      obtain ⟨drawn, rest⟩ := outcome
      cases drawn with
      | error cause => rfl
      | ok draws =>
          dsimp only
          rw [mixWith]
          cases proveShuffle O engine G mixName set.publicKey set.rows draws with
          | error cause => rfl
          | ok output =>
              obtain ⟨mixed, proof⟩ := output
              simp only [Sampler.run_liftM_ok, Except.mapError, ok_bind]
              cases verifyShuffle O engine G ⟨set.publicKey, set.rows, mixed⟩ proof with
              | error cause => rfl
              | ok verdict => cases verdict <;> rfl

/-- Draws that fit are mixed: the output is that of the shuffle, with a proof of it. -/
theorem exists_mixWith_rowSet (O : Oracle) (hp : G.p.Prime) (hw : 0 < w) (pk : Member G)
    (R : Fin (n + 1) → Fin w → Cipher G) {mixName : String} {gens : Generators}
    (hgens : Generators.deriveAll O G mixName none (n + 1) = .ok gens) (engine : Engine)
    {draws : Draws} (h : draws.Fits (n + 1) w) :
    ∃ (S : Fin (n + 1) → Fin w → Cipher G) (proof : ShuffleProof),
      Shuffle.create G (rowSet R) ⟨pk.element⟩ draws.psi draws.nonces =
        .ok ⟨rowSet S, draws.nonces, draws.psi⟩ ∧
      mixWith O engine G mixName ⟨⟨pk.element⟩, rowSet R⟩ draws =
        .ok ⟨⟨⟨pk.element⟩, rowSet S⟩, proof⟩ := by
  obtain ⟨shuffle, proof, hcreate, hprove, haccepted⟩ :=
    exists_proveShuffle O hp hw pk R hgens engine engine h
  have hshuffle := Shuffle.create_rowSet pk hw R draws.psi draws.nonces h.size_eq h.rows_eq
    h.cols_eq
  obtain rfl := Except.ok.inj (hcreate.symm.trans hshuffle)
  refine ⟨_, proof, hcreate, ?_⟩
  rw [mixWith, mapError_eq_ok_iff.mpr hprove, ok_bind]
  dsimp only
  rw [mapError_eq_ok_iff.mpr haccepted, ok_bind]
  rfl

/-! ## Runs -/

/-- What a run is started with. -/
structure Launch where
  machine : Machine
  environment : Config.Environment
  options : Options
  source : ByteSource

namespace Launch

/-- What the run makes of the bytes of its input file, over a group. -/
def output (O : Oracle) (G : Group) (launch : Launch) (file : Bytes) : Except Failure Output :=
  ((runIn O G launch.machine launch.environment launch.options (some file)).run.run
    launch.source).1

/-- Over the group of its options it is the run of the program. -/
theorem output_eq_run (O : Oracle) (launch : Launch) (file : Bytes) :
    launch.output O launch.options.group.group file =
      ((run O launch.machine launch.environment launch.options (some file)).run.run
        launch.source).1 := rfl

/-- What the run draws for `n` rows of a width. -/
def draws (launch : Launch) (n w : Nat) : Except Error Draws :=
  ((Draws.sample n w).run.run launch.source).1

/-- The run has an input file, its settings are valid and its workers start, and its
generators for `n` rows are found. -/
structure Accepts (O : Oracle) (G : Group) (n : Nat) (launch : Launch) : Prop where
  exists_path : ∃ path, launch.options.input = some path
  exists_engine :
    ∃ engine, startEngine launch.machine launch.environment launch.options = .ok engine
  exists_generators :
    ∃ gens, Generators.deriveAll O G launch.options.mix none n = .ok gens

/-- What is drawn fits; if nothing is drawn, the source has starved the run. -/
theorem draws_cases (launch : Launch) (n w : Nat) :
    (∃ draws, launch.draws n w = .ok draws ∧ draws.Fits n w) ∨
      launch.draws n w = .error .samplingExhausted ∧ Sampler.Starved launch.source := by
  rcases Draws.sample_ensures n w launch.source with
    ⟨draws, rest, hrun, _, hfits⟩ | ⟨⟨rest, hrun⟩, hstarved⟩
  · exact .inl ⟨draws, congrArg Prod.fst hrun, hfits⟩
  · exact .inr ⟨congrArg Prod.fst hrun, hstarved⟩

theorem fits_of_draws {launch : Launch} {draws : Draws} (h : launch.draws n w = .ok draws) :
    draws.Fits n w := by
  rcases launch.draws_cases n w with ⟨draws', hdraws, hfits⟩ | ⟨hexhausted, _⟩
  · obtain rfl := Except.ok.inj (h.symm.trans hdraws)
    exact hfits
  · cases h.symm.trans hexhausted

/-- Every permutation and nonces, and all coins, are drawn from some source. -/
theorem exists_draws (launch : Launch) {draws : Draws} (h : draws.Fits n w)
    (hn : n ≤ UInt64.size) :
    ∃ tape, ∀ seed,
      ({ launch with source := ByteSource.ofTape tape seed } : Launch).draws n w = .ok draws := by
  obtain ⟨tape, htape⟩ := Draws.exists_sample_gives h hn
  exact ⟨tape, fun seed => htape.run_ofTape seed⟩

/-- The output of a run is what is made of its draws. -/
theorem exists_output_eq {launch : Launch} (h : launch.Accepts O G n) {path : String}
    {file : Bytes} {set : RowSet} (hread : readRowSet G path file = .ok set)
    (hwidth : rowWidth set.rows = .ok w) :
    ∃ engine, launch.output O G file =
      ((launch.draws set.rows.length w).mapError Failure.error >>= fun draws =>
        mixWith O engine G launch.options.mix set draws) := by
  obtain ⟨⟨input, hinput⟩, ⟨engine, hengine⟩, _⟩ := h
  have hrows : inputRows G launch.options (some file) = pure set := by
    unfold inputRows
    rw [hinput]
    dsimp only
    rw [readRowSet_of_path hread input, liftM_ok]
  refine ⟨engine, ?_⟩
  rw [output, runIn, hengine, liftM_ok, pure_bind, hrows, pure_bind, CommandLine.mix, hwidth,
    result_ok, pure_bind, run_sampled_liftM]
  rfl

/-- A run over members that gets its draws reaches its output. -/
theorem exists_output (hp : G.p.Prime) (hw : 0 < w) (pk : Member G)
    (R : Fin (n + 1) → Fin w → Cipher G) {launch : Launch} (h : launch.Accepts O G (n + 1))
    {path : String} {file : Bytes}
    (hread : readRowSet G path file = .ok ⟨⟨pk.element⟩, rowSet R⟩) {draws : Draws}
    (hdraws : launch.draws (n + 1) w = .ok draws) :
    ∃ (S : Fin (n + 1) → Fin w → Cipher G) (proof : ShuffleProof),
      Shuffle.create G (rowSet R) ⟨pk.element⟩ draws.psi draws.nonces =
        .ok ⟨rowSet S, draws.nonces, draws.psi⟩ ∧
      launch.output O G file = .ok ⟨⟨⟨pk.element⟩, rowSet S⟩, proof⟩ := by
  obtain ⟨gens, hgens⟩ := h.exists_generators
  obtain ⟨engine, houtput⟩ := exists_output_eq h hread (rowWidth_rowSet hw R)
  obtain ⟨S, proof, hcreate, hmix⟩ :=
    exists_mixWith_rowSet O hp hw pk R hgens engine (fits_of_draws hdraws)
  refine ⟨S, proof, hcreate, ?_⟩
  dsimp only at houtput
  rw [houtput, length_rowSet, mapError_eq_ok_iff.mpr hdraws, ok_bind, hmix]

/-- A run over members whose source does not starve it reaches its output. -/
theorem exists_output_of_fed (hp : G.p.Prime) (hw : 0 < w) (pk : Member G)
    (R : Fin (n + 1) → Fin w → Cipher G) {launch : Launch} (h : launch.Accepts O G (n + 1))
    {path : String} {file : Bytes}
    (hread : readRowSet G path file = .ok ⟨⟨pk.element⟩, rowSet R⟩)
    (hfed : ¬Sampler.Starved launch.source) : ∃ output, launch.output O G file = .ok output := by
  obtain ⟨draws, hdraws, _⟩ := (Draws.sample_ensures (n + 1) w).exists_ok hfed
  obtain ⟨S, proof, _, houtput⟩ := exists_output hp hw pk R h hread hdraws
  exact ⟨_, houtput⟩

/-- A run that gets no draws gives up, and its source has starved it. -/
theorem output_of_no_draws {launch : Launch} (h : launch.Accepts O G n) {path : String}
    {file : Bytes} {set : RowSet} (hread : readRowSet G path file = .ok set)
    (hwidth : rowWidth set.rows = .ok w) {error : Error}
    (hdraws : launch.draws set.rows.length w = .error error) :
    launch.output O G file = .error (.error .samplingExhausted) ∧
      Sampler.Starved launch.source := by
  obtain ⟨engine, houtput⟩ := exists_output_eq h hread hwidth
  rcases launch.draws_cases set.rows.length w with ⟨draws, hok, _⟩ | ⟨hexhausted, hstarved⟩
  · cases hdraws.symm.trans hok
  · refine ⟨?_, hstarved⟩
    rw [houtput, hexhausted]
    rfl

end Launch

end VerifiableMix.CommandLine
