import VerifiableMix.Proofs.CommandLine

/-!
# The output of a mix is the input of the next

A relay is a chain of runs, each over the file that the one before has written.  What a run
writes has the key and the dimensions of what it has read, and its entries are members; so
it is read back, by every run and exactly as it was.  That is what the chain keeps: its
rows are those of the cascade of the witnesses that its runs have drawn, and no run rejects
the file of the run before.

## Main results

* `Launch.exists_read_back` — a run that gets its draws writes what is read back.
* `relay_launches` — a chain of runs hands on the rows of a cascade, if all get draws.
* `relay_reads_back` — both, from any file that is read.
-/

namespace VerifiableMix.CommandLine

open VerifiableMix.Group VerifiableMix.Failure

variable {G : Group} {n w : Nat}

/-- The file after a chain of runs, each over the file of the one before. -/
def relay : List (Bytes → Except Failure Output) → Bytes → Except Failure Bytes
  | [], file => .ok file
  | step :: rest, file => do
    let output ← step file
    relay rest output.rowSet.toBytes

/-- A chain ends with a file, and what is read from that file are the key and the rows of
a cascade. -/
def HandsOn (G : Group) (set : RowSet) (mixes : List (MixWitness n w))
    (outcome : Except Failure Bytes) : Prop :=
  ∃ file rows, outcome = .ok file ∧ cascade G set.publicKey set.rows mixes = .ok rows ∧
    ∀ path, readRowSet G path file = .ok ⟨set.publicKey, rows⟩

/-- The first mix of a chain comes before the others. -/
theorem HandsOn.cons {set : RowSet} {mix : MixWitness n w} {mixes : List (MixWitness n w)}
    {outcome : Except Failure Bytes} {shuffle : Shuffle}
    (hcreate : Shuffle.create G set.rows set.publicKey mix.psi mix.nonces = .ok shuffle)
    (h : HandsOn G ⟨set.publicKey, shuffle.mixed⟩ mixes outcome) :
    HandsOn G set (mix :: mixes) outcome := by
  obtain ⟨file, rows, houtcome, hcascade, hread⟩ := h
  refine ⟨file, rows, houtcome, ?_, hread⟩
  rw [cascade, hcreate, ok_bind]
  exact hcascade

namespace Launch

/-- The run draws the permutation and the nonces of a mix. -/
def Chooses (launch : Launch) (mix : MixWitness n w) : Prop :=
  ∃ coins, launch.draws n w = .ok ⟨mix.psi, mix.nonces, coins⟩

/-- A run that gets its draws chooses a mix. -/
theorem chooses_of_draws {launch : Launch} {draws : Draws}
    (h : launch.draws n w = .ok draws) :
    launch.Chooses (⟨draws.psi, draws.nonces, (fits_of_draws h).size_eq, (fits_of_draws h).rows_eq,
      (fits_of_draws h).cols_eq⟩ : MixWitness n w) :=
  ⟨draws.coins, h⟩

/-- It chooses one mix. -/
theorem Chooses.unique {launch : Launch} {mix mix' : MixWitness n w} (h : launch.Chooses mix)
    (h' : launch.Chooses mix') : mix = mix' := by
  obtain ⟨coins, hdraws⟩ := h
  obtain ⟨coins', hdraws'⟩ := h'
  obtain ⟨psi, nonces, _, _, _⟩ := mix
  obtain ⟨psi', nonces', _, _, _⟩ := mix'
  have hequal := Except.ok.inj (hdraws.symm.trans hdraws')
  obtain rfl : psi = psi' := congrArg Draws.psi hequal
  obtain rfl : nonces = nonces' := congrArg Draws.nonces hequal
  rfl

end Launch

section Members

variable (O : Oracle) (hp : G.p.Prime) (hw : 0 < w) (hfits : RowSet.FitsFile G (n + 1) w)
  (pk : Member G)

include hp hw hfits

/-- A run that gets its draws puts out the rows of its shuffle, and they are read back. -/
theorem Launch.exists_read_back (R : Fin (n + 1) → Fin w → Cipher G) {launch : Launch}
    (h : launch.Accepts O G (n + 1)) {path : String} {file : Bytes}
    (hread : readRowSet G path file = .ok ⟨⟨pk.element⟩, rowSet R⟩) {draws : Draws}
    (hdraws : launch.draws (n + 1) w = .ok draws) :
    ∃ (S : Fin (n + 1) → Fin w → Cipher G) (proof : ShuffleProof),
      Shuffle.create G (rowSet R) ⟨pk.element⟩ draws.psi draws.nonces =
        .ok ⟨rowSet S, draws.nonces, draws.psi⟩ ∧
      launch.output O G file = .ok ⟨⟨⟨pk.element⟩, rowSet S⟩, proof⟩ ∧
      ∀ next, readRowSet G next (RowSet.toBytes ⟨⟨pk.element⟩, rowSet S⟩) =
        .ok ⟨⟨pk.element⟩, rowSet S⟩ := by
  obtain ⟨S, proof, hcreate, houtput⟩ := launch.exists_output hp hw pk R h hread hdraws
  exact ⟨S, proof, hcreate, houtput, readRowSet_rowSet pk S hfits⟩

/-- A chain of runs hands on the rows of the cascade of the mixes that they choose, unless
one of them gets no draws. -/
theorem relay_launches (R : Fin (n + 1) → Fin w → Cipher G) (launches : List Launch)
    (haccepts : ∀ launch ∈ launches, launch.Accepts O G (n + 1)) {path : String} {file : Bytes}
    (hread : readRowSet G path file = .ok ⟨⟨pk.element⟩, rowSet R⟩) :
    (∃ mixes : List (MixWitness (n + 1) w), List.Forall₂ Launch.Chooses launches mixes ∧
      HandsOn G ⟨⟨pk.element⟩, rowSet R⟩ mixes
        (relay (launches.map fun launch => launch.output O G) file)) ∨
      (∃ launch ∈ launches, launch.draws (n + 1) w = .error .samplingExhausted) ∧
        relay (launches.map fun launch => launch.output O G) file =
          .error (.error .samplingExhausted) := by
  induction launches generalizing R path file with
  | nil =>
      exact .inl ⟨[], List.Forall₂.nil, file, rowSet R, rfl, rfl, readRowSet_of_path hread⟩
  | cons launch rest ih =>
      obtain ⟨haccept, haccepts⟩ := List.forall_mem_cons.mp haccepts
      rw [List.map_cons, relay]
      rcases launch.draws_cases (n + 1) w with ⟨draws, hdraws, _⟩ | ⟨hexhausted, _⟩
      · obtain ⟨S, proof, hcreate, houtput, hnext⟩ :=
          Launch.exists_read_back O hp hw hfits pk R haccept hread hdraws
        have hchooses := Launch.chooses_of_draws hdraws
        rw [houtput, ok_bind]
        rcases ih S haccepts (hnext path) with
          ⟨mixes, hmixes, hrest⟩ | ⟨⟨starving, hmem, hdraws'⟩, hrest⟩
        · exact .inl ⟨_, List.Forall₂.cons hchooses hmixes, HandsOn.cons hcreate hrest⟩
        · exact .inr ⟨⟨starving, List.mem_cons_of_mem _ hmem, hdraws'⟩, hrest⟩
      · obtain ⟨houtput, _⟩ := Launch.output_of_no_draws haccept hread (rowWidth_rowSet hw R)
          ((length_rowSet R).symm ▸ hexhausted)
        exact .inr ⟨⟨launch, List.mem_cons_self, hexhausted⟩, by rw [houtput, error_bind]⟩

end Members

/-- A file that is read, with at least one row and all rows of one positive width, can be
mixed: every permutation and nonces with all coins are drawn by some run, a run that gets
its draws reaches its output, and what is written is read back: the key as it was, and the
rows that the shuffle gives, values and widths.  A run that gets no draws gives up, and its
source has starved it.  So it holds along a chain of any length. -/
theorem relay_reads_back (O : Oracle) (hp : G.p.Prime) {path : String} {file : Bytes}
    {set : RowSet} (hread : readRowSet G path file = .ok set) (hne : set.rows ≠ []) (hw : 0 < w)
    (hwidth : ∀ row ∈ set.rows, row.length = w) (hn : set.rows.length = n) :
    (∀ (launch : Launch) (draws : Draws), launch.Accepts O G n → draws.Fits n w →
      ∃ tape, ∀ seed, ({ launch with source := .ofTape tape seed } : Launch).Accepts O G n ∧
        ({ launch with source := .ofTape tape seed } : Launch).draws n w = .ok draws) ∧
    (∀ (launch : Launch) (draws : Draws), launch.Accepts O G n → launch.draws n w = .ok draws →
      ∃ shuffle proof,
        Shuffle.create G set.rows set.publicKey draws.psi draws.nonces = .ok shuffle ∧
        launch.output O G file = .ok ⟨⟨set.publicKey, shuffle.mixed⟩, proof⟩ ∧
        ∀ next, readRowSet G next (RowSet.toBytes ⟨set.publicKey, shuffle.mixed⟩) =
          .ok ⟨set.publicKey, shuffle.mixed⟩) ∧
    (∀ (launch : Launch) (error : Error), launch.Accepts O G n →
      launch.draws n w = .error error →
      launch.output O G file = .error (.error .samplingExhausted) ∧
        Sampler.Starved launch.source) ∧
    (∀ launches : List Launch, (∀ launch ∈ launches, launch.Accepts O G n) →
      (∃ mixes : List (MixWitness n w), List.Forall₂ Launch.Chooses launches mixes ∧
        HandsOn G set mixes (relay (launches.map fun launch => launch.output O G) file)) ∨
      (∃ launch ∈ launches, launch.draws n w = .error .samplingExhausted) ∧
        relay (launches.map fun launch => launch.output O G) file =
          .error (.error .samplingExhausted)) := by
  have hrows := rowWidth_eq_ok_iff.mpr ⟨hne, hw, hwidth⟩
  obtain ⟨m, pk, R, _, hfits, rfl⟩ := exists_rowSet_of_readRowSet hread hrows
  obtain rfl : m + 1 = n := (length_rowSet R).symm.trans hn
  refine ⟨fun launch draws haccepts hdraws => ?_, fun launch draws haccepts hdraws => ?_,
    fun launch error haccepts hdraws => ?_, fun launches haccepts => ?_⟩
  · obtain ⟨tape, htape⟩ := launch.exists_draws hdraws hfits.rows_lt.le
    obtain ⟨hpath, hengine, hgens⟩ := haccepts
    exact ⟨tape, fun seed => ⟨⟨hpath, hengine, hgens⟩, htape seed⟩⟩
  · obtain ⟨S, proof, hcreate, houtput, hnext⟩ :=
      Launch.exists_read_back O hp hw hfits pk R haccepts hread hdraws
    exact ⟨_, proof, hcreate, houtput, hnext⟩
  · exact Launch.output_of_no_draws haccepts hread hrows ((length_rowSet R).symm ▸ hdraws)
  · exact relay_launches O hp hw hfits pk R launches haccepts hread

/-- The program runs twice, over a file whose digits are in upper case and which goes on
after the row set, and both times it draws the swap of the two rows. -/
theorem relay_reads_back_twice :
    let set : RowSet := ⟨⟨Group.test.generator⟩, testRows⟩
    let file := set.toBytes.map (fun code => if code = 97 then 65 else code) ++ [7]
    let swap : MixWitness 2 1 :=
      ⟨⟨2, #v[1, 0], #v[1, 0], by decide, by decide⟩, ⟨2, 1, #v[3, 5]⟩, rfl, rfl, rfl⟩
    let draws : Draws :=
      ⟨swap.psi, swap.nonces, ⟨[1, 2], [3, 4], 5, [6, 7], 8, 9, [10, 11], [12]⟩⟩
    let tape : Bytes := Bytes.ofNatLE 8 0 ++
      [3, 5, 1, 2, 3, 4, 5, 6, 7, 8, 9, 10, 11, 12].flatMap (Bytes.ofNatBE 48)
    let launch : Launch :=
      ⟨{ cores := some 8 }, ⟨none, some " windowed "⟩,
        ⟨"mix", 1, 2, some "Shuffled.bin", ".", none, none, .test⟩, .ofTape tape []⟩
    let step := fun file => ((run Oracle.standard launch.machine launch.environment launch.options
      (some file)).run.run launch.source).1
    file.take set.toBytes.length ≠ set.toBytes ∧
    readRowSet Group.test "Shuffled.bin" file = .ok set ∧
    launch.draws 2 1 = .ok draws ∧
    (∃ shuffle proof,
      Shuffle.create Group.test set.rows set.publicKey swap.psi swap.nonces = .ok shuffle ∧
      step file = .ok ⟨⟨set.publicKey, shuffle.mixed⟩, proof⟩) ∧
    HandsOn Group.test set [swap, swap] (relay [step, step] file) := by
  intro set file swap draws tape launch step
  obtain ⟨gens, hgens⟩ := Generators.exists_deriveAll_test
  have hread : readRowSet Group.test "Shuffled.bin" file = .ok set := by decide +kernel
  have hdraws : launch.draws 2 1 = .ok draws := by decide +kernel
  have hengine : startEngine launch.machine launch.environment launch.options =
      .ok ⟨6, .windowed, 0⟩ := by decide +kernel
  have haccepts : launch.Accepts Oracle.standard Group.test 2 :=
    ⟨⟨_, rfl⟩, ⟨_, hengine⟩, gens, hgens⟩
  obtain ⟨_, houtput, _, hrelay⟩ := relay_reads_back Oracle.standard prime_testModulus hread
    (List.cons_ne_nil _ _) Nat.one_pos length_of_mem_testRows (Eq.refl 2)
  obtain ⟨shuffle, proof, hcreate, hstep, _⟩ := houtput launch draws haccepts hdraws
  refine ⟨by decide +kernel, hread, hdraws, ⟨shuffle, proof, hcreate, hstep⟩, ?_⟩
  have hchooses : launch.Chooses swap := ⟨draws.coins, hdraws⟩
  rcases hrelay [launch, launch] fun _ h => (List.mem_pair.mp h).elim (· ▸ haccepts) (· ▸ haccepts)
    with ⟨mixes, hmixes, hhands⟩ | ⟨⟨starving, hmem, hstarved⟩, _⟩
  · obtain ⟨first, rest, hfirst, hrest, rfl⟩ := List.forall₂_cons_left_iff.mp hmixes
    obtain ⟨second, rest, hsecond, hnil, rfl⟩ := List.forall₂_cons_left_iff.mp hrest
    obtain rfl := List.forall₂_nil_left_iff.mp hnil
    obtain rfl := hfirst.unique hchooses
    obtain rfl := hsecond.unique hchooses
    exact hhands
  · obtain rfl | rfl := List.mem_pair.mp hmem
    · cases hstarved.symm.trans hdraws
    · cases hstarved.symm.trans hdraws

end VerifiableMix.CommandLine
