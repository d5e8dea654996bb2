import VerifiableMix.Proofs.Random.Even

/-!
# Tapes

A sampler *gives* a value for a tape when it takes the tape, and nothing behind it, from
every source that begins with the tape, and returns the value.  The tape of a sequence is
made of the tapes of its steps, one behind the other, so draws can be planned: every
scalar has a tape, and every number below a bound has one, as there are words that stand
for it.

## Main results

* `Gives.bind` — the rule for sequences.
* `scalar_gives`, `exists_scalars_gives`, `exists_matrix_gives` — all scalars can be drawn.
* `exists_below_gives` — all numbers below a bound can be drawn.
-/

namespace VerifiableMix.Sampler

variable {α β : Type}

/-- The sampler takes the tape from a source that begins with it, and returns the value. -/
def Gives (x : Sampler α) (tape : Bytes) (a : α) : Prop :=
  ∀ more state, x.run.run ⟨tape ++ more, state⟩ = (.ok a, ⟨more, state⟩)

theorem Gives.pure (a : α) : Gives (Pure.pure a) [] a :=
  fun _ _ => rfl

theorem Gives.lift {x : Except Error α} {a : α} (hx : x = .ok a) : Gives (liftM x) [] a := by
  rw [hx, liftM_ok]
  exact .pure a

/-- The tape of a sequence: the second step takes what stands behind the tape of the
first. -/
theorem Gives.bind {x : Sampler α} {f : α → Sampler β} {tape tape' : Bytes} {a : α} {b : β}
    (hx : Gives x tape a) (hf : Gives (f a) tape' b) : Gives (x >>= f) (tape ++ tape') b := by
  intro more state
  rw [run_bind, List.append_assoc, hx]
  exact hf more state

theorem Gives.map {x : Sampler α} {tape : Bytes} {a : α} (hx : Gives x tape a) (f : α → β) :
    Gives (do return f (← x)) tape (f a) := by
  intro more state
  rw [run_bind, hx]
  rfl

/-- A sampler returns what it gives for the tape that its source begins with. -/
theorem Gives.run_ofTape {x : Sampler α} {tape : Bytes} {a : α} (h : Gives x tape a)
    (seed : Bytes) : (x.run.run (ByteSource.ofTape tape seed)).1 = .ok a := by
  have hrun := h [] (Shake.absorb seed)
  rw [List.append_nil] at hrun
  exact congrArg Prod.fst hrun

theorem bytes_gives (tape : Bytes) : Gives (bytes tape.length) tape tape := by
  intro more state
  have htake : ByteSource.take ⟨tape ++ more, state⟩ tape.length = (tape, ⟨more, state⟩) := by
    simp [ByteSource.take, Shake.blockCount, Shake.blocks, Shake.rate]
  show ((Except.ok (ByteSource.take ⟨tape ++ more, state⟩ tape.length).1 : Except Error Bytes),
    (ByteSource.take ⟨tape ++ more, state⟩ tape.length).2) = _
  rw [htake]

/-! ## Scalars -/

/-- The tape of a scalar is its form at the width of a draw. -/
theorem scalar_gives (x : Scalar) : Gives scalar (Bytes.ofNatBE scalarDrawWidth x.val) x := by
  have hbytes := bytes_gives (Bytes.ofNatBE scalarDrawWidth x.val)
  rw [Bytes.length_ofNatBE] at hbytes
  have hwide : x.val < 256 ^ scalarDrawWidth := Nat.lt_trans x.isLt (by decide)
  have hvalue : Scalar.ofBytesWide (Bytes.ofNatBE scalarDrawWidth x.val) = x := by
    rw [Scalar.ofBytesWide, Bytes.toNatBE_ofNatBE, Nat.mod_eq_of_lt hwide, Scalar.ofNat_val]
  have hdraw : Gives scalar _ _ := hbytes.map Scalar.ofBytesWide
  rwa [hvalue] at hdraw

theorem exists_scalarArray_gives {n : Nat} (xs : Vector Scalar n) :
    ∃ tape, Gives (scalarArray n) tape xs := by
  induction n with
  | zero =>
      obtain rfl : xs = #v[] := Vector.eq_empty
      exact ⟨[], Gives.pure _⟩
  | succ n ih =>
      obtain ⟨tape, htape⟩ := ih xs.pop
      have hpush : xs.pop.push xs.back = xs := Vector.push_pop_back xs
      rw [← hpush]
      exact ⟨_, htape.bind ((scalar_gives xs.back).bind (Gives.pure _))⟩

theorem exists_scalars_gives {n : Nat} {xs : ScalarVector} (hlength : xs.length = n) :
    ∃ tape, Gives (scalars n) tape xs := by
  subst hlength
  obtain ⟨tape, htape⟩ := exists_scalarArray_gives (⟨xs.toArray, rfl⟩ : Vector Scalar xs.length)
  exact ⟨tape, htape.map Vector.toList⟩

theorem exists_matrix_gives (m : ScalarMatrix) : ∃ tape, Gives (matrix m.rows m.cols) tape m := by
  obtain ⟨tape, htape⟩ := exists_scalarArray_gives m.entries
  exact ⟨tape, htape.map (ScalarMatrix.mk m.rows m.cols)⟩

/-! ## Numbers below a bound -/

/-- The tape of a word is its form, least significant byte first. -/
theorem word_gives {w : Nat} (hw : w < UInt64.size) : Gives word (Bytes.ofNatLE 8 w) w := by
  have hbytes := bytes_gives (Bytes.ofNatLE 8 w)
  rw [Bytes.length_ofNatLE] at hbytes
  have hvalue : Bytes.toNatLE (Bytes.ofNatLE 8 w) = w := by
    rw [Bytes.toNatLE_ofNatLE]
    exact Nat.mod_eq_of_lt hw
  have hdraw : Gives word _ _ := hbytes.map Bytes.toNatLE
  rwa [hvalue] at hdraw

/-- A draw whose first answer is accepted returns it, if it has an attempt. -/
theorem firstAccepted_gives {draw : Sampler (Option α)} {tape : Bytes} {a : α}
    (h : Gives draw tape (some a)) {attempts : Nat} (hattempts : 0 < attempts) :
    Gives (firstAccepted draw attempts) tape a := fun more state =>
  firstAccepted_eq_ok_iff.mpr ⟨0, hattempts, _, .start _, h more state⟩

/-- Every number below the bound can be drawn. -/
theorem exists_below_gives {bound value : Nat} (hbound : bound ≤ UInt64.size)
    (hvalue : value < bound) : ∃ tape, Gives (below bound) tape value := by
  have hwords : (wordsOf bound value).Nonempty := by
    rw [← Finset.card_pos, card_words hbound hvalue]
    exact Nat.two_pow_pos _
  obtain ⟨w, hw⟩ := hwords
  obtain ⟨hrange, hstands⟩ := Finset.mem_filter.mp hw
  have hdraw : Gives (scaledWord bound) _ _ :=
    (word_gives (Finset.mem_range.mp hrange)).map (scaleWord? bound)
  rw [hstands] at hdraw
  exact ⟨_, firstAccepted_gives hdraw (by decide)⟩

end VerifiableMix.Sampler
