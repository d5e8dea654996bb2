import VerifiableMix.Bytes.Lemmas
import VerifiableMix.Random.Sampler

/-!
# What a sampler ensures

A draw is a function of the byte source.  A rejecting draw gives the first answer that is
accepted, and gives up when all its attempts are rejected; then the source has *starved*
it.  A sampler *ensures* a property when from every source it gives a value with the
property, unless the source starves a draw; no other error is possible.

## Main results

* `firstAccepted_eq_ok_iff`, `firstAccepted_of_rejects` — when a rejecting draw returns,
  and when it gives up.
* `Ensures.bind` — the rule for sequences.
* `Ensures.exists_ok` — from a source that does not starve it, a sampler returns.
* `scalars_ensures`, `matrix_ensures` — draws have the shape that was asked for.
* `below_ensures` — a number that is drawn lies below the bound.
-/

namespace VerifiableMix

/-! ## Sources -/

/-- What remains of a source after bytes were taken, any number of times. -/
inductive ByteSource.Reaches : ByteSource → ByteSource → Prop
  | refl (source : ByteSource) : Reaches source source
  | take {source rest : ByteSource} (n : Nat) (h : Reaches (source.take n).2 rest) :
      Reaches source rest

theorem ByteSource.Reaches.trans {source next rest : ByteSource} (h : source.Reaches next)
    (hnext : next.Reaches rest) : source.Reaches rest := by
  induction h with
  | refl => exact hnext
  | take n _ ih => exact .take n (ih hnext)

namespace Sampler

variable {α β : Type}

theorem run_bind (x : Sampler α) (f : α → Sampler β) (source : ByteSource) :
    (x >>= f).run.run source =
      match x.run.run source with
      | (.ok a, rest) => (f a).run.run rest
      | (.error e, rest) => (.error e, rest) := by
  show (match x.run.run source with
    | (result, rest) => (ExceptT.bindCont f result).run rest) = _
  generalize x.run.run source = outcome
  obtain ⟨result, rest⟩ := outcome
  cases result <;> rfl

/-- A computation that succeeds draws nothing. -/
theorem liftM_ok (a : α) : (liftM (Except.ok a : Except Error α) : Sampler α) = Pure.pure a := rfl

theorem run_liftM_ok (a : α) (source : ByteSource) :
    (liftM (Except.ok a : Except Error α) : Sampler α).run.run source = (.ok a, source) := rfl

/-! ## Attempts -/

/-- So many attempts of a draw are rejected, from a source to what remains of it. -/
inductive Rejects (draw : Sampler (Option α)) : Nat → ByteSource → ByteSource → Prop
  | start (source : ByteSource) : Rejects draw 0 source source
  | again {k : Nat} {source next rest : ByteSource}
      (hdraw : draw.run.run source = (.ok none, next)) (h : Rejects draw k next rest) :
      Rejects draw (k + 1) source rest

/-- One attempt decides, or the others go on behind it. -/
theorem run_firstAccepted_succ (draw : Sampler (Option α)) (attempts : Nat)
    (source : ByteSource) :
    (firstAccepted draw (attempts + 1)).run.run source =
      match draw.run.run source with
      | (.ok (some a), rest) => (.ok a, rest)
      | (.ok none, rest) => (firstAccepted draw attempts).run.run rest
      | (.error e, rest) => (.error e, rest) := by
  rw [firstAccepted, run_bind]
  generalize draw.run.run source = outcome
  obtain ⟨result, rest⟩ := outcome
  cases result with
  | error e => rfl
  | ok answer => cases answer <;> rfl

/-- Attempts that are rejected leave the others to decide. -/
theorem firstAccepted_of_rejects {draw : Sampler (Option α)} {k : Nat}
    {source rest : ByteSource} (h : Rejects draw k source rest) (attempts : Nat) :
    (firstAccepted draw (attempts + k)).run.run source =
      (firstAccepted draw attempts).run.run rest := by
  induction h with
  | start => rfl
  | again hdraw _ ih => rw [← Nat.add_assoc, run_firstAccepted_succ, hdraw, ← ih]

/-- A rejecting draw gives the first answer that is accepted, if there is one within its
attempts. -/
theorem firstAccepted_eq_ok_iff {draw : Sampler (Option α)} {attempts : Nat}
    {source last : ByteSource} {a : α} :
    (firstAccepted draw attempts).run.run source = (.ok a, last) ↔
      ∃ k < attempts, ∃ rest, Rejects draw k source rest ∧
        draw.run.run rest = (.ok (some a), last) := by
  constructor
  · intro h
    induction attempts generalizing source with
    | zero => cases h
    | succ attempts ih =>
        rw [run_firstAccepted_succ] at h
        generalize hdraw : draw.run.run source = outcome at h
        obtain ⟨result, next⟩ := outcome
        cases result with
        | error e => cases h
        | ok answer =>
            cases answer with
            | some value =>
                cases h
                exact ⟨0, Nat.succ_pos _, source, .start source, hdraw⟩
            | none =>
                obtain ⟨k, hk, rest, hrejects, haccepted⟩ := ih h
                exact ⟨k + 1, Nat.succ_lt_succ hk, rest, .again hdraw hrejects, haccepted⟩
  · rintro ⟨k, hk, rest, hrejects, haccepted⟩
    obtain ⟨more, rfl⟩ := Nat.exists_eq_add_of_lt hk
    rw [show k + more + 1 = more + 1 + k by omega, firstAccepted_of_rejects hrejects,
      run_firstAccepted_succ, haccepted]

/-- A draw that never fails is accepted within its attempts, or all of them are rejected. -/
theorem exists_accepted_or_rejects {draw : Sampler (Option α)}
    (hdraw : ∀ source, ∃ answer rest, draw.run.run source = (.ok answer, rest))
    (attempts : Nat) (source : ByteSource) :
    (∃ k < attempts, ∃ rest, Rejects draw k source rest ∧
      ∃ a last, draw.run.run rest = (.ok (some a), last)) ∨
      ∃ rest, Rejects draw attempts source rest := by
  induction attempts generalizing source with
  | zero => exact .inr ⟨source, .start source⟩
  | succ attempts ih =>
      obtain ⟨answer, next, hnext⟩ := hdraw source
      cases answer with
      | some a => exact .inl ⟨0, Nat.succ_pos _, source, .start source, a, next, hnext⟩
      | none =>
          rcases ih next with ⟨k, hk, rest, hrejects, haccepted⟩ | ⟨rest, hrejects⟩
          · exact .inl ⟨k + 1, Nat.succ_lt_succ hk, rest, .again hnext hrejects, haccepted⟩
          · exact .inr ⟨rest, .again hnext hrejects⟩

/-- Somewhere in the source, all attempts to draw a number below a bound are rejected. -/
def Starved (source : ByteSource) : Prop :=
  ∃ bound start rest, 0 < bound ∧ source.Reaches start ∧
    Rejects (scaledWord bound) attemptLimit start rest

theorem Starved.of_reaches {source next : ByteSource} (h : source.Reaches next)
    (hstarved : Starved next) : Starved source := by
  obtain ⟨bound, start, rest, hpos, hstart, hrejects⟩ := hstarved
  exact ⟨bound, start, rest, hpos, h.trans hstart, hrejects⟩

/-! ## Values that a sampler gives -/

/-- From every source the sampler gives a value with the property, or the source starves
it. -/
def Ensures (x : Sampler α) (post : α → Prop) : Prop :=
  ∀ source, (∃ a rest, x.run.run source = (.ok a, rest) ∧ source.Reaches rest ∧ post a) ∨
    (∃ rest, x.run.run source = (.error .samplingExhausted, rest)) ∧ Starved source

theorem Ensures.pure {a : α} {post : α → Prop} (h : post a) :
    Ensures (Pure.pure a : Sampler α) post :=
  fun source => .inl ⟨a, source, rfl, .refl source, h⟩

theorem Ensures.lift {x : Except Error α} {a : α} {post : α → Prop} (hx : x = .ok a)
    (h : post a) : Ensures (liftM x : Sampler α) post := by
  rw [hx, liftM_ok]
  exact .pure h

/-- What follows a sampler may rely on what the sampler ensures. -/
theorem Ensures.bind {x : Sampler α} {f : α → Sampler β} {mid : α → Prop} {post : β → Prop}
    (hx : Ensures x mid) (hf : ∀ a, mid a → Ensures (f a) post) : Ensures (x >>= f) post := by
  intro source
  rw [run_bind]
  rcases hx source with ⟨a, next, ha, hreaches, hmid⟩ | ⟨⟨next, herror⟩, hstarved⟩
  · rw [ha]
    rcases hf a hmid next with ⟨b, rest, hb, hrest, hpost⟩ | ⟨⟨rest, herror⟩, hstarved⟩
    · exact .inl ⟨b, rest, hb, hreaches.trans hrest, hpost⟩
    · exact .inr ⟨⟨rest, herror⟩, hstarved.of_reaches hreaches⟩
  · rw [herror]
    exact .inr ⟨⟨next, rfl⟩, hstarved⟩

/-- What follows a sampler matters only for the values that the sampler ensures. -/
theorem Ensures.bind_congr {x : Sampler α} {f g : α → Sampler β} {mid : α → Prop}
    (hx : Ensures x mid) (h : ∀ a, mid a → f a = g a) : x >>= f = x >>= g := by
  refine funext fun source => ?_
  show (x >>= f).run.run source = (x >>= g).run.run source
  rw [run_bind, run_bind]
  rcases hx source with ⟨a, next, ha, _, hmid⟩ | ⟨⟨next, herror⟩, _⟩
  · rw [ha]
    exact congrArg (fun y : Sampler β => y.run.run next) (h a hmid)
  · rw [herror]

/-- The outcome of a sampler: a value with the property, or the draws give up. -/
theorem Ensures.ok_or_exhausted {x : Sampler α} {post : α → Prop} (hx : Ensures x post)
    (source : ByteSource) :
    (∃ a, (x.run.run source).1 = .ok a ∧ post a) ∨
      (x.run.run source).1 = .error .samplingExhausted := by
  rcases hx source with ⟨a, rest, ha, _, hpost⟩ | ⟨⟨rest, herror⟩, _⟩
  · exact .inl ⟨a, by rw [ha], hpost⟩
  · exact .inr (by rw [herror])

/-- From a source that does not starve it, a sampler returns. -/
theorem Ensures.exists_ok {x : Sampler α} {post : α → Prop} (hx : Ensures x post)
    {source : ByteSource} (hfed : ¬Starved source) :
    ∃ a, (x.run.run source).1 = .ok a ∧ post a := by
  rcases hx source with ⟨a, rest, ha, _, hpost⟩ | ⟨_, hstarved⟩
  · exact ⟨a, by rw [ha], hpost⟩
  · exact absurd hstarved hfed

/-- No more bytes are drawn than are asked for. -/
theorem bytes_ensures (n : Nat) : Ensures (bytes n) fun bytes => bytes.length ≤ n :=
  fun source => .inl ⟨(source.take n).1, (source.take n).2, rfl, .take n (.refl _),
    List.length_take_le _ _⟩

/-! ## Scalars -/

theorem scalar_ensures : Ensures scalar fun _ => True :=
  (bytes_ensures scalarDrawWidth).bind fun _ _ => Ensures.pure trivial

theorem scalarArray_ensures (n : Nat) : Ensures (scalarArray n) fun _ => True := by
  induction n with
  | zero => exact Ensures.pure trivial
  | succ n ih =>
      exact ih.bind fun _ _ => scalar_ensures.bind fun _ _ => Ensures.pure trivial

theorem scalars_ensures (n : Nat) : Ensures (scalars n) fun xs => xs.length = n :=
  (scalarArray_ensures n).bind fun front _ => Ensures.pure front.length_toList

theorem matrix_ensures (rows cols : Nat) :
    Ensures (matrix rows cols) fun m => m.rows = rows ∧ m.cols = cols :=
  (scalarArray_ensures (rows * cols)).bind fun _ _ => Ensures.pure ⟨rfl, rfl⟩

/-! ## Numbers below a bound -/

theorem word_ensures : Ensures word fun word => word < UInt64.size := by
  refine (bytes_ensures 8).bind fun bytes hbytes => Ensures.pure ?_
  calc Bytes.toNatLE bytes < 256 ^ bytes.length := Bytes.toNatLE_lt bytes
    _ ≤ 256 ^ 8 := Nat.pow_le_pow_right (by decide) hbytes

/-- A word that is scaled by a bound stays below the bound. -/
theorem lt_of_scaleWord? {bound word value : Nat} (hpos : 0 < bound) (hword : word < UInt64.size)
    (h : scaleWord? bound word = some value) : value < bound := by
  have hvalue : word * bound / UInt64.size = value := by
    simp only [scaleWord?] at h
    split at h
    · exact Option.some.inj h
    · cases h
  rw [← hvalue]
  exact Nat.div_lt_of_lt_mul (Nat.mul_lt_mul_of_pos_right hword hpos)

theorem run_scaledWord (bound : Nat) (source : ByteSource) :
    (scaledWord bound).run.run source =
      (.ok (scaleWord? bound (Bytes.toNatLE (source.take 8).1)), (source.take 8).2) := rfl

theorem reaches_of_rejects {bound k : Nat} {source rest : ByteSource}
    (h : Rejects (scaledWord bound) k source rest) : source.Reaches rest := by
  induction h with
  | start source => exact .refl source
  | again hdraw _ ih =>
      obtain rfl := congrArg Prod.snd ((run_scaledWord bound _).symm.trans hdraw)
      exact .take 8 ih

theorem scaledWord_ensures {bound : Nat} (hpos : 0 < bound) :
    Ensures (scaledWord bound) fun answer => ∀ value, answer = some value → value < bound :=
  word_ensures.bind fun _ hword => Ensures.pure fun _ => lt_of_scaleWord? hpos hword

/-- A number that is drawn lies below the bound. -/
theorem below_ensures {bound : Nat} (hpos : 0 < bound) :
    Ensures (below bound) fun value => value < bound := by
  intro source
  rcases exists_accepted_or_rejects (fun source => ⟨_, _, run_scaledWord bound source⟩)
    attemptLimit source with ⟨k, hk, rest, hrejects, value, last, hvalue⟩ | ⟨rest, hrejects⟩
  · have hrun : (below bound).run.run source = (.ok value, last) :=
      firstAccepted_eq_ok_iff.mpr ⟨k, hk, rest, hrejects, hvalue⟩
    rcases scaledWord_ensures hpos rest with ⟨answer, _, hanswer, hlast, hlt⟩ | ⟨⟨_, herror⟩, _⟩
    · rw [hvalue] at hanswer
      cases hanswer
      exact .inl ⟨value, last, hrun, (reaches_of_rejects hrejects).trans hlast, hlt value rfl⟩
    · rw [hvalue] at herror
      cases herror
  · have hrun := firstAccepted_of_rejects hrejects 0
    rw [Nat.zero_add] at hrun
    exact .inr ⟨⟨rest, hrun⟩, bound, source, rest, hpos, .refl source, hrejects⟩

end Sampler

end VerifiableMix
