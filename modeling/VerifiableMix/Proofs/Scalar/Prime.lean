import Mathlib.FieldTheory.Finite.Basic
import Mathlib.NumberTheory.LucasPrimality
import Mathlib.Tactic.NormNum.Prime
import VerifiableMix.Group.Builtin
import VerifiableMix.PowMod.Lemmas
import VerifiableMix.Scalar

/-!
# The order is prime

A number `n` is prime when some `F` with `n < F * F` divides `d - 1` for every
prime divisor `d` of `n`: the least of them would be at most the root of `n`.
For a prime `ℓ` this divisibility follows from a `c` whose power `ℓ` is one
modulo `n` and for which `c - 1` is prime to `n`, since `c` then has order `ℓ`
modulo every `d`.  A power of two serves as `c`, and the powers are computed.

One large factor of `q - 1` settles the order, two factors settle that one in
turn, and `q` settles the modulus of a group, if it is below `q * q`.

## Main results

* `Scalar.prime_order` — the order is prime.
* `Group.prime_modulus` — a small modulus is prime.
-/

namespace VerifiableMix

namespace Primality

/-- Every prime divisor of `n` is one modulo `F`. -/
def Fixes (n F : Nat) : Prop :=
  ∀ d, d.Prime → d ∣ n → F ∣ d - 1

/-- An element of prime order modulo `n` fixes the prime divisors of `n`. -/
theorem fixes_of_order {n l : Nat} (c : Nat) (hl : l.Prime) (hone : 1 < n)
    (hpow : powMod c l n = 1) (hgcd : Nat.gcd (c - 1) n = 1) : Fixes n l := by
  intro d hd hdn
  have : Fact d.Prime := ⟨hd⟩
  have : Fact l.Prime := ⟨hl⟩
  have hc : 1 ≤ c := by
    rcases Nat.eq_zero_or_pos c with rfl | hpos
    · rw [powMod_eq, Nat.zero_pow hl.pos, Nat.zero_mod] at hpow
      omega
    · exact hpos
  have hroot : (c : ZMod d) ^ l = 1 := by
    have hmod : c ^ l ≡ 1 [MOD n] := by
      rw [Nat.ModEq, ← powMod_eq, hpow, Nat.mod_eq_of_lt hone]
    have hcast := (ZMod.natCast_eq_natCast_iff _ _ _).mpr (hmod.of_dvd hdn)
    simpa using hcast
  have hne : (c : ZMod d) ≠ 1 := by
    intro h
    have hzero : ((c - 1 : Nat) : ZMod d) = 0 := by
      rw [Nat.cast_sub hc, h, Nat.cast_one, sub_self]
    have hdvd : d ∣ c - 1 := (ZMod.natCast_eq_zero_iff _ _).mp hzero
    have hunit : d ∣ 1 := hgcd ▸ Nat.dvd_gcd hdvd hdn
    exact hd.one_lt.ne' (Nat.dvd_one.mp hunit)
  have horder : orderOf (c : ZMod d) = l := orderOf_eq_prime hroot hne
  have hcne : (c : ZMod d) ≠ 0 := by
    intro h
    rw [h, zero_pow hl.ne_zero] at hroot
    exact zero_ne_one hroot
  rw [← horder]
  exact orderOf_dvd_of_pow_eq_one (ZMod.pow_card_sub_one_eq_one hcne)

theorem Fixes.mul {n F F' : Nat} (h : Fixes n F) (h' : Fixes n F') (hcoprime : F.Coprime F') :
    Fixes n (F * F') :=
  fun d hd hdn => hcoprime.mul_dvd_of_dvd_of_dvd (h d hd hdn) (h' d hd hdn)

/-- A number is prime when its prime divisors leave no room for a second one. -/
theorem prime_of_fixes {n F : Nat} (h : Fixes n F) (hone : 1 < n) (hF : n < F * F) :
    n.Prime := by
  by_contra hn
  have hminFac : n.minFac.Prime := Nat.minFac_prime (by omega)
  have hsq : n.minFac ^ 2 ≤ n := Nat.minFac_sq_le_self (by omega) hn
  have hgt : 1 < n.minFac := hminFac.one_lt
  have hle : F ≤ n.minFac - 1 := Nat.le_of_dvd (by omega) (h _ hminFac n.minFac_dvd)
  have hF' : F * F ≤ n.minFac * n.minFac := Nat.mul_le_mul (by omega) (by omega)
  rw [Nat.pow_two] at hsq
  omega

end Primality

open Primality

namespace Scalar

/-- A prime factor of `q - 1` above the root of `q`. -/
def orderFactor : Nat := 440208639276132997491800604758226661590679912188273141493

/-- The largest prime factor of `orderFactor - 1`. -/
def largeFactor : Nat := 14220365526706201077871

/-- A further prime factor of `orderFactor - 1`. -/
def smallFactor : Nat := 1219974856409

theorem prime_smallFactor : smallFactor.Prime := by
  have hone : 1 < smallFactor := by decide
  have h1 : Fixes smallFactor 526583 :=
    fixes_of_order (powMod 2 2316776 smallFactor) (by norm_num) hone (by decide +kernel)
      (by decide +kernel)
  have h2 : Fixes smallFactor 11 :=
    fixes_of_order (powMod 2 110906805128 smallFactor) (by norm_num) hone (by decide +kernel)
      (by decide +kernel)
  exact prime_of_fixes (h1.mul h2 (by norm_num)) hone (by decide +kernel)

theorem prime_largeFactor : largeFactor.Prime := by
  have hone : 1 < largeFactor := by decide
  have h1 : Fixes largeFactor 973591 :=
    fixes_of_order (powMod 2 14606097967941570 largeFactor) (by norm_num) hone
      (by decide +kernel) (by decide +kernel)
  have h2 : Fixes largeFactor 87881 :=
    fixes_of_order (powMod 2 161813879299350270 largeFactor) (by norm_num) hone
      (by decide +kernel) (by decide +kernel)
  have h3 : Fixes largeFactor 23 :=
    fixes_of_order (powMod 2 618276762030704394690 largeFactor) (by norm_num) hone
      (by decide +kernel) (by decide +kernel)
  exact prime_of_fixes ((h1.mul h2 (by norm_num)).mul h3 (by norm_num)) hone (by decide +kernel)

theorem prime_orderFactor : orderFactor.Prime := by
  have hone : 1 < orderFactor := by decide
  have h1 : Fixes orderFactor largeFactor :=
    fixes_of_order (powMod 2 30956211248537190923771565635058252 orderFactor) prime_largeFactor
      hone (by decide +kernel) (by decide +kernel)
  have h2 : Fixes orderFactor smallFactor :=
    fixes_of_order (powMod 2 360834190117564040790129950084039692705197588 orderFactor)
      prime_smallFactor hone (by decide +kernel) (by decide +kernel)
  exact prime_of_fixes (h1.mul h2 (by decide +kernel)) hone (by decide +kernel)

/-- The order is prime. -/
theorem prime_order : order.Prime := by
  have hone : 1 < order := by decide
  have h : Fixes order orderFactor :=
    fixes_of_order (powMod 2 263039111244435203322 order) prime_orderFactor hone
      (by decide +kernel) (by decide +kernel)
  exact prime_of_fixes h hone (by decide +kernel)

end Scalar

namespace Group

/-- A modulus below `q * q` is prime when `g - 1` is prime to it. -/
theorem prime_modulus (G : Group) (hlt : G.p < Scalar.order * Scalar.order)
    (hgcd : Nat.gcd (G.g - 1) G.p = 1) : G.p.Prime :=
  prime_of_fixes (fixes_of_order G.g Scalar.prime_order G.one_lt_p G.g_pow_order hgcd)
    G.one_lt_p hlt

/-- The modulus of the 512-bit group is prime. -/
theorem prime_testModulus : test.p.Prime :=
  test.prime_modulus (by decide +kernel) (by decide +kernel)

end Group

end VerifiableMix
