import Mathlib.Algebra.BigOperators.ModEq
import Mathlib.Data.Nat.Factorization.Basic
import Mathlib.NumberTheory.Multiplicity
import Mathlib.RingTheory.Coprime.Lemmas
import Mathlib.Tactic.LinearCombination
import Catbench.Framework.CycleMap

/-! # The Hull-Dobell theorem

    The linear congruential map `x ↦ (a * x + c) mod m` runs through
    `[0, m)` in a single cycle when

    * `c` is coprime with `m`,
    * `a - 1` is divisible by every prime factor of `m`, and
    * `a - 1` is divisible by 4 if `m` is.

    The proof looks at two equal iterates `d` steps apart.  Their difference
    is `S_d * ((a - 1) * y + c)` with `S_d = 1 + a + ... + a ^ (d - 1)`; the
    second factor is a unit modulo `m`, so `m` divides `S_d`, and by lifting
    the exponent at each prime of `m` the sum `S_d` has exactly the divisors
    that `d` has.  Of the converse, only the part that `c` must be coprime
    with `m` is needed and shown.
-/

open Finset

namespace Lcg

/-! ## Section 1: The map and its iterates -/

/-- One step of the linear congruential map. -/
def step (a c m x : ℕ) : ℕ := (a * x + c) % m

theorem step_lt (a c x : ℕ) {m : ℕ} (hm : 0 < m) : step a c m x < m :=
  Nat.mod_lt _ hm

/-- Closed form of the iterates, modulo `m`. -/
theorem iterate_step_modEq (a c m x d : ℕ) :
    (step a c m)^[d] x ≡ a ^ d * x + c * ∑ i ∈ range d, a ^ i [MOD m] := by
  induction d with
  | zero => simp [Nat.ModEq]
  | succ d ih =>
    rw [Function.iterate_succ_apply', step]
    calc (a * (step a c m)^[d] x + c) % m
        ≡ a * (step a c m)^[d] x + c [MOD m] := Nat.mod_modEq _ _
      _ ≡ a * (a ^ d * x + c * ∑ i ∈ range d, a ^ i) + c [MOD m] := (ih.mul_left a).add_right c
      _ = a ^ (d + 1) * x + c * ∑ i ∈ range (d + 1), a ^ i := by
        rw [sum_range_succ', pow_succ]
        simp only [pow_succ', ← mul_sum]
        ring

/-! ## Section 2: Lifting the exponent at the geometric sum -/

/-- At an odd prime dividing `a - 1`, the geometric sum has the multiplicity
    of its number of terms. -/
theorem emultiplicity_geomSum_odd {a p : ℕ} (hp : p.Prime) (hodd : Odd p)
    (ha : (p : ℤ) ∣ (a : ℤ) - 1) (ha1 : a ≠ 1) (d : ℕ) :
    emultiplicity (p : ℤ) (∑ i ∈ range d, (a : ℤ) ^ i) = emultiplicity p d := by
  have hpz : Prime (p : ℤ) := Nat.prime_iff_prime_int.mp hp
  have hndvd : ¬ (p : ℤ) ∣ a := by
    intro h
    have h1 : (p : ℤ) ∣ 1 := by simpa using dvd_sub h ha
    exact hpz.not_dvd_one h1
  have hlte := Int.emultiplicity_pow_sub_pow hp hodd ha hndvd d
  rw [one_pow, ← geom_sum_mul, emultiplicity_mul hpz, add_comm] at hlte
  have hne : (a : ℤ) - 1 ≠ 0 := by
    intro h
    exact ha1 (by omega)
  have hfin : FiniteMultiplicity (p : ℤ) ((a : ℤ) - 1) :=
    Int.finiteMultiplicity_iff.mpr ⟨by simpa using hp.ne_one, hne⟩
  exact ENat.add_right_injective_of_ne_top
    (finiteMultiplicity_iff_emultiplicity_ne_top.mp hfin) hlte

/-- At the prime 2 the same holds once 4 divides `a - 1`. -/
theorem emultiplicity_geomSum_two {a : ℕ} (ha : (4 : ℤ) ∣ (a : ℤ) - 1) (ha1 : a ≠ 1) (d : ℕ) :
    emultiplicity (2 : ℤ) (∑ i ∈ range d, (a : ℤ) ^ i) = emultiplicity (2 : ℤ) d := by
  have hndvd : ¬ (2 : ℤ) ∣ a := by omega
  have hlte := Int.two_pow_sub_pow' d ha hndvd
  rw [one_pow, ← geom_sum_mul, emultiplicity_mul Int.prime_two, add_comm] at hlte
  have hne : (a : ℤ) - 1 ≠ 0 := by
    intro h
    exact ha1 (by omega)
  have hfin : FiniteMultiplicity (2 : ℤ) ((a : ℤ) - 1) :=
    Int.finiteMultiplicity_iff.mpr ⟨by decide, hne⟩
  exact ENat.add_right_injective_of_ne_top
    (finiteMultiplicity_iff_emultiplicity_ne_top.mp hfin) hlte

/-- The hypotheses of the Hull-Dobell theorem. -/
structure HullDobell (a c m : ℕ) : Prop where
  coprime : Nat.Coprime c m
  prime_dvd : ∀ p, p.Prime → p ∣ m → (p : ℤ) ∣ (a : ℤ) - 1
  four_dvd : 4 ∣ m → (4 : ℤ) ∣ (a : ℤ) - 1

section criterion
variable {a c m : ℕ}

/-- A prime power of `m` that divides the geometric sum divides its number of
    terms. -/
theorem HullDobell.prime_pow_dvd (h : HullDobell a c m) {p k d : ℕ} (hp : p.Prime)
    (hpm : p ^ k ∣ m) (hdvd : p ^ k ∣ ∑ i ∈ range d, a ^ i) : p ^ k ∣ d := by
  by_cases ha1 : a = 1
  · simpa [ha1] using hdvd
  · cases k with
    | zero => simp
    | succ k =>
      have hpd := h.prime_dvd p hp (dvd_trans (dvd_pow_self p (by omega)) hpm)
      have hsum : ((p ^ (k + 1) : ℕ) : ℤ) ∣ ∑ i ∈ range d, (a : ℤ) ^ i := by
        exact_mod_cast Int.natCast_dvd_natCast.mpr hdvd
      rcases hp.eq_two_or_odd' with rfl | hodd
      · cases k with
        | zero =>
          -- modulo 2 every term of the sum is 1
          have hterm : (∑ i ∈ range d, (a : ℤ) ^ i) ≡ d [ZMOD 2] := by
            have ha : (a : ℤ) ≡ 1 [ZMOD 2] := (Int.modEq_iff_dvd.mpr (by simpa using hpd)).symm
            calc (∑ i ∈ range d, (a : ℤ) ^ i) ≡ ∑ _i ∈ range d, 1 [ZMOD 2] :=
                  Int.ModEq.sum fun i _ => by simpa using ha.pow i
              _ = d := by simp
          have h2 : ((2 : ℕ) : ℤ) ∣ (d : ℤ) := by
            have := Int.modEq_zero_iff_dvd.mpr (by simpa using hsum : (2 : ℤ) ∣ _)
            exact Int.modEq_zero_iff_dvd.mp (hterm.symm.trans this)
          simpa using Int.natCast_dvd_natCast.mp h2
        | succ k =>
          have h4 : (4 : ℤ) ∣ (a : ℤ) - 1 := by
            apply h.four_dvd
            exact dvd_trans ⟨2 ^ k, by ring⟩ hpm
          have hz : (2 : ℤ) ^ (k + 1 + 1) ∣ (d : ℤ) := by
            rw [pow_dvd_iff_le_emultiplicity, ← emultiplicity_geomSum_two h4 ha1,
              ← pow_dvd_iff_le_emultiplicity]
            exact_mod_cast hsum
          exact_mod_cast hz
      · rw [pow_dvd_iff_le_emultiplicity, ← emultiplicity_geomSum_odd hp hodd hpd ha1,
          ← pow_dvd_iff_le_emultiplicity]
        exact_mod_cast hsum

/-- If `m` divides the geometric sum, it divides its number of terms. -/
theorem HullDobell.dvd_of_dvd_geomSum (h : HullDobell a c m) {d : ℕ}
    (hdvd : m ∣ ∑ i ∈ range d, a ^ i) : m ∣ d := by
  rw [Nat.dvd_iff_prime_pow_dvd_dvd]
  intro p k hp hpm
  exact h.prime_pow_dvd hp hpm (dvd_trans hpm hdvd)

/-- The factor left over after the geometric sum is a unit modulo `m`. -/
theorem HullDobell.isCoprime (h : HullDobell a c m) (y : ℤ) :
    IsCoprime (m : ℤ) (((a : ℤ) - 1) * y + c) := by
  rw [Int.isCoprime_iff_gcd_eq_one]
  by_contra hne
  obtain ⟨p, hp, hpg⟩ := Nat.exists_prime_and_dvd hne
  have hpm : (p : ℤ) ∣ m := dvd_trans (Int.natCast_dvd_natCast.mpr hpg) (Int.gcd_dvd_left _ _)
  have hps : (p : ℤ) ∣ ((a : ℤ) - 1) * y + c :=
    dvd_trans (Int.natCast_dvd_natCast.mpr hpg) (Int.gcd_dvd_right _ _)
  have hpm' : p ∣ m := Int.natCast_dvd_natCast.mp hpm
  have hpa := h.prime_dvd p hp hpm'
  have hpc : (p : ℤ) ∣ c := (dvd_add_right (dvd_mul_of_dvd_left hpa y)).mp hps
  have hone : p ∣ 1 := by
    rw [← Nat.Coprime.gcd_eq_one h.coprime]
    exact Nat.dvd_gcd (Int.natCast_dvd_natCast.mp hpc) hpm'
  exact hp.one_lt.ne' (Nat.dvd_one.mp hone)

/-- A value that comes back after `d` steps does so after a multiple of `m`. -/
theorem HullDobell.dvd_of_iterate_eq (h : HullDobell a c m) {y d : ℕ}
    (heq : (step a c m)^[d] y = y) : m ∣ d := by
  have hmod := iterate_step_modEq a c m y d
  rw [heq] at hmod
  have hz := Int.natCast_modEq_iff.mpr hmod
  push_cast at hz
  have hdvd := Int.modEq_iff_dvd.mp hz
  -- the closed form minus `y` factors through the geometric sum
  have hfactor : (a : ℤ) ^ d * y + c * ∑ i ∈ range d, (a : ℤ) ^ i - y
      = (∑ i ∈ range d, (a : ℤ) ^ i) * (((a : ℤ) - 1) * y + c) := by
    have hgeom := geom_sum_mul (a : ℤ) d
    linear_combination y * (-1 : ℤ) * hgeom
  rw [hfactor] at hdvd
  have hsum := (h.isCoprime y).dvd_of_dvd_mul_right hdvd
  apply h.dvd_of_dvd_geomSum
  exact_mod_cast hsum

/-- **Hull-Dobell**: under the three conditions the map runs through
    `[0, m)` in a single cycle. -/
theorem HullDobell.singleCycle (h : HullDobell a c m) (hm : 0 < m) :
    CycleMap.SingleCycle (step a c m) m where
  map_lt := fun x => step_lt a c x hm
  iterate_inj := by
    -- the later of two equal iterates returns to the earlier one
    have hle : ∀ x i j, i ≤ j → j < m → (step a c m)^[i] x = (step a c m)^[j] x → i = j := by
      intro x i j hij hj heq
      have hback : (step a c m)^[j - i] ((step a c m)^[i] x) = (step a c m)^[i] x := by
        rw [← Function.iterate_add_apply, Nat.sub_add_cancel hij, heq]
      have hdvd := h.dvd_of_iterate_eq hback
      have := Nat.eq_zero_of_dvd_of_lt hdvd (by omega)
      omega
    intro x _ i hi j hj heq
    rcases Nat.le_total i j with hij | hji
    · exact hle x i j hij hj heq
    · exact (hle x j i hji hi heq.symm).symm

end criterion

/-! ## Section 3: A common factor of increment and modulus -/

/-- From seed 0 every draw keeps a common divisor of increment and modulus. -/
theorem dvd_of_mem_draws {a c m p : ℕ} (hpc : p ∣ c) (hpm : p ∣ m) {k y : ℕ}
    (hy : y ∈ CycleMap.draws (step a c m) 0 k) : p ∣ y := by
  have hstep : ∀ x, p ∣ x → p ∣ step a c m x := fun x hx =>
    (Nat.dvd_mod_iff hpm).mpr (dvd_add (dvd_mul_of_dvd_right hx a) hpc)
  have hiter : ∀ i, p ∣ (step a c m)^[i] 0 := by
    intro i
    induction i with
    | zero => simp
    | succ i ih => rw [Function.iterate_succ_apply']; exact hstep _ ih
  obtain ⟨i, _, rfl⟩ := CycleMap.mem_draws.mp hy
  exact hiter (i + 1)

/-- If one period from seed 0 has no repetition, the increment is coprime
    with the modulus. -/
theorem coprime_of_nodup_draws {a c m : ℕ} (hm : 2 ≤ m)
    (h : (CycleMap.draws (step a c m) 0 m).Nodup) : Nat.Coprime c m := by
  have hsub : CycleMap.draws (step a c m) 0 m ⊆ List.range m := by
    intro y hy
    obtain ⟨i, _, rfl⟩ := CycleMap.mem_draws.mp hy
    rw [Function.iterate_succ_apply', List.mem_range]
    exact step_lt _ _ _ (by omega)
  have hperm := (h.subperm hsub).perm_of_length_le (by simp)
  -- the period then contains 1, which no proper divisor divides
  have hone : 1 ∈ CycleMap.draws (step a c m) 0 m :=
    hperm.mem_iff.mpr (List.mem_range.mpr (by omega))
  have hdvd := dvd_of_mem_draws (Nat.gcd_dvd_left c m) (Nat.gcd_dvd_right c m) hone
  exact Nat.dvd_one.mp hdvd

end Lcg
