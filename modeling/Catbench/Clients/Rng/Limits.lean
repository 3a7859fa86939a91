import Catbench.Clients.Rng
import Mathlib.Data.Nat.Factorization.Basic
import Mathlib.Tactic.NormNum.Prime
import Mathlib.Tactic.IntervalCases

/-! # The limits of the generator's parameters (`clients/rng.c`)

    Two questions about the periods that `rng.h` admits.  Which draws are the
    exact ones although every product is reduced to 32 bits?  And can the
    rejection loops of `rng_lcfc_init` be left at all, given that they refuse
    three residues besides the ones that share a factor with the period?
-/

open Machine

namespace Rng

/-! ## Section 1: Wrap-around -/

/-- What the next draw would be computed from if no operation wrapped. -/
def exact_draw (pfactors : List ℤ) (last incr : ℕ) : ℕ :=
  (4 * prod pfactors + 1) * last + incr

/-- A draw is the residue of the exact value, taken in the word first. -/
theorem next_u32_eq {pfactors : List ℤ} (hf : Factors pfactors) (seed period incr last : ℕ) :
    next .u32 { last := seed, coeff := coeff .u32 pfactors, incr := incr, mod := period } last
      = exact_draw pfactors last incr % 2 ^ 32 % period := by
  have hmul : coeff .u32 pfactors * last ≡ (4 * prod pfactors + 1) * last [MOD 2 ^ 32] :=
    (coeff_modEq .u32 hf).mul_right last
  have hsum : (coeff .u32 pfactors * last) % 2 ^ 32 + incr
      ≡ exact_draw pfactors last incr [MOD 2 ^ 32] :=
    ((Nat.mod_modEq _ _).trans hmul).add_right incr
  show ((coeff .u32 pfactors * last) % 2 ^ 32 + incr) % 2 ^ 32 % period = _
  rw [show ((coeff .u32 pfactors * last) % 2 ^ 32 + incr) % 2 ^ 32
      = exact_draw pfactors last incr % 2 ^ 32 from hsum]

/-- Reducing to a word first keeps the residue iff the modulus divides what
    the word cuts off. -/
theorem mod_word_mod_eq_iff (word m x : ℕ) :
    x % word % m = x % m ↔ m ∣ word * (x / word) := by
  have hsplit : x % word + word * (x / word) = x := Nat.mod_add_div x word
  constructor
  · intro h
    have hmod : x % word ≡ x [MOD m] := h
    have hdvd := (Nat.modEq_iff_dvd' (Nat.mod_le x word)).mp hmod
    rwa [show x - x % word = word * (x / word) by omega] at hdvd
  · intro h
    apply (Nat.modEq_iff_dvd' (Nat.mod_le x word)).mpr
    rwa [show x - x % word = word * (x / word) by omega]

/-- Of a modulus below the word size only the odd part matters. -/
theorem dvd_two_pow_mul_iff {m e : ℕ} (hm : 0 < m) (hlt : m < 2 ^ e) (q : ℕ) :
    m ∣ 2 ^ e * q ↔ m / 2 ^ m.factorization 2 ∣ q := by
  have hfact : 2 ^ m.factorization 2 * (m / 2 ^ m.factorization 2) = m :=
    Nat.ordProj_mul_ordCompl_eq_self m 2
  -- the odd part has nothing in common with the word size
  have hodd : Nat.Coprime (m / 2 ^ m.factorization 2) (2 ^ e) := by
    apply Nat.Coprime.pow_right
    exact (Nat.coprime_ordCompl Nat.prime_two hm.ne').symm
  -- and the other part divides it
  have hexp : m.factorization 2 ≤ e := by
    have hle : 2 ^ m.factorization 2 ≤ m := Nat.ordProj_le 2 hm.ne'
    exact ((Nat.pow_lt_pow_iff_right (by decide)).mp (lt_of_le_of_lt hle hlt)).le
  constructor
  · intro h
    apply hodd.dvd_of_dvd_mul_left
    exact dvd_trans ⟨2 ^ m.factorization 2, by rw [Nat.mul_comm]; exact hfact.symm⟩ h
  · intro h
    calc m = 2 ^ m.factorization 2 * (m / 2 ^ m.factorization 2) := hfact.symm
      _ ∣ 2 ^ e * q := Nat.mul_dvd_mul (pow_dvd_pow 2 hexp) h

/-- The primes of a list are nonnegative `int`s. -/
theorem factors_of_prime {pfactors : List ℤ}
    (hprime : ∀ p ∈ pfactors, IsInt p ∧ p.toNat.Prime) : Factors pfactors := by
  intro p hp
  refine ⟨?_, (hprime p hp).1⟩
  have := (hprime p hp).2.pos
  omega

/-- **Exact draws**: a draw in 32-bit arithmetic equals the exact one iff the
    odd part of the period divides the part of the exact value that the word
    cuts off.  It always does for a power of two, and whenever nothing
    overflows. -/
theorem rng_lcfc_exact_iff {seed period incr : ℕ} {pfactors : List ℤ} {s : rng_state}
    (hperiod : period < 2 ^ 32) (hprime : ∀ p ∈ pfactors, IsInt p ∧ p.toNat.Prime)
    (hinit : rng_lcfc_init_incr .u32 true seed period pfactors incr = .ok (some s))
    (last : ℕ) :
    (rng_lcfc .u32 { s with last := last }).1
        = ((4 * prod pfactors + 1) * last + incr) % period ↔
      period / 2 ^ period.factorization 2
        ∣ ((4 * prod pfactors + 1) * last + incr) / 2 ^ 32 := by
  obtain ⟨h5, -, rfl⟩ := init_incr_eq_some hinit
  have hdraw : (rng_lcfc .u32
        { last := last, coeff := coeff .u32 pfactors, incr := incr, mod := period }).1
      = exact_draw pfactors last incr % 2 ^ 32 % period :=
    next_u32_eq (factors_of_prime hprime) last period incr last
  rw [hdraw, show (4 * prod pfactors + 1) * last + incr = exact_draw pfactors last incr from rfl,
    mod_word_mod_eq_iff, dvd_two_pow_mul_iff (by omega) hperiod]

/-- The exactness on `rng_test 8 1 2` with increment 3, in the last state. -/
theorem rng_lcfc_exact_eight :
    (rng_lcfc .u32 { last := 7, coeff := 9, incr := 3, mod := 8 }).1
      = ((4 * prod [2] + 1) * 7 + 3) % 8 := by
  have hinit : rng_lcfc_init_incr .u32 true 5 8 [2] 3
      = .ok (some { last := 5, coeff := 9, incr := 3, mod := 8 }) := by decide
  apply (rng_lcfc_exact_iff (by decide) prime_of_mem_two hinit 7).mpr
  decide

/-- The prime `2 ^ 16 + 1` is its own only factor, and its draw from the state
    65536 is not the exact one. -/
theorem rng_lcfc_wraps_65537 :
    Nat.Prime 65537 ∧ IsInt 65537 ∧
      rng_lcfc_init_incr .u32 true 65536 65537 [65537] 2
        = .ok (some { last := 65536, coeff := 262149, incr := 2, mod := 65537 }) ∧
      (rng_lcfc .u32 { last := 65536, coeff := 262149, incr := 2, mod := 65537 }).1
        ≠ ((4 * prod [65537] + 1) * 65536 + 2) % 65537 := by
  refine ⟨by norm_num, by decide, by decide, by decide⟩

/-! ## Section 2: The search for an increment -/

/-- What `rand()` can return: `RAND_MAX` of glibc. -/
def RAND_MAX : ℕ := 2 ^ 31 - 1

/-- The value leaves both rejection loops of `rng_lcfc_init`. -/
def Leaves (w : Arith) (period : ℕ) (pfactors : List ℤ) (incr : ℕ) : Prop :=
  ¬(incr = 0 ∨ incr % period = 1 ∨ incr % period = period - 1) ∧
    coprime w incr pfactors = true

/-- One turn of the loops. -/
theorem find_incr_succ (w : Arith) (rand : ℕ → ℕ) (period : ℕ) (pfactors : List ℤ)
    (fuel pos : ℕ) :
    (Leaves w period pfactors (rand pos % period) ∧
      find_incr w rand period pfactors (fuel + 1) pos = some (rand pos % period)) ∨
    (¬Leaves w period pfactors (rand pos % period) ∧
      find_incr w rand period pfactors (fuel + 1) pos
        = find_incr w rand period pfactors fuel (pos + 1)) := by
  unfold Leaves
  rw [find_incr]
  by_cases hres : rand pos % period = 0 ∨ rand pos % period % period = 1 ∨
      rand pos % period % period = period - 1
  · right
    exact ⟨fun h => h.1 hres, if_pos hres⟩
  · simp only [if_neg hres]
    by_cases hcop : coprime w (rand pos % period) pfactors = true
    · left
      exact ⟨⟨hres, hcop⟩, if_pos hcop⟩
    · right
      exact ⟨fun h => hcop h.2, if_neg hcop⟩

/-- What the search returns has left the loops. -/
theorem leaves_of_find_incr {w : Arith} {rand : ℕ → ℕ} {period : ℕ} {pfactors : List ℤ}
    {fuel pos incr : ℕ} (h : find_incr w rand period pfactors fuel pos = some incr) :
    Leaves w period pfactors incr := by
  induction fuel generalizing pos with
  | zero => cases h
  | succ fuel ih =>
    rcases find_incr_succ w rand period pfactors fuel pos with ⟨hl, he⟩ | ⟨-, he⟩
    · rw [he] at h
      rw [← Option.some.inj h]
      exact hl
    · rw [he] at h
      exact ih h

/-- Some prime factors of the period, at least one of them. -/
structure SomePrimeFactors (period : ℕ) (pfactors : List ℤ) : Prop where
  prime : ∀ p ∈ pfactors, IsInt p ∧ p.toNat.Prime
  dvd : ∀ p ∈ pfactors, p.toNat ∣ period
  ne_nil : pfactors ≠ []

/-- The list holds exactly the prime factors of the period. -/
structure PrimeFactors (period : ℕ) (pfactors : List ℤ) : Prop where
  prime : ∀ p ∈ pfactors, IsInt p ∧ p.toNat.Prime
  dvd : ∀ p ∈ pfactors, p.toNat ∣ period
  prime_mem : ∀ p : ℕ, p.Prime → p ∣ period → (p : ℤ) ∈ pfactors

/-- A period has a factor to list. -/
theorem PrimeFactors.some {period : ℕ} {pfactors : List ℤ} (h : PrimeFactors period pfactors)
    (h5 : 5 ≤ period) : SomePrimeFactors period pfactors := by
  obtain ⟨p, hp, hdvd⟩ := Nat.exists_prime_and_dvd (show period ≠ 1 by omega)
  exact ⟨h.prime, h.dvd, List.ne_nil_of_mem (h.prime_mem p hp hdvd)⟩

/-- Every period from 5 on except 6 has a unit strictly between 1 and
    `period - 1`, at most half of the period. -/
theorem exists_unit_between {m : ℕ} (h5 : 5 ≤ m) (h6 : m ≠ 6) :
    ∃ r, 1 < r ∧ r < m - 1 ∧ 2 * r ≤ m ∧ Nat.Coprime r m := by
  rcases Nat.even_or_odd' m with ⟨k, hk | hk⟩
  · rcases Nat.even_or_odd' k with ⟨j, hj | hj⟩
    · -- a multiple of four: the odd number below the half
      have hodd : Odd (k - 1) := ⟨j - 1, by omega⟩
      refine ⟨k - 1, by omega, by omega, by omega, ?_⟩
      rw [show m = 2 + 2 * (k - 1) by omega]
      apply (Nat.coprime_add_mul_right_right (k - 1) 2 2).mpr
      exact Nat.coprime_two_right.mpr hodd
    · -- twice an odd number: the next odd number below the half
      have hodd : Odd (k - 2) := ⟨j - 1, by omega⟩
      refine ⟨k - 2, by omega, by omega, by omega, ?_⟩
      rw [show m = 4 + 2 * (k - 2) by omega]
      apply (Nat.coprime_add_mul_right_right (k - 2) 4 2).mpr
      exact Nat.Coprime.pow_right 2 (Nat.coprime_two_right.mpr hodd)
  · refine ⟨2, by omega, by omega, by omega, ?_⟩
    exact Nat.coprime_two_left.mpr ⟨k, hk⟩

section listed
variable {w : Arith} {period : ℕ} {pfactors : List ℤ}

/-- `coprime` looks for a listed prime among the divisors. -/
theorem SomePrimeFactors.coprime_iff (h : SomePrimeFactors period pfactors) (incr : ℕ) :
    coprime w incr pfactors = true ↔ ∀ p ∈ pfactors, ¬p.toNat ∣ incr := by
  rw [Rng.coprime_iff]
  have hf := factors_of_prime h.prime
  constructor
  · intro hcop p hp
    rw [← ofInt_of_isInt w (hf p hp).1 (hf p hp).2]
    exact hcop p hp
  · intro hcop p hp
    rw [ofInt_of_isInt w (hf p hp).1 (hf p hp).2]
    exact hcop p hp

/-- A unit of the period has none of the listed primes. -/
theorem SomePrimeFactors.coprime_of_unit (h : SomePrimeFactors period pfactors) {incr : ℕ}
    (hcop : Nat.Coprime incr period) : coprime w incr pfactors = true := by
  rw [h.coprime_iff]
  intro p hp hdvd
  -- a listed prime that divides the increment would be a common factor
  have hone := Nat.dvd_gcd hdvd (h.dvd p hp)
  rw [hcop] at hone
  exact (h.prime p hp).2.one_lt.ne' (Nat.dvd_one.mp hone)

/-- A listed prime of 6 is 2 or 3. -/
theorem SomePrimeFactors.eq_two_or_three (h : SomePrimeFactors 6 pfactors) {p : ℤ}
    (hp : p ∈ pfactors) : p = 2 ∨ p = 3 := by
  have hprime := (h.prime p hp).2
  have hdvd : p.toNat ∣ 2 * 3 := h.dvd p hp
  rcases hprime.dvd_mul.mp hdvd with h2 | h3
  · have := (Nat.prime_dvd_prime_iff_eq hprime Nat.prime_two).mp h2
    omega
  · have := (Nat.prime_dvd_prime_iff_eq hprime Nat.prime_three).mp h3
    omega

/-- The residues 2 and 3 of the period 6 are refused only if they are listed. -/
theorem SomePrimeFactors.coprime_six (h : SomePrimeFactors 6 pfactors) :
    (2 ∉ pfactors → coprime w 2 pfactors = true) ∧
      (3 ∉ pfactors → coprime w 3 pfactors = true) := by
  constructor
  · intro h2
    rw [h.coprime_iff]
    intro p hp
    rcases h.eq_two_or_three hp with rfl | rfl
    · exact absurd hp h2
    · decide
  · intro h3
    rw [h.coprime_iff]
    intro p hp
    rcases h.eq_two_or_three hp with rfl | rfl
    · decide
    · exact absurd hp h3

/-- A residue that leaves the loops, at most half of the period. -/
theorem SomePrimeFactors.exists_leaves (h : SomePrimeFactors period pfactors) (h5 : 5 ≤ period)
    (h6 : ¬(period = 6 ∧ 2 ∈ pfactors ∧ 3 ∈ pfactors)) :
    ∃ r < period, 2 * r ≤ period ∧ Leaves w period pfactors r := by
  by_cases hsix : period = 6
  · subst hsix
    by_cases h2 : 2 ∈ pfactors
    · have h3 : 3 ∉ pfactors := fun h3 => h6 ⟨rfl, h2, h3⟩
      exact ⟨3, by decide, by decide, by decide, h.coprime_six.2 h3⟩
    · exact ⟨2, by decide, by decide, by decide, h.coprime_six.1 h2⟩
  · obtain ⟨r, h1, hlt, hhalf, hcop⟩ := exists_unit_between h5 hsix
    have hrlt : r < period := by omega
    refine ⟨r, hrlt, hhalf, ?_, h.coprime_of_unit hcop⟩
    rw [Nat.mod_eq_of_lt hrlt]
    omega

/-- **Leaving the loops**: with some of its prime factors listed, a period has
    an acceptable residue iff it is at least 5, and not 6 with both factors. -/
theorem SomePrimeFactors.exists_leaves_iff (h : SomePrimeFactors period pfactors) :
    (∃ r < period, Leaves w period pfactors r) ↔
      5 ≤ period ∧ ¬(period = 6 ∧ 2 ∈ pfactors ∧ 3 ∈ pfactors) := by
  constructor
  · intro hex
    obtain ⟨r, hlt, hres, hcop⟩ := hex
    rw [h.coprime_iff] at hcop
    rw [Nat.mod_eq_of_lt hlt] at hres
    have hne4 : period ≠ 4 := by
      intro h4
      -- the only residue left is 2, and so is the only prime factor
      obtain ⟨p, hp⟩ := List.exists_mem_of_ne_nil pfactors h.ne_nil
      have hdvd := h.dvd p hp
      rw [h4, show 4 = 2 ^ 2 from rfl] at hdvd
      have hdvd2 := (h.prime p hp).2.dvd_of_dvd_pow hdvd
      have hr : r = 2 := by omega
      rw [hr] at hcop
      exact hcop p hp hdvd2
    refine ⟨by omega, ?_⟩
    intro h6
    obtain ⟨h6, h2, h3⟩ := h6
    have hndvd2 : ¬2 ∣ r := hcop 2 h2
    have hndvd3 : ¬3 ∣ r := hcop 3 h3
    have hr : r = 2 ∨ r = 3 ∨ r = 4 := by omega
    rcases hr with rfl | rfl | rfl
    · exact hndvd2 (by decide)
    · exact hndvd3 (by decide)
    · exact hndvd2 (by decide)
  · intro hcond
    obtain ⟨r, hlt, -, hl⟩ := h.exists_leaves hcond.1 hcond.2
    exact ⟨r, hlt, hl⟩

/-- An increment that has left the loops is accepted. -/
theorem SomePrimeFactors.init_incr_of_leaves (h : SomePrimeFactors period pfactors)
    (h5 : 5 ≤ period) {incr : ℕ} (hl : Leaves .u32 period pfactors incr) (seed : ℕ) :
    ∃ s, rng_lcfc_init_incr .u32 true seed period pfactors incr = .ok (some s) := by
  obtain ⟨s, hs, -⟩ := init_incr_state seed h5 h.ne_nil hl.2
  exact ⟨s, hs⟩

end listed

/-- **The search for an increment**: on the prime factors of a period from 5
    on, some value of `rand()` leaves both loops in its turn, and every
    increment found is accepted, iff the period is not 6. -/
theorem rng_lcfc_init_finds_iff {period : ℕ} {pfactors : List ℤ} (h5 : 5 ≤ period)
    (hperiod : period < 2 ^ 32) (hprime : ∀ p ∈ pfactors, IsInt p ∧ p.toNat.Prime)
    (hdvd : ∀ p ∈ pfactors, p.toNat ∣ period)
    (hall : ∀ p : ℕ, p.Prime → p ∣ period → (p : ℤ) ∈ pfactors) :
    ((∃ r, r ≤ RAND_MAX ∧
        find_incr .u32 (fun _ => r) period pfactors 1 0 = some (r % period)) ∧
      ∀ rand fuel pos incr, find_incr .u32 rand period pfactors fuel pos = some incr →
        ∀ seed, ∃ s, rng_lcfc_init_incr .u32 true seed period pfactors incr = .ok (some s)) ↔
      period ≠ 6 := by
  have hf : PrimeFactors period pfactors := ⟨hprime, hdvd, hall⟩
  have hsome := hf.some h5
  constructor
  · intro h h6
    obtain ⟨r, -, hfind⟩ := h.1
    have hcond := hsome.exists_leaves_iff.mp
      ⟨r % period, Nat.mod_lt r (by omega), leaves_of_find_incr hfind⟩
    have h2 := hall 2 Nat.prime_two (by omega)
    have h3 := hall 3 Nat.prime_three (by omega)
    exact hcond.2 ⟨h6, h2, h3⟩
  · intro h6
    refine ⟨?_, fun rand fuel pos incr hfind =>
      hsome.init_incr_of_leaves h5 (leaves_of_find_incr hfind)⟩
    obtain ⟨r, hlt, hhalf, hleaves⟩ := hsome.exists_leaves h5 (fun h => h6 h.1)
    refine ⟨r, by unfold RAND_MAX; omega, ?_⟩
    -- a value of `rand()` below the period is its own residue
    have hl : Leaves .u32 period pfactors (r % period) := by
      rw [Nat.mod_eq_of_lt hlt]
      exact hleaves
    rcases find_incr_succ .u32 (fun _ => r) period pfactors 0 0 with ⟨-, he⟩ | ⟨hn, -⟩
    · exact he
    · exact absurd hl hn

/-- The search for the period 8 can be left. -/
theorem rng_lcfc_init_finds_eight :
    ∃ r, r ≤ RAND_MAX ∧ find_incr .u32 (fun _ => r) 8 [2] 1 0 = some (r % 8) := by
  have hdvd : ∀ p ∈ [(2 : ℤ)], p.toNat ∣ 8 := by decide
  exact ((rng_lcfc_init_finds_iff (by decide) (by decide) prime_of_mem_two hdvd
    (complete_two_pow 3).prime_mem).mpr (by decide)).1

/-- For the period 6 with its factors 2 and 3 no value of `rand()` leaves the
    loops. -/
theorem rng_lcfc_init_hangs_six :
    ¬∃ r, r ≤ RAND_MAX ∧ find_incr .u32 (fun _ => r) 6 [2, 3] 1 0 = some (r % 6) := by
  intro h
  obtain ⟨r, -, hfind⟩ := h
  have hl := leaves_of_find_incr hfind
  have hlt : r % 6 < 6 := Nat.mod_lt r (by decide)
  generalize r % 6 = incr at hl hlt
  unfold Leaves at hl
  interval_cases incr <;> simp_all [coprime, Arith.ofInt]

/-! ## Section 3: Whether the search ends

    A stream that never draws an acceptable value keeps the loops going, so
    their end is a question about streams on which every value of `rand()`
    comes up. -/

/-- Every value that `rand()` can return comes up. -/
def Fair (rand : ℕ → ℕ) : Prop := ∀ r ≤ RAND_MAX, ∃ pos, rand pos = r

/-- Counting through the values of `rand()` is fair. -/
theorem fair_count : Fair fun pos => pos % (RAND_MAX + 1) :=
  fun r hr => ⟨r, Nat.mod_eq_of_lt (Nat.lt_succ_of_le hr)⟩

section search
variable {w : Arith} {rand : ℕ → ℕ} {period : ℕ} {pfactors : List ℤ}

/-- The search does not go past a value that leaves the loops. -/
theorem find_incr_ends {i : ℕ} (hl : Leaves w period pfactors (rand i % period)) {fuel pos : ℕ}
    (hpos : pos ≤ i) (hfuel : i < pos + fuel) :
    ∃ incr, find_incr w rand period pfactors fuel pos = some incr := by
  induction fuel generalizing pos with
  | zero => omega
  | succ fuel ih =>
    rcases find_incr_succ w rand period pfactors fuel pos with ⟨-, he⟩ | ⟨hn, he⟩
    · exact ⟨_, he⟩
    · have hne : pos ≠ i := by
        intro h
        rw [h] at hn
        exact hn hl
      rw [he]
      exact ih (by omega) (by omega)

/-- Where no residue leaves the loops, the search goes on on every stream. -/
theorem find_incr_hangs (h0 : 0 < period) (h : ¬∃ r < period, Leaves w period pfactors r)
    (fuel pos : ℕ) : find_incr w rand period pfactors fuel pos = none := by
  induction fuel generalizing pos with
  | zero => rfl
  | succ fuel ih =>
    rcases find_incr_succ w rand period pfactors fuel pos with ⟨hl, -⟩ | ⟨-, he⟩
    · exact absurd ⟨_, Nat.mod_lt _ h0, hl⟩ h
    · rw [he]
      exact ih (pos + 1)

/-- On a fair stream a residue that leaves the loops is enough for the search to end. -/
theorem find_incr_ends_of_fair (hrand : Fair rand) (hperiod : period ≤ 2 ^ 31)
    (h : ∃ r < period, Leaves w period pfactors r) :
    ∃ enough, ∀ fuel ≥ enough, ∃ incr, find_incr w rand period pfactors fuel 0 = some incr := by
  obtain ⟨r, hlt, hl⟩ := h
  obtain ⟨i, hi⟩ := hrand r (by unfold RAND_MAX; omega)
  have hl' : Leaves w period pfactors (rand i % period) := by
    rw [hi, Nat.mod_eq_of_lt hlt]
    exact hl
  refine ⟨i + 1, ?_⟩
  intro fuel hfuel
  exact find_incr_ends hl' (Nat.zero_le i) (by omega)

end search

end Rng
