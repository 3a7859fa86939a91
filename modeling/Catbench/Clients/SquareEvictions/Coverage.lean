import Catbench.Clients.SquareEvictions.Setup

/-! # Do the generators reach every cache line?

    Two ways of sizing the generators are compared with the working sets
    they are drawn for.

    * Without `-f`, all periods are powers of two and every generator is a
      single cycle through its period.  The expanded generator always covers
      its phase.  The second generator is only ever *halved*, so it covers the
      contracted phase exactly when that phase fits the cache.
    * With `-f`, the period is the expanded line count, and `main` checks that
      the product of the list divides it.  The traversal is full exactly when
      the list also names every prime factor (or blocks every increment).
-/

open Machine Rng

namespace SquareEvictions

/-! ## Section 1: Power-of-two periods -/

/-- A generator fit for a phase of `lines` cache lines: a power-of-two period
    that is large enough, and every line drawn sooner or later. -/
structure Covers (w : Arith) (s : rng_state) (lines : ℕ) : Prop where
  two_pow : ∃ k, s.mod = 2 ^ k
  le_period : max MINIMUM_GENERATOR_PERIOD lines ≤ s.mod
  reachable : ∀ line < lines, ∃ k, line ∈ results w s k

/-- A running generator of period `2 ^ k` covers any phase that fits it. -/
theorem covers_of_running {w : Arith} {s : rng_state} {k lines : ℕ} (hk : k ≤ 32)
    (h : Running w (2 ^ k) [2] s) (hle : max MINIMUM_GENERATOR_PERIOD lines ≤ 2 ^ k) :
    Covers w s lines := by
  obtain ⟨s₀, last, hinit, rfl⟩ := h
  obtain ⟨seed, incr, -, hcop, rfl⟩ := hinit.elim
  refine ⟨⟨k, rfl⟩, hle, ?_⟩
  intro line hline
  have hcycle := singleCycle_two_pow w seed hk (complete_two_pow k) hcop
  obtain ⟨i, hi, heq⟩ := hcycle.exists_draw last (by omega : line < 2 ^ k)
  refine ⟨2 ^ k, ?_⟩
  rw [results_eq_draws, CycleMap.mem_draws]
  exact ⟨i, hi, heq⟩

theorem running_mod {w : Arith} {s : rng_state} {period : ℕ} {factors : List ℤ}
    (h : Running w period factors s) : s.mod = period := by
  obtain ⟨s₀, last, hinit, rfl⟩ := h
  obtain ⟨seed, incr, -, -, rfl⟩ := hinit.elim
  rfl

theorem lines_mono (cache_num_sets : ℕ) {p q : ℕ} (h : p ≤ q) :
    lines cache_num_sets p ≤ lines cache_num_sets q :=
  Nat.div_le_div_right (Nat.mul_le_mul_left _ h)

/-- The number of cache sets is an `int`, and so is the product with a percentage. -/
theorem le_thirty_of_isInt {k : ℕ} (h : IsInt (2 ^ k)) : k ≤ 30 := by
  have hlt : 2 ^ k < 2 ^ 31 := by exact_mod_cast h.2
  have := (Nat.pow_lt_pow_iff_right (by decide : 1 < 2)).mp hlt
  omega

theorem lines_lt_of_isInt {cache_num_sets percent : ℕ}
    (h : IsInt ((cache_num_sets * percent : ℕ) : ℤ)) :
    lines cache_num_sets percent < 2 ^ 31 := by
  have hlt : cache_num_sets * percent < 2 ^ 31 := by exact_mod_cast h.2
  exact Nat.lt_of_le_of_lt (Nat.div_le_self _ _) hlt

section sizing
variable {sys : Sys} {fuel k : ℕ} {o : Options} {cache_line_size : ℤ} {g : Generators}

/-- The expanded generator covers both phases. -/
theorem expanded_covers {w : Arith} (hk3 : 3 ≤ k) (hk : k ≤ 30)
    (hlines : lines (2 ^ k) o.percent_expanded < 2 ^ 31) (hf : o.rng_factors = none)
    (hle : o.percent_contracted ≤ o.percent_expanded)
    (h : build_generators w sys fuel o (2 ^ k) = some (.ok g)) :
    Covers w g.expanded (lines (2 ^ k) o.percent_contracted) ∧
      Covers w g.expanded (lines (2 ^ k) o.percent_expanded) := by
  obtain ⟨siz, factors, hperiod, hrun, -, -⟩ := build_generators_inv h
  rw [hf] at hperiod
  simp only [choose_period, Except.ok.injEq, Prod.mk.injEq] at hperiod
  obtain ⟨hsiz, rfl⟩ := hperiod
  -- halved to `2 ^ j` with `8 ≤ 2 ^ j`, then doubled to `2 ^ i`
  obtain ⟨j, hj, hhalve⟩ := halve_two_pow (lines (2 ^ k) o.percent_contracted) 32 k
  have h8k : 2 ^ 3 ≤ 2 ^ k := Nat.pow_le_pow_right (by decide) hk3
  have h8 := eight_le_halve (l := lines (2 ^ k) o.percent_contracted) 32 h8k
  rw [hhalve] at hsiz h8
  obtain ⟨i, hji, hi, hdouble, hcov⟩ :=
    double_two_pow w hlines (by omega : j ≤ 31) (by omega : 31 ≤ j + 32)
  rw [hdouble] at hsiz
  subst hsiz
  have hpow : 2 ^ j ≤ 2 ^ i := Nat.pow_le_pow_right (by decide) hji
  have hmono := lines_mono (2 ^ k) hle
  have h8i : MINIMUM_GENERATOR_PERIOD ≤ 2 ^ i := Nat.le_trans h8 hpow
  exact ⟨covers_of_running (by omega) hrun (by omega), covers_of_running (by omega) hrun (by omega)⟩

/-- **Generator sizing**: with `-r` and without `-f`, on a power-of-two cache
    both phases are covered exactly if the contracted phase does not draw from
    a second generator, or fits the cache. -/
theorem generators_cover_iff (hk3 : 3 ≤ k) (hsets : IsInt (2 ^ k))
    (hprod : IsInt ((2 ^ k * o.percent_expanded : ℕ) : ℤ)) (hf : o.rng_factors = none)
    (h : main_setup .u32 sys fuel o cache_line_size (2 ^ k) = some (.ok (some g))) :
    (Covers .u32 g.contracted (lines (2 ^ k) o.percent_contracted) ∧
        Covers .u32 g.expanded (lines (2 ^ k) o.percent_expanded)) ↔
      (o.secondrng = false ∨ o.percent_contracted = o.percent_expanded ∨
        lines (2 ^ k) o.percent_contracted ≤ 2 ^ k) := by
  obtain ⟨hle, hbuild⟩ := main_setup_inv h
  have hsetsNat : ((2 : ℤ) ^ k).toNat = 2 ^ k := by
    rw [show (2 : ℤ) ^ k = ((2 ^ k : ℕ) : ℤ) from by push_cast; rfl, Int.toNat_natCast]
  rw [hsetsNat] at hbuild
  have hk := le_thirty_of_isInt hsets
  have hlines := lines_lt_of_isInt hprod
  obtain ⟨hexpc, hexpe⟩ := expanded_covers
    (o := { o with secondrng := o.secondrng && o.percent_contracted != o.percent_expanded })
    hk3 hk hlines hf hle hbuild
  obtain ⟨siz, factors, -, -, hsecond, hsame⟩ := build_generators_inv hbuild
  obtain ⟨j, hj, hhalve⟩ := halve_two_pow (lines (2 ^ k) o.percent_contracted) 32 k
  have h8k : 2 ^ 3 ≤ 2 ^ k := Nat.pow_le_pow_right (by decide) hk3
  by_cases hrng : (o.secondrng && o.percent_contracted != o.percent_expanded) = true
  · -- the contracted phase draws from `randtv`, whose period was only halved
    have hrun := hsecond hrng
    simp only [Bool.and_eq_true, bne_iff_ne, ne_eq] at hrng
    constructor
    · rintro ⟨hcov, -⟩
      have hmod := hcov.le_period
      rw [running_mod hrun] at hmod
      simp only [hhalve] at hmod
      have : 2 ^ j ≤ 2 ^ k := Nat.pow_le_pow_right (by decide) hj
      exact Or.inr (Or.inr (by omega))
    · rintro (hs | heq | hfit)
      · simp [hrng.1] at hs
      · exact absurd heq hrng.2
      · have hge := le_halve (l := lines (2 ^ k) o.percent_contracted) 32
          (by omega : max 8 (lines (2 ^ k) o.percent_contracted) ≤ 2 ^ k)
        simp only [hhalve] at hrun hge
        exact ⟨covers_of_running (by omega) hrun hge, hexpe⟩
  · -- both phases draw from `random`
    have hrng' : (o.secondrng && o.percent_contracted != o.percent_expanded) = false := by
      simpa using hrng
    rw [hsame hrng']
    refine ⟨fun _ => ?_, fun _ => ⟨hexpc, hexpe⟩⟩
    simp only [Bool.and_eq_false_iff, bne_eq_false_iff_eq] at hrng'
    rcases hrng' with hs | heq
    · exact Or.inl hs
    · exact Or.inr (Or.inl heq)

/-- Options `-r3 -c PERCENT -e PERCENT` and the defaults. -/
def randomizedOptions (percent_contracted percent_expanded : ℕ) : Options where
  percent_contracted := percent_contracted
  percent_expanded := percent_expanded
  custom_increment := 3
  accesses := 0
  baserandom := 0
  perfstride := none
  rng_factors := none
  perflog := false
  sanitycheck_clockspeed := false
  infinite_duration := false
  randomize := true
  secondrng := true

/-- A system where everything succeeds and `rand()` returns its argument. -/
def quietSys : Sys where
  mmap := true
  rand := fun _ pos => pos
  seed := fun which => which
  malloc := fun _ => true

/-- Both phases are covered at 50% and 100% of a cache of 8 sets. -/
theorem generators_cover_fits :
    ∃ g, main_setup .u32 quietSys 0 (randomizedOptions 50 100) 64 8 = some (.ok (some g)) ∧
      Covers .u32 g.contracted (lines 8 50) ∧ Covers .u32 g.expanded (lines 8 100) := by
  have hsetup : main_setup .u32 quietSys 0 (randomizedOptions 50 100) 64 (2 ^ 3) = some (.ok (some
      { random := { last := 0, coeff := 9, incr := 3, mod := 8 },
        randtv := some { last := 1, coeff := 9, incr := 3, mod := 8 } })) := rfl
  exact ⟨_, hsetup, (generators_cover_iff (by decide) (by decide) (by decide) rfl hsetup).mpr
    (Or.inr (Or.inr (by decide)))⟩

/-- At 120% and 220% of 2048 sets the contracted phase has 2457 lines, and its
    generator a period of 2048. -/
theorem generators_cover_overcommitted :
    ∃ g, main_setup .u32 quietSys 0 (randomizedOptions 120 220) 64 2048
        = some (.ok (some g)) ∧
      lines 2048 120 = 2457 ∧ g.contracted.mod = 2048 ∧
      ¬ Covers .u32 g.contracted (lines 2048 120) := by
  refine ⟨_, rfl, by decide, by decide, ?_⟩
  intro hcov
  exact absurd hcov.le_period (by decide)

end sizing

/-! ## Section 2: Periods with a given factorization -/

/-- Any `m` consecutive results list `[0, m)` without repetition. -/
def FullTraversal (w : Arith) (s : rng_state) (m : ℕ) : Prop :=
  ∀ k, ((results w s (k + m)).drop k).Nodup ∧
    ((results w s (k + m)).drop k).Perm (List.range m)

/-- A prime that is not listed, and not blocked by a listed 1, is accepted as
    an increment. -/
theorem coprime_prime {factors : List ℤ} (hpos : ∀ f ∈ factors, 0 < f) {p : ℕ} (hp : p.Prime)
    (hone : 1 ∉ factors) (hmem : (p : ℤ) ∉ factors) : coprime .exact p factors = true := by
  rw [coprime_iff]
  intro f hf hdvd
  have hf0 := hpos f hf
  rcases (Nat.dvd_prime hp).mp hdvd with h1 | hpf
  · exact hone (by rw [show (1 : ℤ) = f from by simp [Arith.ofInt] at h1; omega]; exact hf)
  · exact hmem (by rw [show (p : ℤ) = f from by simp [Arith.ofInt] at hpf; omega]; exact hf)

/-- **Factorizations**: of the lists that `main` accepts for `-f`, exactly
    those traverse all lines with every accepted increment and seed that name
    every prime factor of the line count, or block all increments by a 1. -/
theorem factorization_traversal_iff {m siz_reduced : ℕ} {factors : List ℤ} (hm : 5 ≤ m)
    (hne : factors ≠ []) (hpos : ∀ f ∈ factors, 0 < f ∧ IsInt f)
    (_hcheck : choose_period .exact (some factors) siz_reduced m = .ok (m, factors)) :
    (∀ s, Initialised .exact m factors s → FullTraversal .exact s m) ↔
      (1 ∈ factors ∨ ∀ p : ℕ, p.Prime → p ∣ m → (p : ℤ) ∈ factors) := by
  constructor
  · intro hall
    by_contra hcond
    rw [not_or] at hcond
    obtain ⟨hone, hcond⟩ := hcond
    have hmissing : ∃ p : ℕ, p.Prime ∧ p ∣ m ∧ (p : ℤ) ∉ factors := by
      by_contra hno
      refine hcond fun p hp hdvd => ?_
      by_contra hmem
      exact hno ⟨p, hp, hdvd, hmem⟩
    obtain ⟨p, hp, hdvd, hmem⟩ := hmissing
    -- the missing prime itself is an accepted increment
    have hcop := coprime_prime (fun f hf => (hpos f hf).1) hp hone hmem
    have hinit : rng_lcfc_init_incr .exact true 0 m factors p = .ok (some
        { last := 0, coeff := coeff .exact factors, incr := p, mod := m }) := by
      unfold rng_lcfc_init_incr
      simp [hcop, hne, hm]
    have htrav := (hall _ (Or.inl ⟨_, _, _, hinit⟩) 0).1
    rw [Nat.zero_add, List.drop_zero, results_eq_draws, next_exact] at htrav
    have hpm : Nat.Coprime p m := Lcg.coprime_of_nodup_draws (show 2 ≤ m by omega) htrav
    exact hp.one_lt.ne' (hpm.eq_one_of_dvd hdvd)
  · rintro (hone | hcomplete) s hinit
    · -- a factor 1 divides every increment
      obtain ⟨seed, incr, -, hcop, -⟩ := hinit.elim
      exact absurd (one_dvd incr) ((coprime_iff _ _ _).mp hcop 1 hone)
    · obtain ⟨seed, incr, -, hcop, rfl⟩ := hinit.elim
      have hc : Complete m factors :=
        ⟨fun f hf => ⟨(hpos f hf).1.le, (hpos f hf).2⟩, hcomplete⟩
      have hcycle : CycleMap.SingleCycle (next .exact
          { last := seed, coeff := coeff .exact factors, incr := incr, mod := m }) m := by
        rw [next_exact, coeff_exact]
        exact (hullDobell_exact hc hcop).singleCycle (by omega)
      intro k
      exact (window_of_singleCycle hcycle k).2

/-- `-f 3,7,13` for the 5 percent working set of 16384 sets. -/
theorem factorization_traversal_five_percent :
    lines 16384 5 = 819 ∧ choose_period .exact (some [3, 7, 13]) 1024 819 = .ok (819, [3, 7, 13])
      ∧ ∀ s, Initialised .exact 819 [3, 7, 13] s → FullTraversal .exact s 819 := by
  have hcheck : choose_period .exact (some [3, 7, 13]) 1024 819 = .ok (819, [3, 7, 13]) := by
    decide
  refine ⟨by decide, hcheck, (factorization_traversal_iff (by decide) (by decide) (by decide)
    hcheck).mpr (Or.inr ?_)⟩
  intro p hp hdvd
  have h819 : p ∣ 3 ^ 2 * (7 * 13) := hdvd
  rw [hp.dvd_mul, hp.dvd_mul] at h819
  rcases h819 with h3 | h7 | h13
  · simp [(Nat.prime_dvd_prime_iff_eq hp Nat.prime_three).mp (hp.dvd_of_dvd_pow h3)]
  · simp [(Nat.prime_dvd_prime_iff_eq hp (by decide : Nat.Prime 7)).mp h7]
  · simp [(Nat.prime_dvd_prime_iff_eq hp (by decide : Nat.Prime 13)).mp h13]

/-- `-f 11468 -r2`, the list that `factors.sh` has for 70 percent of 16384
    sets: accepted by `main` and by `rng_lcfc_init_incr`, but from seed 0 only
    even lines are drawn. -/
theorem factorization_traversal_seventy_percent :
    lines 16384 70 = 11468 ∧
      choose_period .exact (some [11468]) 8192 11468 = .ok (11468, [11468]) ∧
      ∃ s, rng_lcfc_init_incr .exact true 0 11468 [11468] 2 = .ok (some s) ∧
        ¬ ((results .exact s 11468).drop 0).Nodup := by
  refine ⟨by decide, by decide, _, rfl, ?_⟩
  intro hnd
  rw [List.drop_zero, results_eq_draws, next_exact] at hnd
  exact absurd (Lcg.coprime_of_nodup_draws (by decide) hnd) (by decide)

end SquareEvictions
