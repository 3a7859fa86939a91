import Catbench.Clients.Rng.Limits
import Catbench.Clients.SquareEvictions.Coverage

/-! # How the generator setup of `square_evictions` ends

    With `-r`, `main` is to leave the setup with the generators that were
    asked for, or with a message and the exit status 1.  It has other ends: an
    assertion, a division by zero, and a search for an increment that no value
    of `rand()` ends.

    Both generators are built alike, from a period and a list of factors, so
    the ends of one call are settled first, as the fuel of its search grows.
    What the two calls do together then decides about the setup.
-/

open Machine Rng

namespace SquareEvictions

/-! ## Section 1: Ends -/

/-- The stops without a message. -/
def Stop.crash : Stop → Bool
  | .assertion _ => true
  | .assertion_randtv => true
  | .division_by_zero => true
  | _ => false

/-- What the setup is to end with: a message, or the generators that were
    asked for, none of them below the minimum period. -/
inductive Settled (second : Bool) : Except Stop (Option Generators) → Prop where
  | message {e : Stop} : e.crash = false → Settled second (.error e)
  | generators {g : Generators} : 5 ≤ g.random.mod → g.randtv.isSome = second →
      (∀ s, g.randtv = some s → 5 ≤ s.mod) → Settled second (.ok (some g))

/-- The setup ends, and in no other way. -/
structure Settles (second : Bool) (run : ℕ → Option (Except Stop (Option Generators))) :
    Prop where
  ends : ∃ fuel r, run fuel = some r
  settled : ∀ fuel r, run fuel = some r → Settled second r

/-- The call ends with a generator of the period. -/
structure Builds (period : ℕ) (run : ℕ → Option (Except Stop (Option rng_state))) : Prop where
  ends : ∃ enough, ∀ fuel ≥ enough, ∃ r, run fuel = some r
  built : ∀ fuel r, run fuel = some r → ∃ s, r = .ok (some s) ∧ s.mod = period

/-- The call returns a null pointer. -/
def Refuses (run : ℕ → Option (Except Stop (Option rng_state))) : Prop :=
  ∀ fuel, run fuel = some (.ok none)

/-- If the call ends at all, then in a crash. -/
def Fails {α : Type} (run : ℕ → Option (Except Stop α)) : Prop :=
  ∀ fuel r, run fuel = some r → ∃ e, r = .error e ∧ e.crash = true

/-! ## Section 2: One generator -/

section generator
variable {w : Arith} {sys : Sys} {which custom_increment period : ℕ} {factors : List ℤ}

theorem init_custom (hc : custom_increment ≠ 0) (fuel : ℕ) :
    init_generator w sys fuel which custom_increment period factors
      = some ((rng_lcfc_init_incr w (sys.malloc which) (sys.seed which) period factors
          custom_increment).mapError .assertion) := if_pos hc

theorem init_search (h0 : period ≠ 0) (fuel : ℕ) :
    init_generator w sys fuel which 0 period factors
      = ((find_incr w (sys.rand which) period factors fuel 0).map
          (rng_lcfc_init_incr w (sys.malloc which) (sys.seed which) period factors)).map
          (·.mapError .assertion) := by
  unfold init_generator
  rw [if_neg (by simp), if_neg h0]
  rfl

theorem custom_builds (hm : sys.malloc which = true) (hc : custom_increment ≠ 0)
    (h5 : 5 ≤ period) (hne : factors ≠ []) (hcop : coprime w custom_increment factors = true) :
    Builds period fun fuel => init_generator w sys fuel which custom_increment period factors where
  ends := ⟨0, fun fuel _ => ⟨_, init_custom hc fuel⟩⟩
  built := by
    intro fuel r h
    obtain ⟨s, hs, hmod⟩ := init_incr_state (sys.seed which) h5 hne hcop
    rw [init_custom hc, hm, hs] at h
    exact ⟨s, (Option.some.inj h).symm, hmod⟩

theorem custom_refuses (hc : custom_increment ≠ 0) (h5 : 5 ≤ period) (hne : factors ≠ [])
    (hcop : coprime w custom_increment factors = false) :
    Refuses fun fuel => init_generator w sys fuel which custom_increment period factors := by
  intro fuel
  simp only [init_custom hc, init_incr_null _ h5 hne hcop]
  rfl

theorem custom_fails (hc : custom_increment ≠ 0) (h5 : period < 5) :
    Fails fun fuel => init_generator w sys fuel which custom_increment period factors := by
  intro fuel r h
  simp only [init_custom hc, init_incr_assertion _ h5] at h
  exact ⟨_, (Option.some.inj h).symm, rfl⟩

theorem search_builds (hm : sys.malloc which = true) (hrand : Fair (sys.rand which))
    (hperiod : period ≤ 2 ^ 31) (h5 : 5 ≤ period) (hne : factors ≠ [])
    (hex : ∃ r < period, Leaves w period factors r) :
    Builds period fun fuel => init_generator w sys fuel which 0 period factors where
  ends := by
    obtain ⟨enough, hends⟩ := find_incr_ends_of_fair hrand hperiod hex
    refine ⟨enough, ?_⟩
    intro fuel hfuel
    obtain ⟨incr, hincr⟩ := hends fuel hfuel
    simp only [init_search (by omega : period ≠ 0), hincr]
    exact ⟨_, rfl⟩
  built := by
    intro fuel r h
    simp only [init_search (by omega : period ≠ 0), hm, Option.map_map] at h
    obtain ⟨incr, hincr, hr⟩ := Option.map_eq_some_iff.mp h
    obtain ⟨s, hs, hmod⟩ := init_incr_state (sys.seed which) h5 hne
      (leaves_of_find_incr hincr).2
    rw [Function.comp_apply, hs] at hr
    exact ⟨s, hr.symm, hmod⟩

theorem search_fails (hnone : ¬∃ r < period, Leaves w period factors r) :
    Fails fun fuel => init_generator w sys fuel which 0 period factors := by
  intro fuel r h
  by_cases h0 : period = 0
  · subst h0
    exact ⟨.division_by_zero, (Option.some.inj h).symm, rfl⟩
  · simp only [init_search h0, find_incr_hangs (Nat.pos_of_ne_zero h0) hnone] at h
    cases h

/-! What decides about a call are the period, whether the increment is to be
    searched, and whether a factor divides a custom one. -/

theorem call_fails (hlisted : 1 < period → SomePrimeFactors period factors)
    (h : period < 5 ∨ custom_increment = 0 ∧ period = 6 ∧ 2 ∈ factors ∧ 3 ∈ factors) :
    Fails fun fuel => init_generator w sys fuel which custom_increment period factors := by
  by_cases hc : custom_increment = 0
  · subst hc
    apply search_fails
    intro hex
    by_cases h1 : 1 < period
    · have hcond := (hlisted h1).exists_leaves_iff.mp hex
      rcases h with h5 | ⟨-, h6⟩
      · omega
      · exact hcond.2 h6
    · obtain ⟨r, hlt, hres, -⟩ := hex
      omega
  · rcases h with h5 | ⟨h0, -⟩
    · exact custom_fails hc h5
    · exact absurd h0 hc

theorem call_refuses (h5 : 5 ≤ period) (hlisted : SomePrimeFactors period factors)
    (hc : custom_increment ≠ 0) (hdvd : ∃ p ∈ factors, p.toNat ∣ custom_increment) :
    Refuses fun fuel => init_generator w sys fuel which custom_increment period factors := by
  apply custom_refuses hc h5 hlisted.ne_nil
  apply Bool.eq_false_of_not_eq_true
  intro hcop
  obtain ⟨p, hp, hdvd⟩ := hdvd
  exact (hlisted.coprime_iff custom_increment).mp hcop p hp hdvd

theorem call_builds (hm : sys.malloc which = true) (hrand : Fair (sys.rand which))
    (hperiod : period ≤ 2 ^ 31) (h5 : 5 ≤ period) (hlisted : SomePrimeFactors period factors)
    (hsix : custom_increment = 0 → ¬(period = 6 ∧ 2 ∈ factors ∧ 3 ∈ factors))
    (hndvd : custom_increment ≠ 0 → ∀ p ∈ factors, ¬p.toNat ∣ custom_increment) :
    Builds period fun fuel =>
      init_generator w sys fuel which custom_increment period factors := by
  by_cases hc : custom_increment = 0
  · subst hc
    exact search_builds hm hrand hperiod h5 hlisted.ne_nil
      (hlisted.exists_leaves_iff.mpr ⟨h5, hsix rfl⟩)
  · exact custom_builds hm hc h5 hlisted.ne_nil
      ((hlisted.coprime_iff custom_increment).mpr (hndvd hc))

/-- **One call**: it fails, returns a null pointer or builds its generator. -/
theorem call_cases (hm : sys.malloc which = true) (hrand : Fair (sys.rand which))
    (hperiod : period ≤ 2 ^ 31) (hlisted : 1 < period → SomePrimeFactors period factors) :
    ((period < 5 ∨ custom_increment = 0 ∧ period = 6 ∧ 2 ∈ factors ∧ 3 ∈ factors) ∧
      Fails fun fuel => init_generator w sys fuel which custom_increment period factors) ∨
    ((5 ≤ period ∧ custom_increment ≠ 0 ∧ ∃ p ∈ factors, p.toNat ∣ custom_increment) ∧
      Refuses fun fuel => init_generator w sys fuel which custom_increment period factors) ∨
    ((5 ≤ period ∧ (custom_increment = 0 → ¬(period = 6 ∧ 2 ∈ factors ∧ 3 ∈ factors)) ∧
        (custom_increment ≠ 0 → ∀ p ∈ factors, ¬p.toNat ∣ custom_increment)) ∧
      Builds period fun fuel =>
        init_generator w sys fuel which custom_increment period factors) := by
  by_cases hfail : period < 5 ∨ custom_increment = 0 ∧ period = 6 ∧ 2 ∈ factors ∧ 3 ∈ factors
  · left
    exact ⟨hfail, call_fails hlisted hfail⟩
  right
  rw [not_or, not_lt, not_and] at hfail
  obtain ⟨h5, hsix⟩ := hfail
  have hsome := hlisted (by omega)
  by_cases hdvd : custom_increment ≠ 0 ∧ ∃ p ∈ factors, p.toNat ∣ custom_increment
  · left
    exact ⟨⟨h5, hdvd⟩, call_refuses h5 hsome hdvd.1 hdvd.2⟩
  · right
    have hndvd : custom_increment ≠ 0 → ∀ p ∈ factors, ¬p.toNat ∣ custom_increment := by
      intro hc p hp hpdvd
      exact hdvd ⟨hc, p, hp, hpdvd⟩
    exact ⟨⟨h5, hsix, hndvd⟩, call_builds hm hrand hperiod h5 hsome hsix hndvd⟩

end generator

/-! ## Section 3: Two generators -/

section setup
variable {w : Arith} {sys : Sys} {o : Options} {cache_num_sets siz : ℕ} {factors : List ℤ}

/-- The period of the second generator. -/
def siz_reduced (o : Options) (cache_num_sets : ℕ) : ℕ :=
  halve (lines cache_num_sets o.percent_contracted) 32 cache_num_sets

/-- The two calls of the setup and the call of `main`, by the fuel of the searches. -/
def first_run (w : Arith) (sys : Sys) (o : Options) (siz : ℕ) (factors : List ℤ) :
    ℕ → Option (Except Stop (Option rng_state)) :=
  fun fuel => init_generator w sys fuel 0 o.custom_increment siz factors

def second_run (w : Arith) (sys : Sys) (o : Options) (cache_num_sets : ℕ) :
    ℕ → Option (Except Stop (Option rng_state)) :=
  fun fuel => init_generator w sys fuel 1 o.custom_increment (siz_reduced o cache_num_sets) [2]

def setup_run (w : Arith) (sys : Sys) (o : Options) (cache_num_sets : ℕ) :
    ℕ → Option (Except Stop (Option Generators)) :=
  fun fuel => (build_generators w sys fuel o cache_num_sets).map (·.map some)

section first
variable (hpow : pow_of_two cache_num_sets = true)
  (hsiz : choose_period w o.rng_factors (siz_reduced o cache_num_sets)
    (lines cache_num_sets o.percent_expanded) = .ok (siz, factors))
include hpow hsiz

theorem setup_first_none {fuel : ℕ} (h : first_run w sys o siz factors fuel = none) :
    setup_run w sys o cache_num_sets fuel = none := by
  unfold first_run at h
  unfold siz_reduced at hsiz
  simp only [setup_run, build_generators, hpow, hsiz, h]
  rfl

theorem setup_first_error {fuel : ℕ} {e : Stop}
    (h : first_run w sys o siz factors fuel = some (.error e)) :
    setup_run w sys o cache_num_sets fuel = some (.error e) := by
  unfold first_run at h
  unfold siz_reduced at hsiz
  simp only [setup_run, build_generators, hpow, hsiz, h]
  rfl

theorem setup_first_null {fuel : ℕ} (h : first_run w sys o siz factors fuel = some (.ok none)) :
    ∃ e : Stop, setup_run w sys o cache_num_sets fuel = some (.error e) ∧ e.crash = false := by
  unfold first_run at h
  unfold siz_reduced at hsiz
  simp only [setup_run, build_generators, hpow, hsiz, h]
  refine ⟨_, rfl, ?_⟩
  split
  · rfl
  · rfl

theorem setup_single {fuel : ℕ} {random : rng_state}
    (h : first_run w sys o siz factors fuel = some (.ok (some random)))
    (hone : o.secondrng = false) :
    setup_run w sys o cache_num_sets fuel
      = some (.ok (some (waste_base w o.baserandom { random := random, randtv := none }))) := by
  unfold first_run at h
  unfold siz_reduced at hsiz
  simp only [setup_run, build_generators, hpow, hsiz, h, hone]
  rfl

/-- With two generators the result is decided by the second call. -/
theorem setup_double {fuel : ℕ} {random : rng_state}
    (h : first_run w sys o siz factors fuel = some (.ok (some random)))
    (htwo : o.secondrng = true) :
    (second_run w sys o cache_num_sets fuel = none →
        setup_run w sys o cache_num_sets fuel = none) ∧
      (∀ e, second_run w sys o cache_num_sets fuel = some (.error e) →
        setup_run w sys o cache_num_sets fuel = some (.error e)) ∧
      (second_run w sys o cache_num_sets fuel = some (.ok none) →
        setup_run w sys o cache_num_sets fuel = some (.error .assertion_randtv)) ∧
      (∀ randtv, second_run w sys o cache_num_sets fuel = some (.ok (some randtv)) →
        setup_run w sys o cache_num_sets fuel = some (.ok (some
          (waste_base w o.baserandom { random := random, randtv := some randtv })))) := by
  unfold first_run at h
  unfold second_run
  unfold siz_reduced at hsiz ⊢
  refine ⟨?_, ?_, ?_, ?_⟩
  · intro h2
    simp only [setup_run, build_generators, hpow, hsiz, h, htwo, h2]
    rfl
  · intro e h2
    simp only [setup_run, build_generators, hpow, hsiz, h, htwo, h2]
    rfl
  · intro h2
    simp only [setup_run, build_generators, hpow, hsiz, h, htwo, h2]
    rfl
  · intro randtv h2
    simp only [setup_run, build_generators, hpow, hsiz, h, htwo, h2]
    rfl

end first

/-! ### From the calls to the setup -/

theorem waste_mod (n : ℕ) (s : rng_state) : (waste w n s).mod = s.mod := by
  obtain ⟨last, heq⟩ := waste_eq w n s
  rw [heq]

theorem Fails.not_settles {second : Bool} {run : ℕ → Option (Except Stop (Option Generators))}
    (h : Fails run) : ¬Settles second run := by
  intro hs
  obtain ⟨fuel, r, hr⟩ := hs.ends
  obtain ⟨e, rfl, hcrash⟩ := h fuel r hr
  cases hs.settled fuel _ hr with
  | message hno =>
    rw [hno] at hcrash
    cases hcrash

section calls
variable (hpow : pow_of_two cache_num_sets = true)
  (hsiz : choose_period w o.rng_factors (siz_reduced o cache_num_sets)
    (lines cache_num_sets o.percent_expanded) = .ok (siz, factors))
include hpow hsiz

/-- A setup that ends is one whose first call has ended. -/
theorem first_of_setup {fuel : ℕ} {r : Except Stop (Option Generators)}
    (hr : setup_run w sys o cache_num_sets fuel = some r) :
    ∃ r', first_run w sys o siz factors fuel = some r' := by
  cases hfirst : first_run w sys o siz factors fuel with
  | none =>
    rw [setup_first_none hpow hsiz hfirst] at hr
    cases hr
  | some r' => exact ⟨r', rfl⟩

theorem setup_of_first_fails (h : Fails (first_run w sys o siz factors)) :
    Fails (setup_run w sys o cache_num_sets) := by
  intro fuel r hr
  obtain ⟨r', hfirst⟩ := first_of_setup hpow hsiz hr
  obtain ⟨e, rfl, hcrash⟩ := h fuel r' hfirst
  rw [setup_first_error hpow hsiz hfirst] at hr
  exact ⟨e, (Option.some.inj hr).symm, hcrash⟩

theorem setup_of_first_refuses {second : Bool} (h : Refuses (first_run w sys o siz factors)) :
    Settles second (setup_run w sys o cache_num_sets) where
  ends := by
    obtain ⟨e, he, -⟩ := setup_first_null hpow hsiz (h 0)
    exact ⟨0, _, he⟩
  settled := by
    intro fuel r hr
    obtain ⟨e, he, hmessage⟩ := setup_first_null hpow hsiz (h fuel)
    rw [he] at hr
    rw [← Option.some.inj hr]
    exact Settled.message hmessage

theorem setup_of_single (h5 : 5 ≤ siz) (h : Builds siz (first_run w sys o siz factors))
    (hone : o.secondrng = false) : Settles o.secondrng (setup_run w sys o cache_num_sets) where
  ends := by
    obtain ⟨enough, hends⟩ := h.ends
    obtain ⟨r, hr⟩ := hends enough (Nat.le_refl enough)
    obtain ⟨random, rfl, -⟩ := h.built enough r hr
    exact ⟨enough, _, setup_single hpow hsiz hr hone⟩
  settled := by
    intro fuel r hr
    obtain ⟨r', hfirst⟩ := first_of_setup hpow hsiz hr
    obtain ⟨random, rfl, hmod⟩ := h.built fuel r' hfirst
    rw [setup_single hpow hsiz hfirst hone] at hr
    rw [← Option.some.inj hr]
    apply Settled.generators
    · show 5 ≤ (waste w o.baserandom random).mod
      rw [waste_mod, hmod]
      exact h5
    · exact hone.symm
    · intro s hs
      cases hs

theorem setup_of_double (h5 : 5 ≤ siz) (h : Builds siz (first_run w sys o siz factors))
    (htwo : o.secondrng = true) (h5' : 5 ≤ siz_reduced o cache_num_sets)
    (h' : Builds (siz_reduced o cache_num_sets) (second_run w sys o cache_num_sets)) :
    Settles o.secondrng (setup_run w sys o cache_num_sets) where
  ends := by
    obtain ⟨enough, hends⟩ := h.ends
    obtain ⟨enough', hends'⟩ := h'.ends
    obtain ⟨r, hr⟩ := hends (max enough enough') (Nat.le_max_left ..)
    obtain ⟨r', hr'⟩ := hends' (max enough enough') (Nat.le_max_right ..)
    obtain ⟨random, rfl, -⟩ := h.built _ r hr
    obtain ⟨randtv, rfl, -⟩ := h'.built _ r' hr'
    exact ⟨_, _, (setup_double hpow hsiz hr htwo).2.2.2 randtv hr'⟩
  settled := by
    intro fuel r hr
    obtain ⟨r₁, hfirst⟩ := first_of_setup hpow hsiz hr
    obtain ⟨random, rfl, hmod⟩ := h.built fuel r₁ hfirst
    obtain ⟨hnone, -, -, hsome⟩ := setup_double hpow hsiz hfirst htwo
    cases hsecond : second_run w sys o cache_num_sets fuel with
    | none =>
      rw [hnone hsecond] at hr
      cases hr
    | some r₂ =>
      obtain ⟨randtv, rfl, hmod'⟩ := h'.built fuel r₂ hsecond
      rw [hsome randtv hsecond] at hr
      rw [← Option.some.inj hr]
      apply Settled.generators
      · show 5 ≤ (waste w o.baserandom random).mod
        rw [waste_mod, hmod]
        exact h5
      · exact htwo.symm
      · intro s hs
        rw [← Option.some.inj hs, waste_mod, hmod']
        exact h5'

/-- A second call that gives no generator is not looked at before the assertion. -/
theorem setup_of_second_bad (h : Builds siz (first_run w sys o siz factors))
    (htwo : o.secondrng = true)
    (h' : Fails (second_run w sys o cache_num_sets) ∨
      Refuses (second_run w sys o cache_num_sets)) :
    Fails (setup_run w sys o cache_num_sets) := by
  intro fuel r hr
  obtain ⟨r₁, hfirst⟩ := first_of_setup hpow hsiz hr
  obtain ⟨random, rfl, -⟩ := h.built fuel r₁ hfirst
  obtain ⟨hnone, herror, hnull, -⟩ := setup_double hpow hsiz hfirst htwo
  rcases h' with hfails | hrefuses
  · cases hsecond : second_run w sys o cache_num_sets fuel with
    | none =>
      rw [hnone hsecond] at hr
      cases hr
    | some r₂ =>
      obtain ⟨e, rfl, hcrash⟩ := hfails fuel r₂ hsecond
      rw [herror e hsecond] at hr
      exact ⟨e, (Option.some.inj hr).symm, hcrash⟩
  · rw [hnull (hrefuses fuel)] at hr
    exact ⟨_, (Option.some.inj hr).symm, rfl⟩

end calls

end setup

/-! ## Section 4: The two periods -/

/-- Doubling stops at the first power of two that is large enough. -/
theorem double_le_two_pow (w : Arith) {l m : ℕ} (hm : m ≤ 31) (hl : l ≤ 2 ^ m) {fuel j : ℕ}
    (hj : j ≤ m) : double w l fuel (2 ^ j) ≤ 2 ^ m := by
  induction fuel generalizing j with
  | zero => exact Nat.pow_le_pow_right (by decide) hj
  | succ fuel ih =>
    unfold double
    split
    · next hlt =>
      have hjm : j < m := (Nat.pow_lt_pow_iff_right (by decide : 1 < 2)).mp (by omega)
      have hword : 2 ^ (j + 1) < 2 ^ 32 := Nat.pow_lt_pow_right (by decide) (by omega)
      rw [two_pow_shiftLeft, wrap_of_lt w hword]
      exact ih hjm
    · exact Nat.pow_le_pow_right (by decide) hj

/-- A power of two that is not below 5 is not below 8. -/
theorem five_le_two_pow {k : ℕ} (h : 5 ≤ 2 ^ k) : 3 ≤ k := by
  by_contra hlt
  have : 2 ^ k ≤ 2 ^ 2 := Nat.pow_le_pow_right (by decide) (by omega)
  omega

theorem five_le_siz_reduced_iff (o : Options) (k : ℕ) :
    5 ≤ siz_reduced o (2 ^ k) ↔ 8 ≤ 2 ^ k := by
  constructor
  · intro h
    obtain ⟨j, hj, hhalve⟩ := halve_two_pow (lines (2 ^ k) o.percent_contracted) 32 k
    unfold siz_reduced at h
    rw [hhalve] at h
    have hj3 := five_le_two_pow h
    exact Nat.pow_le_pow_right (by decide : 0 < 2) (by omega : 3 ≤ k)
  · intro h
    have : 8 ≤ siz_reduced o (2 ^ k) := eight_le_halve 32 h
    omega

/-- The factor 2 of a power of two. -/
theorem somePrimeFactors_two_pow {k : ℕ} (h : 1 < 2 ^ k) : SomePrimeFactors (2 ^ k) [2] where
  prime := prime_of_mem_two
  dvd := by
    intro p hp
    rw [List.mem_singleton.mp hp]
    apply dvd_pow_self
    intro hk
    rw [hk] at h
    exact absurd h (by decide)
  ne_nil := List.cons_ne_nil 2 []

/-- What `-f` asks for: primes whose product divides the expanded line count. -/
structure Factorization (lines_expanded : ℕ) (factors : List ℤ) : Prop where
  ne_nil : factors ≠ []
  prime : ∀ p ∈ factors, IsInt p ∧ p.toNat.Prime
  prod_dvd : prod factors ∣ lines_expanded

theorem Factorization.somePrimeFactors {lines_expanded : ℕ} {factors : List ℤ}
    (h : Factorization lines_expanded factors) : SomePrimeFactors lines_expanded factors where
  prime := h.prime
  dvd := fun _ hp => dvd_trans (List.dvd_prod (List.mem_map_of_mem hp)) h.prod_dvd
  ne_nil := h.ne_nil

theorem foldl_check {factors : List ℤ} (hf : Factors factors) (c : ℤ) :
    factors.foldl (fun check factor => check * factor) c = c * prod factors := by
  induction factors generalizing c with
  | nil => simp [prod]
  | cons p factors ih =>
    obtain ⟨⟨h0, -⟩, hf⟩ := List.forall_mem_cons.mp hf
    rw [List.foldl_cons, ih hf, show prod (p :: factors) = p.toNat * prod factors from by
      simp [prod], Nat.cast_mul, Int.toNat_of_nonneg h0, mul_assoc]

/-- A factorization passes the check of `main`. -/
theorem Factorization.choose_period {w : Arith} {lines_expanded siz : ℕ} {factors : List ℤ}
    (h : Factorization lines_expanded factors) :
    choose_period w (some factors) siz lines_expanded = .ok (lines_expanded, factors) := by
  have hprod : prod factors ≠ 0 := by
    unfold prod
    rw [Ne, List.prod_eq_zero_iff]
    intro hzero
    obtain ⟨p, hp, hp0⟩ := List.mem_map.mp hzero
    exact (h.prime p hp).2.ne_zero hp0
  have hmod : Int.tmod lines_expanded (prod factors) = 0 := by
    rw [← Int.ofNat_tmod, Nat.mod_eq_zero_of_dvd h.prod_dvd]
    rfl
  unfold SquareEvictions.choose_period
  simp only [foldl_check (factors_of_prime h.prime), one_mul]
  rw [if_neg (by exact_mod_cast hprod), if_neg (by simpa using hmod)]

/-- The factors that the first increment is checked against. -/
def first_factors (o : Options) : List ℤ := o.rng_factors.getD [2]

/-- The period and the factors of the first generator, by the options. -/
structure FirstPeriod (o : Options) (cache_num_sets siz : ℕ) : Prop where
  chosen : choose_period .u32 o.rng_factors (siz_reduced o cache_num_sets)
    (lines cache_num_sets o.percent_expanded) = .ok (siz, first_factors o)
  le_word : siz ≤ 2 ^ 31
  listed : 1 < siz → SomePrimeFactors siz (first_factors o)
  five_le_iff : 5 ≤ siz ↔ 5 ≤ lines cache_num_sets o.percent_expanded ∨
    (o.rng_factors = none ∧ 8 ≤ cache_num_sets)
  eq_lines : 3 ∈ first_factors o → siz = lines cache_num_sets o.percent_expanded

/-- Without `-f` the period is a power of two that covers both phases. -/
theorem firstPeriod_two_pow {o : Options} {k : ℕ} (hk : k ≤ 30) (hf : o.rng_factors = none)
    (hlines : lines (2 ^ k) o.percent_expanded < 2 ^ 31) :
    ∃ siz, FirstPeriod o (2 ^ k) siz := by
  have hfactors : first_factors o = [2] := by
    unfold first_factors
    rw [hf]
    rfl
  obtain ⟨j, hj, hhalve⟩ := halve_two_pow (lines (2 ^ k) o.percent_contracted) 32 k
  obtain ⟨i, hji, hi, hdouble, hcov⟩ :=
    double_two_pow .u32 hlines (by omega : j ≤ 31) (by omega : 31 ≤ j + 32)
  have hreduced : siz_reduced o (2 ^ k) = 2 ^ j := hhalve
  refine ⟨2 ^ i, ⟨?_, ?_, ?_, ?_, ?_⟩⟩
  · rw [hf, hfactors, hreduced]
    unfold choose_period
    rw [hdouble]
  · exact Nat.pow_le_pow_right (by decide) hi
  · rw [hfactors]
    exact somePrimeFactors_two_pow
  · have hpow : 2 ^ j ≤ 2 ^ i := Nat.pow_le_pow_right (by decide) hji
    constructor
    · intro h5
      by_contra hno
      rw [not_or, not_and] at hno
      have hsmall := hno.2 hf
      -- both the cache and the lines are below 5, and doubling stops at 4
      have hk2 : k ≤ 2 := by
        by_contra hk3
        exact hsmall (Nat.pow_le_pow_right (by decide : 0 < 2) (by omega : 3 ≤ k))
      have hle : double .u32 (lines (2 ^ k) o.percent_expanded) 32 (2 ^ j) ≤ 2 ^ 2 :=
        double_le_two_pow .u32 (by decide) (by omega) (by omega)
      omega
    · intro h
      rcases h with h5 | ⟨-, h8⟩
      · omega
      · have h5 := (five_le_siz_reduced_iff o k).mpr h8
        omega
  · rw [hfactors]
    intro h3
    exact absurd h3 (by decide)

/-- With `-f` it is the expanded line count. -/
theorem firstPeriod_listed {o : Options} {cache_num_sets : ℕ} {factors : List ℤ}
    (hf : o.rng_factors = some factors)
    (hlist : Factorization (lines cache_num_sets o.percent_expanded) factors)
    (hlines : lines cache_num_sets o.percent_expanded < 2 ^ 31) :
    FirstPeriod o cache_num_sets (lines cache_num_sets o.percent_expanded) := by
  have hfactors : first_factors o = factors := by
    unfold first_factors
    rw [hf]
    rfl
  refine ⟨?_, by omega, ?_, ?_, fun _ => rfl⟩
  · rw [hf, hfactors]
    exact hlist.choose_period
  · rw [hfactors]
    exact fun _ => hlist.somePrimeFactors
  · rw [hf]
    simp

/-! ## Section 5: The setup -/

/-- A second generator is asked for: no `-s`, and phases of different sizes. -/
def Options.two_rngs (o : Options) : Bool :=
  o.secondrng && o.percent_contracted != o.percent_expanded

/-- With `-r`, what `main` has checked when it comes to the generators. -/
structure Accepted (o : Options) : Prop where
  randomize : o.randomize = true
  contracted_le : o.percent_contracted ≤ o.percent_expanded
  stride : o.perfstride.isSome = true → (o.perflog || o.sanitycheck_clockspeed) = true
  capped : o.infinite_duration = true → o.accesses = 0

/-- Surroundings in which every allocation succeeds. -/
def allocating (rand : ℕ → ℕ → ℕ) (seed : ℕ → ℕ) : Sys :=
  { mmap := true, rand := rand, seed := seed, malloc := fun _ => true }

/-- The setup does what it is to do: the sizes are computed without overflow,
    which would be undefined, and on fair streams it settles. -/
structure SetsUp (o : Options) (cache_line_size : ℤ) (cache_num_sets : ℕ) : Prop where
  no_overflow : IsInt ((cache_num_sets * o.percent_expanded : ℕ) : ℤ)
  settles : ∀ rand seed, (∀ which, Fair (rand which)) → Settles o.two_rngs fun fuel =>
    main_setup .u32 (allocating rand seed) fuel o cache_line_size cache_num_sets

/-- The options with which it does. -/
structure SafeOptions (o : Options) (cache_num_sets : ℕ) : Prop where
  no_overflow : IsInt ((cache_num_sets * o.percent_expanded : ℕ) : ℤ)
  /-- The first period reaches the minimum. -/
  five_le : 5 ≤ lines cache_num_sets o.percent_expanded ∨
    (o.rng_factors = none ∧ 8 ≤ cache_num_sets)
  /-- Its increment can be found. -/
  not_six : o.custom_increment = 0 → ¬(lines cache_num_sets o.percent_expanded = 6 ∧
    2 ∈ first_factors o ∧ 3 ∈ first_factors o)
  /-- The second generator is not reached, or can be built. -/
  second : o.two_rngs = true →
    (o.custom_increment ≠ 0 ∧ ∃ p ∈ first_factors o, p.toNat ∣ o.custom_increment) ∨
      (8 ≤ cache_num_sets ∧ (o.custom_increment = 0 ∨ ¬2 ∣ o.custom_increment))

theorem pow_of_two_two_pow (k : ℕ) : pow_of_two (2 ^ k) = true := by
  unfold pow_of_two
  rw [Nat.and_two_pow_sub_one_eq_mod]
  simp

/-- Accepted options lead to the generators. -/
theorem main_setup_accepted {w : Arith} {sys : Sys} {o : Options} {cache_line_size : ℤ}
    {cache_num_sets : ℕ} (hmmap : sys.mmap = true) (ho : Accepted o)
    (hline : 0 < cache_line_size) (hsets : 0 < cache_num_sets) (fuel : ℕ) :
    main_setup w sys fuel o cache_line_size cache_num_sets
      = setup_run w sys { o with secondrng := o.two_rngs } cache_num_sets fuel := by
  have hcheck : check_options sys o = .ok { o with secondrng := o.two_rngs } := by
    have hstride : (!(o.perflog || o.sanitycheck_clockspeed) && o.perfstride.isSome) = false := by
      cases hsome : o.perfstride.isSome with
      | false => simp
      | true =>
        rw [ho.stride hsome]
        rfl
    have hcapped := ho.capped
    unfold check_options
    rw [ho.randomize, hmmap, hstride, if_neg (by simp), if_neg (Nat.not_lt.mpr ho.contracted_le),
      if_neg (by simp), if_neg (by simp), if_neg (by simp), if_neg (by simpa using hcapped)]
    rfl
  unfold main_setup setup_run
  simp only [hcheck, ho.randomize, Int.toNat_natCast]
  rw [if_neg (by omega)]
  rfl

/-- The second call builds its generator exactly from an increment that is to
    be searched or odd, and not below the minimum period. -/
theorem second_call {sys : Sys} (o : Options) {k : ℕ} (hm : sys.malloc 1 = true)
    (hrand : Fair (sys.rand 1)) (hk : k ≤ 30) :
    (5 ≤ siz_reduced o (2 ^ k) ∧ (o.custom_increment = 0 ∨ ¬2 ∣ o.custom_increment) ∧
      Builds (siz_reduced o (2 ^ k)) (second_run .u32 sys o (2 ^ k))) ∨
    (¬(5 ≤ siz_reduced o (2 ^ k) ∧ (o.custom_increment = 0 ∨ ¬2 ∣ o.custom_increment)) ∧
      (Fails (second_run .u32 sys o (2 ^ k)) ∨ Refuses (second_run .u32 sys o (2 ^ k)))) := by
  obtain ⟨j, hj, hhalve⟩ := halve_two_pow (lines (2 ^ k) o.percent_contracted) 32 k
  have hreduced : siz_reduced o (2 ^ k) = 2 ^ j := hhalve
  have hword : siz_reduced o (2 ^ k) ≤ 2 ^ 31 := by
    rw [hreduced]
    exact Nat.pow_le_pow_right (by decide) (by omega)
  have hlisted : 1 < siz_reduced o (2 ^ k) → SomePrimeFactors (siz_reduced o (2 ^ k)) [2] := by
    rw [hreduced]
    exact somePrimeFactors_two_pow
  rcases call_cases hm hrand hword hlisted with ⟨hsmall, hfails⟩ | ⟨hdvd, hrefuses⟩ | ⟨hok, hbuilds⟩
  · right
    refine ⟨?_, Or.inl hfails⟩
    intro h
    rcases hsmall with h5 | ⟨-, -, -, h3⟩
    · omega
    · exact absurd h3 (by decide)
  · -- an even increment, which is refused
    right
    refine ⟨?_, Or.inr hrefuses⟩
    obtain ⟨-, hc, p, hp, heven⟩ := hdvd
    rw [List.mem_singleton.mp hp] at heven
    intro h
    exact h.2.elim hc fun hodd => hodd heven
  · left
    refine ⟨hok.1, ?_, hbuilds⟩
    by_cases hc : o.custom_increment = 0
    · exact Or.inl hc
    · exact Or.inr (hok.2.2 hc 2 (List.mem_singleton.mpr rfl))

/-- **The two calls**: what the setup comes to, by the periods, the factors
    and the increment. -/
theorem setup_settles_iff (sys : Sys) {o : Options} {k siz : ℕ}
    (hm : ∀ which, sys.malloc which = true) (hrand : ∀ which, Fair (sys.rand which)) (hk : k ≤ 30)
    (hp : FirstPeriod o (2 ^ k) siz) :
    Settles o.secondrng (setup_run .u32 sys o (2 ^ k)) ↔
      5 ≤ siz ∧
      (o.custom_increment = 0 → ¬(siz = 6 ∧ 2 ∈ first_factors o ∧ 3 ∈ first_factors o)) ∧
      (o.secondrng = true →
        (o.custom_increment ≠ 0 ∧ ∃ p ∈ first_factors o, p.toNat ∣ o.custom_increment) ∨
          (5 ≤ siz_reduced o (2 ^ k) ∧ (o.custom_increment = 0 ∨ ¬2 ∣ o.custom_increment))) := by
  have hpow := pow_of_two_two_pow k
  rcases call_cases (hm 0) (hrand 0) hp.le_word hp.listed with
    ⟨hfail, hfirst⟩ | ⟨⟨h5, hdvd⟩, hfirst⟩ | ⟨⟨h5, hsix, hndvd⟩, hfirst⟩
  · -- the first call fails
    constructor
    · intro hs
      exact absurd hs (setup_of_first_fails hpow hp.chosen hfirst).not_settles
    · intro h
      rcases hfail with h5 | ⟨h0, h6⟩
      · omega
      · exact absurd h6 (h.2.1 h0)
  · -- it refuses the increment, with a message
    constructor
    · exact fun _ => ⟨h5, fun h0 => absurd h0 hdvd.1, fun _ => Or.inl hdvd⟩
    · exact fun _ => setup_of_first_refuses hpow hp.chosen hfirst
  have hpassed : ¬(o.custom_increment ≠ 0 ∧ ∃ p ∈ first_factors o, p.toNat ∣ o.custom_increment) :=
    fun ⟨hc, p, hmem, hdvd⟩ => hndvd hc p hmem hdvd
  by_cases htwo : o.secondrng = true
  · -- the second call decides
    rcases second_call o (hm 1) (hrand 1) hk with ⟨h5', hodd, hsecond⟩ | ⟨hbad, hsecond⟩
    · constructor
      · exact fun _ => ⟨h5, hsix, fun _ => Or.inr ⟨h5', hodd⟩⟩
      · exact fun _ => setup_of_double hpow hp.chosen h5 hfirst htwo h5' hsecond
    · constructor
      · intro hs
        exact absurd hs (setup_of_second_bad hpow hp.chosen hfirst htwo hsecond).not_settles
      · intro h
        rcases h.2.2 htwo with hrefused | hgood
        · exact absurd hrefused hpassed
        · exact absurd hgood hbad
  · constructor
    · exact fun _ => ⟨h5, hsix, fun h => absurd h htwo⟩
    · exact fun _ => setup_of_single hpow hp.chosen h5 hfirst (Bool.eq_false_of_not_eq_true htwo)

/-- The first period and its factors, for what the user can ask for. -/
theorem exists_firstPeriod {o : Options} {k : ℕ} (hk : k ≤ 30)
    (hover : IsInt ((2 ^ k * o.percent_expanded : ℕ) : ℤ))
    (hf : ∀ factors, o.rng_factors = some factors →
      Factorization (lines (2 ^ k) o.percent_expanded) factors) :
    ∃ siz, FirstPeriod o (2 ^ k) siz := by
  have hlines := lines_lt_of_isInt hover
  cases hlist : o.rng_factors with
  | none => exact firstPeriod_two_pow hk hlist hlines
  | some factors => exact ⟨_, firstPeriod_listed hlist (hf factors hlist) hlines⟩

section main
variable {o : Options} {cache_line_size : ℤ} {k : ℕ}

/-- On any fair streams the whole of `main` up to the traversal settles for
    the same options. -/
theorem main_settles_iff (hk : k ≤ 30) (hline : 0 < cache_line_size) (ho : Accepted o)
    (hf : ∀ factors, o.rng_factors = some factors →
      Factorization (lines (2 ^ k) o.percent_expanded) factors)
    (hover : IsInt ((2 ^ k * o.percent_expanded : ℕ) : ℤ)) {rand : ℕ → ℕ → ℕ}
    (hrand : ∀ which, Fair (rand which)) (seed : ℕ → ℕ) :
    (Settles o.two_rngs fun fuel =>
        main_setup .u32 (allocating rand seed) fuel o cache_line_size ((2 ^ k : ℕ) : ℤ)) ↔
      SafeOptions o (2 ^ k) := by
  obtain ⟨siz, hp⟩ := exists_firstPeriod hk hover hf
  -- `main` hands the options on with `secondrng` cleared where it is of no use
  have hp' : FirstPeriod { o with secondrng := o.two_rngs } (2 ^ k) siz :=
    ⟨hp.chosen, hp.le_word, hp.listed, hp.five_le_iff, hp.eq_lines⟩
  have hsettles := setup_settles_iff (allocating rand seed) (fun _ => rfl) hrand hk hp'
  have hrun : ∀ fuel,
      main_setup .u32 (allocating rand seed) fuel o cache_line_size ((2 ^ k : ℕ) : ℤ)
        = setup_run .u32 (allocating rand seed) { o with secondrng := o.two_rngs } (2 ^ k) fuel :=
    main_setup_accepted rfl ho hline (Nat.two_pow_pos k)
  simp only [hrun]
  constructor
  · intro hs
    obtain ⟨h5, hsix, hsecond⟩ := hsettles.mp hs
    refine ⟨hover, hp.five_le_iff.mp h5, ?_, ?_⟩
    · intro h0 h6
      rw [← hp.eq_lines h6.2.2] at h6
      exact hsix h0 h6
    · rw [← five_le_siz_reduced_iff o k]
      exact hsecond
  · intro h
    apply hsettles.mpr
    refine ⟨hp.five_le_iff.mpr h.five_le, ?_, ?_⟩
    · intro h0 h6
      apply h.not_six h0
      rw [← hp.eq_lines h6.2.2]
      exact h6
    · have hsecond := h.second
      rw [← five_le_siz_reduced_iff o k] at hsecond
      exact hsecond

/-- **Setup**: with `-r`, on a power-of-two cache and for all percentages,
    factorizations and increments, the setup ends in the generators or a
    message exactly for the options above. -/
theorem generator_setup_iff (hsets : IsInt (2 ^ k)) (hline : 0 < cache_line_size)
    (ho : Accepted o) (hf : ∀ factors, o.rng_factors = some factors →
      Factorization (lines (2 ^ k) o.percent_expanded) factors) :
    SetsUp o cache_line_size (2 ^ k) ↔ SafeOptions o (2 ^ k) := by
  have hk := le_thirty_of_isInt hsets
  constructor
  · intro h
    have hs := h.settles (fun _ pos => pos % (RAND_MAX + 1)) id (fun _ => fair_count)
    exact (main_settles_iff hk hline ho hf h.no_overflow (fun _ => fair_count) id).mp hs
  · intro h
    refine ⟨h.no_overflow, ?_⟩
    intro rand seed hrand
    exact (main_settles_iff hk hline ho hf h.no_overflow hrand seed).mpr h

end main

/-- `-c 80 -e 150 -f <factors> -r <custom_increment>`. -/
def factorizedOptions (factors : List ℤ) (custom_increment : ℕ) : Options :=
  { randomizedOptions 80 150 with
    rng_factors := some factors
    custom_increment := custom_increment }

theorem accepted_factorized (factors : List ℤ) (custom_increment : ℕ) :
    Accepted (factorizedOptions factors custom_increment) where
  randomize := rfl
  contracted_le := (by decide : 80 ≤ 150)
  stride := Bool.false_ne_true.elim
  capped := Bool.false_ne_true.elim

/-- 6144 lines of a cache of 4096 sets, with both prime factors and the
    increment 5. -/
theorem generator_setup_five : SetsUp (factorizedOptions [2, 3] 5) 64 4096 := by
  have hlist : Factorization 6144 [2, 3] := by
    refine ⟨by decide, ?_, by decide⟩
    intro p hp
    rcases List.mem_cons.mp hp with rfl | hp
    · exact ⟨by decide, Nat.prime_two⟩
    · rw [List.mem_singleton.mp hp]
      exact ⟨by decide, Nat.prime_three⟩
  have hf : ∀ factors, (factorizedOptions [2, 3] 5).rng_factors = some factors →
      Factorization (lines (2 ^ 12) 150) factors := by
    intro factors h
    rw [← Option.some.inj h]
    exact hlist
  have hsafe : SafeOptions (factorizedOptions [2, 3] 5) (2 ^ 12) := by
    refine ⟨by decide, Or.inl (by decide), ?_, fun _ => Or.inr ⟨by decide, by decide⟩⟩
    intro h0
    exact absurd h0 (by decide)
  exact (generator_setup_iff (by decide) (by decide) (accepted_factorized [2, 3] 5) hf).mpr hsafe

/-- With the factor 3 alone the increment 2 passes the first check, and the
    second generator has the period 4096. -/
theorem generator_setup_even_increment :
    Accepted (factorizedOptions [3] 2) ∧ Factorization (lines 4096 150) [3] ∧
      main_setup .u32 quietSys 0 (factorizedOptions [3] 2) 64 4096
        = some (.error .assertion_randtv) ∧
      ¬SetsUp (factorizedOptions [3] 2) 64 4096 := by
  refine ⟨accepted_factorized [3] 2, ⟨by decide, ?_, by decide⟩, rfl, ?_⟩
  · intro p hp
    rw [List.mem_singleton.mp hp]
    exact ⟨by decide, Nat.prime_three⟩
  · intro h
    have hs := h.settles (fun _ pos => pos % (RAND_MAX + 1)) id (fun _ => fair_count)
    cases hs.settled 0 (.error .assertion_randtv) rfl with
    | message hcrash => cases hcrash

end SquareEvictions
