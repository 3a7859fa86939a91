import Mathlib.Data.Nat.Bitwise
import Catbench.Clients.Rng

/-! # Generator setup of `square_evictions`

    `main` of `clients/square_evictions.c` from the end of its option loop up
    to the point where the traversal starts.  It sizes two working sets as
    percentages of the number of cache sets and, with `-r`, builds the
    generators that pick the cache lines:

    * `random`, used in the expanded phase, with a power-of-two period found
      by halving and then doubling the number of cache sets, or with the
      expanded line count itself when `-f` lists its factors;
    * `randtv`, used in the contracted phase unless `-s` is given or both
      phases have the same size, with the halved period only.

    Integer overflow in the sizes is undefined in the source, so the model
    computes them exactly and the results assume the products to be `int`s.
-/

open Machine Rng

namespace SquareEvictions

/-! ## Section 1: Model -/

def MINIMUM_GENERATOR_PERIOD : ℕ := 8

/-- The options that `main` looks at before the traversal, as the option loop
    leaves them: numbers are nonnegative (`parse_arg_arg` rejects others). -/
structure Options where
  percent_contracted : ℕ
  percent_expanded : ℕ
  /-- 0 when `-r` was given without an increment. -/
  custom_increment : ℕ
  accesses : ℕ
  baserandom : ℕ
  /-- `none` is the default of -1. -/
  perfstride : Option ℕ
  rng_factors : Option (List ℤ)
  perflog : Bool
  sanitycheck_clockspeed : Bool
  infinite_duration : Bool
  randomize : Bool
  /-- Cleared by `-s`. -/
  secondrng : Bool

/-- Ways in which `main` ends before the traversal.  All but the last three
    print a message and return 1. -/
inductive Stop where
  | f_and_s_need_r
  | contracted_larger_than_expanded (percent_contracted percent_expanded : ℕ)
  | allocating_log_buffer
  | j_needs_l_or_v
  | a_and_b_need_r
  | u_excludes_a
  | cache_geometry_unknown
  | not_a_power_of_two (cache_num_sets : ℕ)
  | factorization_incorrect (lines_expanded : ℕ)
  | increment_not_coprime (custom_increment cache_num_sets : ℕ)
  | allocating_generator
  | assertion (failed : Assertion)
  | assertion_randtv
  | division_by_zero
  deriving DecidableEq, Repr

/-- What the setup takes from its surroundings: whether the log buffer can be
    mapped and, for the first and the second generator, the stream that the
    search for an increment sees, the seed of the state, and whether `malloc`
    succeeds. -/
structure Sys where
  mmap : Bool
  rand : ℕ → ℕ → ℕ
  seed : ℕ → ℕ
  malloc : ℕ → Bool

/-- The two generators handed to `square_evictions`. -/
structure Generators where
  random : rng_state
  randtv : Option rng_state
  deriving DecidableEq, Repr

def pow_of_two (num : ℕ) : Bool := num != 0 && (num &&& (num - 1)) == 0

/-- `cache_num_sets * percent / 100.0`, truncated.  The quotient of an `int`
    by 100 is at least 1/100 away from the next integer, so the rounding of
    the floating-point division does not reach it. -/
def lines (cache_num_sets percent : ℕ) : ℕ := cache_num_sets * percent / 100

/-- The loop that halves `siz_reduced`; a word has 32 bits to shift out. -/
def halve (lines_contracted : ℕ) : ℕ → ℕ → ℕ
  | 0, siz_reduced => siz_reduced
  | fuel + 1, siz_reduced =>
    if siz_reduced >>> 1 ≥ lines_contracted ∧ siz_reduced >>> 1 ≥ MINIMUM_GENERATOR_PERIOD then
      halve lines_contracted fuel (siz_reduced >>> 1)
    else siz_reduced

/-- The loop that doubles `siz`. -/
def double (w : Arith) (lines_expanded : ℕ) : ℕ → ℕ → ℕ
  | 0, siz => siz
  | fuel + 1, siz =>
    if siz < lines_expanded then double w lines_expanded fuel (w.wrap (siz <<< 1)) else siz

/-- Period and factors of the first generator, with the check of `-f`. -/
def choose_period (w : Arith) (rng_factors : Option (List ℤ)) (siz_reduced lines_expanded : ℕ) :
    Except Stop (ℕ × List ℤ) :=
  match rng_factors with
  | some factors =>
    let check := factors.foldl (fun check factor => check * factor) 1
    if check = 0 then .error .division_by_zero
    else if Int.tmod lines_expanded check ≠ 0 then
      .error (.factorization_incorrect lines_expanded)
    else .ok (lines_expanded, factors)
  | none => .ok (double w lines_expanded 32 siz_reduced, [2])

/-- Build the `which`-th generator, with the custom increment if there is one;
    the outer `none` is a search for an increment that has not ended.  The
    search divides by the period before anything has looked at it. -/
def init_generator (w : Arith) (sys : Sys) (fuel which custom_increment period : ℕ)
    (factors : List ℤ) : Option (Except Stop (Option rng_state)) :=
  if custom_increment ≠ 0 then
    some ((rng_lcfc_init_incr w (sys.malloc which) (sys.seed which) period factors
      custom_increment).mapError .assertion)
  else if period = 0 then some (.error .division_by_zero)
  else
    (rng_lcfc_init w fuel (sys.rand which) (sys.malloc which) (sys.seed which) period factors).map
      (·.mapError .assertion)

/-- Discard `n` draws. -/
def waste (w : Arith) : ℕ → rng_state → rng_state
  | 0, ctxt => ctxt
  | n + 1, ctxt => waste w n (rng_lcfc w ctxt).2

/-- The draws wasted by `-b`, from both generators. -/
def waste_base (w : Arith) (baserandom : ℕ) (g : Generators) : Generators :=
  { random := waste w baserandom g.random, randtv := g.randtv.map (waste w baserandom) }

/-- The checks on the options alone; equal percentages clear `secondrng`. -/
def check_options (sys : Sys) (o : Options) : Except Stop Options :=
  if (!o.secondrng || o.rng_factors.isSome) && !o.randomize then .error .f_and_s_need_r
  else if o.percent_contracted > o.percent_expanded then
    .error (.contracted_larger_than_expanded o.percent_contracted o.percent_expanded)
  else if (o.perflog || o.sanitycheck_clockspeed) && !sys.mmap then .error .allocating_log_buffer
  else if !(o.perflog || o.sanitycheck_clockspeed) && o.perfstride.isSome then
    .error .j_needs_l_or_v
  else if (o.accesses != 0 || o.baserandom != 0) && !o.randomize then .error .a_and_b_need_r
  else if o.infinite_duration && o.accesses != 0 then .error .u_excludes_a
  else .ok { o with
    secondrng := o.secondrng && o.percent_contracted != o.percent_expanded }

/-- The `if(randomize)` block. -/
def build_generators (w : Arith) (sys : Sys) (fuel : ℕ) (o : Options) (cache_num_sets : ℕ) :
    Option (Except Stop Generators) :=
  let lines_contracted := lines cache_num_sets o.percent_contracted
  let lines_expanded := lines cache_num_sets o.percent_expanded
  if !pow_of_two cache_num_sets then some (.error (.not_a_power_of_two cache_num_sets))
  else
    let siz_reduced := halve lines_contracted 32 cache_num_sets
    match choose_period w o.rng_factors siz_reduced lines_expanded with
    | .error e => some (.error e)
    | .ok (siz, factors) =>
      match init_generator w sys fuel 0 o.custom_increment siz factors with
      | none => none
      | some (.error e) => some (.error e)
      | some (.ok none) =>
        some (.error (if o.custom_increment ≠ 0
          then .increment_not_coprime o.custom_increment cache_num_sets
          else .allocating_generator))
      | some (.ok (some random)) =>
        if o.secondrng then
          match init_generator w sys fuel 1 o.custom_increment siz_reduced [2] with
          | none => none
          | some (.error e) => some (.error e)
          | some (.ok none) => some (.error .assertion_randtv)
          | some (.ok (some randtv)) =>
            some (.ok (waste_base w o.baserandom { random := random, randtv := some randtv }))
        else some (.ok (waste_base w o.baserandom { random := random, randtv := none }))

/-- `main` up to the traversal; without `-r` there are no generators. -/
def main_setup (w : Arith) (sys : Sys) (fuel : ℕ) (o : Options)
    (cache_line_size cache_num_sets : ℤ) : Option (Except Stop (Option Generators)) :=
  match check_options sys o with
  | .error e => some (.error e)
  | .ok o =>
    if cache_line_size ≤ 0 ∨ cache_num_sets ≤ 0 then some (.error .cache_geometry_unknown)
    else if o.randomize then
      (build_generators w sys fuel o cache_num_sets.toNat).map (·.map some)
    else some (.ok none)

/-- The generator `square_evictions` draws from in a contracted cycle. -/
def Generators.contracted (g : Generators) : rng_state := g.randtv.getD g.random

/-- The generator it draws from in an expanded cycle. -/
def Generators.expanded (g : Generators) : rng_state := g.random

/-! ## Section 2: The sizing loops -/

theorem two_pow_succ_shiftRight (k : ℕ) : 2 ^ (k + 1) >>> 1 = 2 ^ k := by
  rw [Nat.shiftRight_eq_div_pow, pow_succ]
  simp

theorem two_pow_shiftLeft (k : ℕ) : 2 ^ k <<< 1 = 2 ^ (k + 1) := by
  rw [Nat.shiftLeft_eq, pow_one, ← pow_succ]

/-- Halving a power of two leaves a smaller power of two. -/
theorem halve_two_pow (l fuel k : ℕ) : ∃ j ≤ k, halve l fuel (2 ^ k) = 2 ^ j := by
  induction fuel generalizing k with
  | zero => exact ⟨k, Nat.le_refl k, rfl⟩
  | succ fuel ih =>
    unfold halve
    split
    · next hcond =>
      cases k with
      | zero => simp [MINIMUM_GENERATOR_PERIOD] at hcond
      | succ k =>
        rw [two_pow_succ_shiftRight]
        obtain ⟨j, hj, heq⟩ := ih k
        exact ⟨j, by omega, heq⟩
    · exact ⟨k, Nat.le_refl k, rfl⟩

/-- Halving never goes below the working set or the minimum period. -/
theorem le_halve {l siz : ℕ} (fuel : ℕ) (h : max 8 l ≤ siz) : max 8 l ≤ halve l fuel siz := by
  induction fuel generalizing siz with
  | zero => exact h
  | succ fuel ih =>
    unfold halve
    split
    · next hcond =>
      apply ih
      have := hcond.2
      unfold MINIMUM_GENERATOR_PERIOD at this
      have := hcond.1
      omega
    · exact h

/-- The minimum period alone is kept from any larger start. -/
theorem eight_le_halve {l siz : ℕ} (fuel : ℕ) (h : 8 ≤ siz) : 8 ≤ halve l fuel siz := by
  induction fuel generalizing siz with
  | zero => exact h
  | succ fuel ih =>
    unfold halve
    split
    · next hcond => exact ih hcond.2
    · exact h

/-- 32 rounds are enough: the loop of a 32-bit word has ended. -/
theorem halve_exit (l : ℕ) {siz fuel : ℕ} (h : siz < 2 ^ fuel) :
    ¬ (halve l fuel siz >>> 1 ≥ l ∧ halve l fuel siz >>> 1 ≥ MINIMUM_GENERATOR_PERIOD) := by
  induction fuel generalizing siz with
  | zero =>
    have : siz = 0 := by omega
    simp [this, halve, MINIMUM_GENERATOR_PERIOD]
  | succ fuel ih =>
    unfold halve
    split
    · apply ih
      rw [Nat.shiftRight_eq_div_pow]
      omega
    · next hcond => exact hcond

/-- Doubling a power of two ends at a power of two that covers the expanded
    lines; below `2 ^ 31` no doubling leaves the word. -/
theorem double_two_pow (w : Arith) {l : ℕ} (hl : l < 2 ^ 31) {fuel j : ℕ} (hj : j ≤ 31)
    (hfuel : 31 ≤ j + fuel) :
    ∃ i, j ≤ i ∧ i ≤ 31 ∧ double w l fuel (2 ^ j) = 2 ^ i ∧ l ≤ 2 ^ i := by
  induction fuel generalizing j with
  | zero =>
    have hj31 : j = 31 := by omega
    exact ⟨j, Nat.le_refl j, hj, rfl, by rw [hj31]; omega⟩
  | succ fuel ih =>
    unfold double
    split
    · next hlt =>
      have hj30 : j < 31 := (Nat.pow_lt_pow_iff_right (by decide : 1 < 2)).mp (by omega)
      have hword : 2 ^ (j + 1) < 2 ^ 32 := Nat.pow_lt_pow_right (by decide) (by omega)
      rw [two_pow_shiftLeft, wrap_of_lt w hword]
      obtain ⟨i, hi, hi31, heq, hle⟩ := ih (j := j + 1) (by omega) (by omega)
      exact ⟨i, by omega, hi31, heq, hle⟩
    · next hge => exact ⟨j, Nat.le_refl j, hj, rfl, by omega⟩

/-! ## Section 3: What the setup builds -/

section setup
variable {w : Arith} {sys : Sys} {fuel : ℕ}

theorem mapError_eq_ok {α : Type} {x : Except Assertion α} {a : α}
    (h : x.mapError Stop.assertion = .ok a) : x = .ok a := by
  cases x with
  | error e => cases h
  | ok b => exact congrArg Except.ok (Except.ok.inj h)

theorem init_generator_initialised {which custom_increment period : ℕ} {factors : List ℤ}
    {s : rng_state}
    (h : init_generator w sys fuel which custom_increment period factors
      = some (.ok (some s))) : Initialised w period factors s := by
  unfold init_generator at h
  split at h
  · exact Or.inl ⟨_, _, _, mapError_eq_ok (Option.some.inj h)⟩
  split at h
  · cases h
  · obtain ⟨r, hr, hok⟩ := Option.map_eq_some_iff.mp h
    rw [mapError_eq_ok hok] at hr
    exact Or.inr ⟨_, _, _, _, hr⟩

theorem waste_eq (w : Arith) (n : ℕ) (s : rng_state) :
    ∃ last, waste w n s = { s with last := last } := by
  induction n generalizing s with
  | zero => exact ⟨s.last, rfl⟩
  | succ n ih =>
    obtain ⟨last, heq⟩ := ih (rng_lcfc w s).2
    exact ⟨last, heq⟩

/-- A generator of the given period and factors, at some point of its run. -/
def Running (w : Arith) (period : ℕ) (factors : List ℤ) (s : rng_state) : Prop :=
  ∃ s₀ last, Initialised w period factors s₀ ∧ s = { s₀ with last := last }

theorem running_waste {period n : ℕ} {factors : List ℤ} {s : rng_state}
    (h : Initialised w period factors s) : Running w period factors (waste w n s) := by
  obtain ⟨last, heq⟩ := waste_eq w n s
  exact ⟨s, last, h, heq⟩

/-- What a successful `if(randomize)` block has built. -/
theorem build_generators_inv {o : Options} {cache_num_sets : ℕ} {g : Generators}
    (h : build_generators w sys fuel o cache_num_sets = some (.ok g)) :
    ∃ siz factors,
      choose_period w o.rng_factors
          (halve (lines cache_num_sets o.percent_contracted) 32 cache_num_sets)
          (lines cache_num_sets o.percent_expanded) = .ok (siz, factors) ∧
      Running w siz factors g.expanded ∧
      (o.secondrng = true → Running w
        (halve (lines cache_num_sets o.percent_contracted) 32 cache_num_sets) [2]
        g.contracted) ∧
      (o.secondrng = false → g.contracted = g.expanded) := by
  unfold build_generators at h
  simp only at h
  split at h
  · cases h
  split at h
  · cases h
  next siz factors hperiod =>
  split at h
  · cases h
  · cases h
  · cases h
  next random hrandom =>
  have hexp := init_generator_initialised hrandom
  split at h
  · next hsecond =>
    split at h
    · cases h
    · cases h
    · cases h
    next randtv hrandtv =>
    have hcon := init_generator_initialised hrandtv
    simp only [Option.some.injEq, Except.ok.injEq] at h
    subst h
    exact ⟨siz, factors, hperiod, running_waste hexp, fun _ => running_waste hcon,
      fun hf => by simp [hsecond] at hf⟩
  · next hsecond =>
    simp only [Option.some.injEq, Except.ok.injEq] at h
    subst h
    exact ⟨siz, factors, hperiod, running_waste hexp, fun hf => absurd hf hsecond,
      fun _ => rfl⟩

/-- What `main` has checked when it went on with generators. -/
theorem main_setup_inv {o : Options} {cache_line_size cache_num_sets : ℤ} {g : Generators}
    (h : main_setup w sys fuel o cache_line_size cache_num_sets = some (.ok (some g))) :
    o.percent_contracted ≤ o.percent_expanded ∧
      build_generators w sys fuel
        { o with secondrng := o.secondrng && o.percent_contracted != o.percent_expanded }
        cache_num_sets.toNat = some (.ok g) := by
  unfold main_setup check_options at h
  split at h
  · cases h
  next o' ho =>
  split at ho
  · cases ho
  split at ho
  · cases ho
  next hle =>
  split at ho
  · cases ho
  split at ho
  · cases ho
  split at ho
  · cases ho
  split at ho
  · cases ho
  cases ho
  split at h
  · cases h
  split at h
  · refine ⟨by omega, ?_⟩
    revert h
    cases build_generators w sys fuel
        { o with secondrng := o.secondrng && o.percent_contracted != o.percent_expanded }
        cache_num_sets.toNat with
    | none => intro h; cases h
    | some r =>
      cases r with
      | error e => intro h; cases h
      | ok g' => intro h; cases h; rfl
  · cases h

end setup

end SquareEvictions
