import Catbench.Framework.HullDobell
import Catbench.Framework.Machine

/-! # The full-cycle generator (`clients/rng.c`)

    `rng_lcfc` is a linear congruential generator whose parameters are meant
    to satisfy the Hull-Dobell theorem: the coefficient is
    `4 * product of pfactors + 1` and the increment is checked by `coprime`
    against the listed factors.  The factors come from the caller; `rng.h`
    asks that they contain every prime factor of the period.

    All functions take the arithmetic as a parameter: `Arith.u32` is the
    compiled program, `Arith.exact` the same text without wrap-around.
-/

open Machine

namespace Rng

/-! ## Section 1: Model -/

/-- `struct rng_state`. -/
structure rng_state where
  last : ℕ
  coeff : ℕ
  incr : ℕ
  mod : ℕ
  deriving DecidableEq, Repr

/-- The assertions of `rng_lcfc_init_incr`.  `assert(pfactors)` has no
    counterpart: a list is never a null pointer. -/
inductive Assertion where
  | period_at_least_5
  | nfactors_nonzero
  deriving DecidableEq, Repr

/-- `a` is divisible by none of the listed factors. -/
def coprime (w : Arith) (a : ℕ) : List ℤ → Bool
  | [] => true
  | fact :: bpfacts => if a % w.ofInt fact = 0 then false else coprime w a bpfacts

/-- The coefficient picked for a list of factors. -/
def coeff (w : Arith) (pfactors : List ℤ) : ℕ :=
  w.wrap (pfactors.foldl (fun c fact => w.wrap (c * w.ofInt fact)) 4 + 1)

/-- `rng_lcfc_init_incr`.  `seed` is what `rand()` returns for the initial
    state and `malloc` whether the allocation succeeds; `none` is `NULL`. -/
def rng_lcfc_init_incr (w : Arith) (malloc : Bool) (seed period : ℕ) (pfactors : List ℤ)
    (incr : ℕ) : Except Assertion (Option rng_state) :=
  if period < 5 then .error .period_at_least_5
  else if pfactors = [] then .error .nfactors_nonzero
  else if !coprime w incr pfactors then .ok none
  else if !malloc then .ok none
  else .ok (some { last := seed, coeff := coeff w pfactors, incr := incr, mod := period })

/-- The two nested rejection loops of `rng_lcfc_init`: both draw again, so
    they are one loop over the stream `rand`. -/
def find_incr (w : Arith) (rand : ℕ → ℕ) (period : ℕ) (pfactors : List ℤ) :
    ℕ → ℕ → Option ℕ
  | 0, _ => none
  | fuel + 1, pos =>
    let incr := rand pos % period
    if incr = 0 ∨ incr % period = 1 ∨ incr % period = period - 1 then
      find_incr w rand period pfactors fuel (pos + 1)
    else if coprime w incr pfactors then some incr
    else find_incr w rand period pfactors fuel (pos + 1)

/-- `rng_lcfc_init`: `none` if no increment was found within `fuel` draws. -/
def rng_lcfc_init (w : Arith) (fuel : ℕ) (rand : ℕ → ℕ) (malloc : Bool) (seed period : ℕ)
    (pfactors : List ℤ) : Option (Except Assertion (Option rng_state)) :=
  (find_incr w rand period pfactors fuel 0).map
    (rng_lcfc_init_incr w malloc seed period pfactors)

/-- The value of the next draw as a function of the last one. -/
def next (w : Arith) (ctxt : rng_state) (last : ℕ) : ℕ :=
  w.wrap (w.wrap (ctxt.coeff * last) + ctxt.incr) % ctxt.mod

/-- `rng_lcfc`: the drawn value, which is also stored as the new state. -/
def rng_lcfc (w : Arith) (ctxt : rng_state) : ℕ × rng_state :=
  let last := next w ctxt ctxt.last
  (last, { ctxt with last := last })

/-- The next `k` results of `rng_lcfc`. -/
def results (w : Arith) : rng_state → ℕ → List ℕ
  | _, 0 => []
  | ctxt, k + 1 => (rng_lcfc w ctxt).1 :: results w (rng_lcfc w ctxt).2 k

/-! ## Section 2: The generator as a self-map -/

/-- The map does not depend on where the generator stands. -/
@[simp] theorem next_with_last (w : Arith) (ctxt : rng_state) (last : ℕ) :
    next w { ctxt with last := last } = next w ctxt := rfl

/-- The results are the draws of the map `next`. -/
theorem results_eq_draws (w : Arith) (ctxt : rng_state) (k : ℕ) :
    results w ctxt k = CycleMap.draws (next w ctxt) ctxt.last k := by
  induction k generalizing ctxt with
  | zero => rfl
  | succ k ih =>
    rw [results, ih, CycleMap.draws_succ]
    rfl

theorem next_lt (w : Arith) (ctxt : rng_state) (x : ℕ) (hm : 0 < ctxt.mod) :
    next w ctxt x < ctxt.mod := Nat.mod_lt _ hm

/-- With exact arithmetic the map is the congruential one. -/
theorem next_exact (ctxt : rng_state) :
    next .exact ctxt = Lcg.step ctxt.coeff ctxt.incr ctxt.mod := rfl

/-- Modulo a divisor of the word size, wrap-around does not show. -/
theorem next_of_dvd (w : Arith) (ctxt : rng_state) (hm : ctxt.mod ∣ 2 ^ 32) :
    next w ctxt = Lcg.step ctxt.coeff ctxt.incr ctxt.mod := by
  funext x
  unfold next Lcg.step
  rw [wrap_mod_of_dvd w hm, Nat.add_mod, wrap_mod_of_dvd w hm, ← Nat.add_mod]

/-- On a state that cannot overflow the word, nothing wraps. -/
theorem next_of_lt (w : Arith) (ctxt : rng_state) {x : ℕ}
    (h : ctxt.coeff * x + ctxt.incr < 2 ^ 32) :
    next w ctxt x = Lcg.step ctxt.coeff ctxt.incr ctxt.mod x := by
  unfold next Lcg.step
  rw [wrap_of_lt w (by omega : ctxt.coeff * x < 2 ^ 32), wrap_of_lt w h]

/-! ## Section 3: The parameters picked by the initialisation -/

/-- `coprime` accepts exactly the values no listed factor divides. -/
theorem coprime_iff (w : Arith) (a : ℕ) (pfactors : List ℤ) :
    coprime w a pfactors = true ↔ ∀ fact ∈ pfactors, ¬ w.ofInt fact ∣ a := by
  induction pfactors with
  | nil => simp [coprime]
  | cons fact pfactors ih =>
    rw [coprime, List.forall_mem_cons, ← ih, Nat.dvd_iff_mod_eq_zero]
    split
    · next h => simp [h]
    · next h => simp [h]

/-- What a successful initialisation has checked and stored. -/
theorem init_incr_eq_some {w : Arith} {malloc : Bool} {seed period incr : ℕ}
    {pfactors : List ℤ} {s : rng_state}
    (h : rng_lcfc_init_incr w malloc seed period pfactors incr = .ok (some s)) :
    5 ≤ period ∧ coprime w incr pfactors = true ∧
      s = { last := seed, coeff := coeff w pfactors, incr := incr, mod := period } := by
  unfold rng_lcfc_init_incr at h
  split at h
  · cases h
  · split at h
    · cases h
    · split at h
      · cases h
      · split at h
        · cases h
        · next hlt _ hcop _ =>
          simp only [Except.ok.injEq, Option.some.injEq] at h
          exact ⟨by omega, by simpa using hcop, h.symm⟩

section init_incr
variable {w : Arith} {malloc : Bool} {period incr : ℕ} {pfactors : List ℤ}

theorem init_incr_assertion (seed : ℕ) (h5 : period < 5) :
    rng_lcfc_init_incr w malloc seed period pfactors incr = .error .period_at_least_5 :=
  if_pos h5

theorem init_incr_null (seed : ℕ) (h5 : 5 ≤ period) (hne : pfactors ≠ [])
    (hcop : coprime w incr pfactors = false) :
    rng_lcfc_init_incr w malloc seed period pfactors incr = .ok none := by
  unfold rng_lcfc_init_incr
  rw [if_neg (by omega), if_neg hne, hcop]
  rfl

/-- If an increment is accepted, only `malloc` can fail. -/
theorem init_incr_state (seed : ℕ) (h5 : 5 ≤ period) (hne : pfactors ≠ [])
    (hcop : coprime w incr pfactors = true) :
    ∃ s, rng_lcfc_init_incr w true seed period pfactors incr = .ok (some s) ∧
      s.mod = period := by
  unfold rng_lcfc_init_incr
  rw [if_neg (by omega), if_neg hne, hcop]
  exact ⟨_, rfl, rfl⟩

end init_incr

/-- The states that one of the two initialisations can return. -/
def Initialised (w : Arith) (period : ℕ) (pfactors : List ℤ) (s : rng_state) : Prop :=
  (∃ malloc seed incr,
    rng_lcfc_init_incr w malloc seed period pfactors incr = .ok (some s)) ∨
  (∃ fuel rand malloc seed,
    rng_lcfc_init w fuel rand malloc seed period pfactors = some (.ok (some s)))

/-- Both initialisations end in the same constructor, behind the same checks. -/
theorem Initialised.elim {w : Arith} {period : ℕ} {pfactors : List ℤ} {s : rng_state}
    (h : Initialised w period pfactors s) :
    ∃ seed incr, 5 ≤ period ∧ coprime w incr pfactors = true ∧
      s = { last := seed, coeff := coeff w pfactors, incr := incr, mod := period } := by
  have hincr : ∃ malloc seed incr,
      rng_lcfc_init_incr w malloc seed period pfactors incr = .ok (some s) := by
    rcases h with h | ⟨fuel, rand, malloc, seed, h⟩
    · exact h
    · unfold rng_lcfc_init at h
      obtain ⟨incr, -, hok⟩ := Option.map_eq_some_iff.mp h
      exact ⟨malloc, seed, incr, hok⟩
  obtain ⟨malloc, seed, incr, hok⟩ := hincr
  exact ⟨seed, incr, init_incr_eq_some hok⟩

/-- A list of nonnegative `int`s, as the factors of a period are. -/
def Factors (pfactors : List ℤ) : Prop := ∀ fact ∈ pfactors, 0 ≤ fact ∧ IsInt fact

/-- The exact product of the factors. -/
def prod (pfactors : List ℤ) : ℕ := (pfactors.map Int.toNat).prod

theorem foldl_coeff_modEq (w : Arith) {pfactors : List ℤ} (hf : Factors pfactors) (c : ℕ) :
    pfactors.foldl (fun c fact => w.wrap (c * w.ofInt fact)) c
      ≡ c * prod pfactors [MOD 2 ^ 32] := by
  induction pfactors generalizing c with
  | nil => simp [prod, Nat.ModEq]
  | cons fact pfactors ih =>
    obtain ⟨⟨h0, hint⟩, hf⟩ := List.forall_mem_cons.mp hf
    have hhead : w.wrap (c * w.ofInt fact) ≡ c * fact.toNat [MOD 2 ^ 32] := by
      rw [ofInt_of_isInt w h0 hint]
      exact wrap_modEq w _
    calc pfactors.foldl (fun c fact => w.wrap (c * w.ofInt fact)) (w.wrap (c * w.ofInt fact))
        ≡ w.wrap (c * w.ofInt fact) * prod pfactors [MOD 2 ^ 32] := ih hf _
      _ ≡ c * fact.toNat * prod pfactors [MOD 2 ^ 32] := hhead.mul_right _
      _ = c * prod (fact :: pfactors) := by simp [prod, Nat.mul_assoc]

/-- The coefficient is `4 * product + 1` up to the word size. -/
theorem coeff_modEq (w : Arith) {pfactors : List ℤ} (hf : Factors pfactors) :
    coeff w pfactors ≡ 4 * prod pfactors + 1 [MOD 2 ^ 32] :=
  (wrap_modEq w _).trans ((foldl_coeff_modEq w hf 4).add_right 1)

theorem coeff_exact (pfactors : List ℤ) : coeff .exact pfactors = 4 * prod pfactors + 1 := by
  have hfold : ∀ c, pfactors.foldl (fun c fact => c * fact.toNat) c = c * prod pfactors := by
    induction pfactors with
    | nil => simp [prod]
    | cons fact pfactors ih =>
      intro c
      rw [List.foldl_cons, ih]
      simp [prod, Nat.mul_assoc]
  exact congrArg (· + 1) (hfold 4)

theorem coeff_of_lt (w : Arith) {pfactors : List ℤ} (hf : Factors pfactors)
    (h : 4 * prod pfactors + 1 < 2 ^ 32) : coeff w pfactors = 4 * prod pfactors + 1 := by
  cases w with
  | exact => exact coeff_exact pfactors
  | u32 =>
    have hmod := coeff_modEq .u32 hf
    have hlt : coeff .u32 pfactors < 2 ^ 32 := Nat.mod_lt _ (by decide)
    exact Nat.ModEq.eq_of_lt_of_lt hmod hlt h

/-! ## Section 4: Full cycle -/

/-- What `rng.h` asks of the caller: the list holds `int`s and contains all
    prime factors of the period. -/
structure Complete (period : ℕ) (pfactors : List ℤ) : Prop where
  factors : Factors pfactors
  prime_mem : ∀ p : ℕ, p.Prime → p ∣ period → (p : ℤ) ∈ pfactors

/-- The factor list that `square_evictions` uses for its powers of two. -/
theorem complete_two_pow (k : ℕ) : Complete (2 ^ k) [2] where
  factors := by
    intro fact hfact
    rw [List.mem_singleton.mp hfact]
    decide
  prime_mem := by
    intro p hp hdvd
    have hp2 : p = 2 :=
      (Nat.prime_dvd_prime_iff_eq hp Nat.prime_two).mp (hp.dvd_of_dvd_pow hdvd)
    simp [hp2]

theorem prime_of_mem_two : ∀ p ∈ [(2 : ℤ)], IsInt p ∧ p.toNat.Prime := by
  intro p hp
  rw [List.mem_singleton.mp hp]
  exact ⟨by decide, Nat.prime_two⟩

section full_cycle
variable {period incr : ℕ} {pfactors : List ℤ}

/-- An accepted increment is coprime with the period. -/
theorem coprime_period {w : Arith} (hc : Complete period pfactors)
    (h : coprime w incr pfactors = true) : Nat.Coprime incr period := by
  by_contra hne
  obtain ⟨p, hp, hpg⟩ := Nat.exists_prime_and_dvd hne
  have hmem := hc.prime_mem p hp (dvd_trans hpg (Nat.gcd_dvd_right _ _))
  have hndvd := (coprime_iff w incr pfactors).mp h p hmem
  rw [ofInt_of_isInt w (by omega) (hc.factors p hmem).2, Int.toNat_natCast] at hndvd
  exact hndvd (dvd_trans hpg (Nat.gcd_dvd_left _ _))

/-- The exact parameters satisfy the Hull-Dobell theorem. -/
theorem hullDobell_exact {w : Arith} (hc : Complete period pfactors)
    (h : coprime w incr pfactors = true) :
    Lcg.HullDobell (4 * prod pfactors + 1) incr period where
  coprime := coprime_period hc h
  prime_dvd := by
    intro p hp hpm
    have hdvd : p ∣ prod pfactors := by
      apply List.dvd_prod
      exact List.mem_map.mpr ⟨p, hc.prime_mem p hp hpm, Int.toNat_natCast p⟩
    have : (p : ℤ) ∣ ((4 * prod pfactors : ℕ) : ℤ) :=
      Int.natCast_dvd_natCast.mpr (dvd_mul_of_dvd_right hdvd 4)
    simpa using this
  four_dvd := fun _ => ⟨prod pfactors, by push_cast; ring⟩

/-- For a power of two the wrapped coefficient still satisfies it. -/
theorem hullDobell_two_pow (w : Arith) {k : ℕ} (hc : Complete (2 ^ k) pfactors)
    (h : coprime w incr pfactors = true) :
    Lcg.HullDobell (coeff w pfactors) incr (2 ^ k) := by
  have hfour : (4 : ℤ) ∣ (coeff w pfactors : ℤ) - 1 := by
    have hmod : coeff w pfactors ≡ 4 * prod pfactors + 1 [MOD 4] :=
      (coeff_modEq w hc.factors).of_dvd (by decide)
    unfold Nat.ModEq at hmod
    omega
  refine ⟨coprime_period hc h, ?_, fun _ => hfour⟩
  intro p hp hpm
  have hp2 : p = 2 := (Nat.prime_dvd_prime_iff_eq hp Nat.prime_two).mp (hp.dvd_of_dvd_pow hpm)
  subst hp2
  exact dvd_trans (by decide) hfour

/-- A power-of-two period gives a single cycle, whatever wraps. -/
theorem singleCycle_two_pow (w : Arith) (seed : ℕ) {k : ℕ} (hk : k ≤ 32)
    (hc : Complete (2 ^ k) pfactors) (h : coprime w incr pfactors = true) :
    CycleMap.SingleCycle
      (next w { last := seed, coeff := coeff w pfactors, incr := incr, mod := 2 ^ k })
      (2 ^ k) := by
  rw [next_of_dvd w _ (pow_dvd_pow 2 hk)]
  exact (hullDobell_two_pow w hc h).singleCycle (Nat.two_pow_pos k)

/-- Parameters that cannot overflow the word give a single cycle. -/
theorem singleCycle_of_lt (w : Arith) (seed : ℕ) (hm : 2 ≤ period)
    (hc : Complete period pfactors) (h : coprime w incr pfactors = true)
    (hlt : (4 * prod pfactors + 1) * (period - 1) + incr < 2 ^ 32) :
    CycleMap.SingleCycle
      (next w { last := seed, coeff := coeff w pfactors, incr := incr, mod := period })
      period := by
  have hle : 4 * prod pfactors + 1 ≤ (4 * prod pfactors + 1) * (period - 1) :=
    Nat.le_mul_of_pos_right _ (by omega)
  have hcoeff : coeff w pfactors = 4 * prod pfactors + 1 := coeff_of_lt w hc.factors (by omega)
  refine ((hullDobell_exact hc h).singleCycle (by omega)).congr
    (fun x => next_lt w _ x (by simpa using (by omega : 0 < period))) ?_
  intro x hx
  rw [hcoeff]
  apply next_of_lt
  -- a state of the cycle is at most `period - 1`
  have hmul : (4 * prod pfactors + 1) * x ≤ (4 * prod pfactors + 1) * (period - 1) :=
    Nat.mul_le_mul_left _ (by omega)
  simp only
  omega

/-- Any window of one period lists `[0, mod)` exactly once. -/
theorem window_of_singleCycle {w : Arith} {s : rng_state}
    (hcycle : CycleMap.SingleCycle (next w s) s.mod) (k : ℕ) :
    (∀ r ∈ (results w s (k + s.mod)).drop k, r < s.mod) ∧
      ((results w s (k + s.mod)).drop k).Nodup ∧
      ((results w s (k + s.mod)).drop k).Perm (List.range s.mod) := by
  have hwindow : (results w s (k + s.mod)).drop k
      = CycleMap.draws (next w s) ((next w s)^[k] s.last) s.mod := by
    rw [results_eq_draws, CycleMap.draws_add, List.drop_left' (by simp)]
  rw [hwindow]
  exact ⟨fun r hr => hcycle.draws_lt hr, hcycle.nodup_draws _ (Nat.le_refl _),
    hcycle.draws_perm _⟩

/-- **Full cycle**: in 32-bit arithmetic, any `period` consecutive results of
    a generator whose factors are the primes of its period list `[0, period)`
    exactly once, if the period is a power of two or the parameters are small
    enough not to wrap.  The seed is any `unsigned`: only the first draw sees
    it, and that draw is reduced like every other. -/
theorem rng_lcfc_full_cycle {seed : ℕ} {s : rng_state} (hperiod : period < 2 ^ 32)
    (hprime : ∀ p ∈ pfactors, IsInt p ∧ p.toNat.Prime)
    (hall : ∀ p : ℕ, p.Prime → p ∣ period → (p : ℤ) ∈ pfactors)
    (hinit : rng_lcfc_init_incr .u32 true seed period pfactors incr = .ok (some s))
    (hwrap : (∃ k, period = 2 ^ k) ∨ (4 * prod pfactors + 1) * (period - 1) + incr < 2 ^ 32)
    (k : ℕ) :
    (∀ r ∈ (results .u32 s (k + period)).drop k, r < period) ∧
      ((results .u32 s (k + period)).drop k).Nodup ∧
      ((results .u32 s (k + period)).drop k).Perm (List.range period) := by
  obtain ⟨h5, hcop, rfl⟩ := init_incr_eq_some hinit
  have hc : Complete period pfactors := by
    refine ⟨fun p hp => ⟨?_, (hprime p hp).1⟩, hall⟩
    have := (hprime p hp).2.pos
    omega
  have hcycle : CycleMap.SingleCycle
      (next .u32 { last := seed, coeff := coeff .u32 pfactors, incr := incr, mod := period })
      period := by
    rcases hwrap with ⟨j, rfl⟩ | hlt
    · have hj : j < 32 := (Nat.pow_lt_pow_iff_right (by decide)).mp hperiod
      exact singleCycle_two_pow .u32 seed (by omega) hc hcop
    · exact singleCycle_of_lt .u32 seed (by omega) hc hcop hlt
  exact window_of_singleCycle hcycle k

/-- The full cycle on `rng_test 8 1 2` with increment 3, after two draws. -/
theorem rng_lcfc_full_cycle_eight :
    rng_lcfc_init_incr .u32 true 5 8 [2] 3
        = .ok (some { last := 5, coeff := 9, incr := 3, mod := 8 }) ∧
      ((results .u32 { last := 5, coeff := 9, incr := 3, mod := 8 } (2 + 8)).drop 2).Perm
        (List.range 8) := by
  have hinit : rng_lcfc_init_incr .u32 true 5 8 [2] 3
      = .ok (some { last := 5, coeff := 9, incr := 3, mod := 8 }) := by decide
  exact ⟨hinit, (rng_lcfc_full_cycle (by decide) prime_of_mem_two
    (complete_two_pow 3).prime_mem hinit (Or.inl ⟨3, rfl⟩) 2).2.2⟩

end full_cycle

end Rng
