import Catbench.Driver.Rearrange
import Catbench.Framework.Machine
import Catbench.Framework.Recursion

/-! # The core that is picked (`prep_system.c`)

    `pick_core` takes the remainder of its argument by the number of cores, and
    adds that number until the result is not negative; so `TRASH_CORE`, which is
    -1, would be the last core.  But the number of cores is unsigned, which makes
    the remainder one of unsigned integers: a negative argument counts as `2 ^ 32`
    more, and the loop has nothing to do.

    Theorem: the result is the Euclidean remainder iff the argument is not
    negative or the number of cores divides `2 ^ 32`.
-/

open Machine Recursion
open Rearrange (Cores CPU_SET CPU_SETSIZE requested_mask)

namespace PickCore

/-! ## Section 1: Model -/

/-- The core that the system's processes are moved to. -/
def TRASH_CORE : ℤ := -1

/-- `%` of an `int` and an `unsigned`. -/
def remainder (z : ℤ) (n : ℕ) : ℕ := Arith.u32.ofInt z % n

/-- `+` of an `int` and an `unsigned`. -/
def sum (z : ℤ) (n : ℕ) : ℕ := Arith.u32.wrap (Arith.u32.ofInt z + n)

/-- The loop makes at most so many tests. -/
def pick_core (num_cores : ℕ) (procs_go_where : ℤ) (fuel : ℕ) : Option ℤ :=
  whileLoop (fun cpu => cpu < 0) (fun cpu => toInt (sum cpu num_cores)) fuel
    (toInt (remainder procs_go_where num_cores))

/-- `pick_core` returns a core. -/
def Picks (num_cores : ℕ) (procs_go_where cpu : ℤ) : Prop :=
  ∃ fuel, pick_core num_cores procs_go_where fuel = some cpu

/-! ## Section 2: The remainder -/

variable {num_cores : ℕ} {procs_go_where cpu : ℤ}

/-- The loop ends at its first test. -/
theorem pick_core_eq (hpos : 1 ≤ num_cores) (hlt : num_cores < 2 ^ 31) (procs_go_where : ℤ)
    (fuel : ℕ) :
    pick_core num_cores procs_go_where (fuel + 1) =
      some (remainder procs_go_where num_cores : ℤ) := by
  have hrem : remainder procs_go_where num_cores < num_cores := Nat.mod_lt _ hpos
  have hint : toInt (remainder procs_go_where num_cores) = remainder procs_go_where num_cores :=
    toInt_of_lt (Nat.lt_trans hrem hlt)
  rw [pick_core, hint, whileLoop, if_neg (by simp)]

theorem picks_iff (hpos : 1 ≤ num_cores) (hlt : num_cores < 2 ^ 31) :
    Picks num_cores procs_go_where cpu ↔ cpu = (remainder procs_go_where num_cores : ℤ) := by
  constructor
  · intro h
    obtain ⟨fuel, hfuel⟩ := h
    cases fuel with
    | zero => cases hfuel
    | succ fuel =>
      rw [pick_core_eq hpos hlt] at hfuel
      exact (Option.some.inj hfuel).symm
  · intro h
    exact ⟨1, by rw [h, pick_core_eq hpos hlt]⟩

/-- Without its loop the function is what `rearrange_processes` was given. -/
theorem picks_rearrange (hpos : 1 ≤ num_cores) (hlt : num_cores < 2 ^ 31) (procs_go_where : ℤ) :
    Picks num_cores procs_go_where (Rearrange.pick_core num_cores procs_go_where) :=
  (picks_iff hpos hlt).mpr rfl

theorem remainder_modEq_iff (hint : IsInt procs_go_where) :
    (remainder procs_go_where num_cores : ℤ) ≡ procs_go_where [ZMOD num_cores] ↔
      0 ≤ procs_go_where ∨ num_cores ∣ 2 ^ 32 := by
  rw [← ofInt_u32_modEq_iff hint, remainder, Int.natCast_mod]
  exact ⟨fun h => (Int.mod_modEq _ _).symm.trans h, fun h => (Int.mod_modEq _ _).trans h⟩

/-- **Euclidean remainder**: a core in range that is congruent to the argument is
    picked, iff the argument is not negative or the number of cores divides the word
    size. -/
theorem pick_core_euclidean_iff (hint : IsInt procs_go_where) (hpos : 1 ≤ num_cores)
    (hlt : num_cores < 2 ^ 31) :
    (∃ cpu, Picks num_cores procs_go_where cpu ∧ 0 ≤ cpu ∧ cpu < num_cores ∧
      cpu ≡ procs_go_where [ZMOD num_cores]) ↔ 0 ≤ procs_go_where ∨ num_cores ∣ 2 ^ 32 := by
  rw [← remainder_modEq_iff hint]
  constructor
  · intro h
    obtain ⟨cpu, hpicks, -, -, hmod⟩ := h
    rwa [(picks_iff hpos hlt).mp hpicks] at hmod
  · intro hmod
    have hrem : remainder procs_go_where num_cores < num_cores := Nat.mod_lt _ hpos
    exact ⟨_, (picks_iff hpos hlt).mpr rfl, by omega, by omega, hmod⟩

/-- Core -1 of eight is the last one. -/
theorem pick_core_euclidean_eight :
    ∃ cpu, Picks 8 TRASH_CORE cpu ∧ 0 ≤ cpu ∧ cpu < (8 : ℕ) ∧ cpu ≡ TRASH_CORE [ZMOD (8 : ℕ)] :=
  (pick_core_euclidean_iff (by decide) (by decide) (by decide)).mpr (.inr (by decide))

/-- Of twelve cores it is core 3. -/
theorem pick_core_euclidean_twelve :
    Picks 12 TRASH_CORE 3 ∧ ¬∃ cpu, Picks 12 TRASH_CORE cpu ∧ 0 ≤ cpu ∧ cpu < (12 : ℕ) ∧
      cpu ≡ TRASH_CORE [ZMOD (12 : ℕ)] := by
  have hpos : 1 ≤ 12 := by decide
  have hpicks : ∀ {cpu}, Picks 12 TRASH_CORE cpu ↔ cpu = 3 := picks_iff hpos (by decide)
  refine ⟨hpicks.mpr rfl, fun h => ?_⟩
  obtain ⟨cpu, hcpu, -, -, hmod⟩ := h
  rw [hpicks.mp hcpu] at hmod
  exact absurd hmod (by decide)

/-- The trash core is the last core iff the number of cores is a power of two. -/
theorem trash_mask_iff (hpos : 1 ≤ num_cores) (hfits : num_cores ≤ CPU_SETSIZE) :
    requested_mask false TRASH_CORE num_cores = {num_cores - 1} ↔ num_cores ∣ 2 ^ 32 := by
  have hrem : remainder TRASH_CORE num_cores < num_cores := Nat.mod_lt _ hpos
  have hmask : requested_mask false TRASH_CORE num_cores = {remainder TRASH_CORE num_cores} := by
    show CPU_SET (remainder TRASH_CORE num_cores) ∅ = _
    rw [CPU_SET, if_pos (by omega)]
    rfl
  have hmod : (remainder TRASH_CORE num_cores : ℤ) ≡ TRASH_CORE [ZMOD num_cores] ↔
      0 ≤ TRASH_CORE ∨ num_cores ∣ 2 ^ 32 := remainder_modEq_iff (by decide)
  rw [or_iff_right (by decide)] at hmod
  have hdiff : TRASH_CORE - remainder TRASH_CORE num_cores =
      -((remainder TRASH_CORE num_cores + 1 : ℕ) : ℤ) := by
    rw [TRASH_CORE]
    omega
  rw [hmask, Finset.singleton_inj, ← hmod, Int.modEq_iff_dvd, hdiff, Int.dvd_neg,
    Int.natCast_dvd_natCast]
  constructor
  · intro heq
    rw [heq, Nat.sub_add_cancel hpos]
  · intro hdvd
    have := Nat.le_of_dvd (Nat.succ_pos _) hdvd
    omega

end PickCore
