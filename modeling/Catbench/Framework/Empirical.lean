import Mathlib.Algebra.Order.Field.Rat
import Mathlib.Data.Nat.Cast.Order.Field
import Mathlib.Data.List.Perm.Basic

/-! # Empirical distributions

    The fractions of a list of samples that are at most, or below, a value.

    * **Order**: neither depends on the order of the samples.
    * **Splitting**: a value that separates the first samples from the others
      has the fraction of the first ones.
-/

namespace Empirical

variable {α : Type} [LinearOrder α]

/-- The fraction of the samples that are at most `x`. -/
def upTo (samples : List α) (x : α) : ℚ := (samples.countP (· ≤ x) : ℚ) / samples.length

/-- The fraction of the samples that are below `x`. -/
def below (samples : List α) (x : α) : ℚ := (samples.countP (· < x) : ℚ) / samples.length

/-! ## Order -/

theorem upTo_perm {samples samples' : List α} (h : samples.Perm samples') (x : α) :
    upTo samples x = upTo samples' x := by
  unfold upTo
  rw [h.countP_eq, h.length_eq]

theorem below_perm {samples samples' : List α} (h : samples.Perm samples') (x : α) :
    below samples x = below samples' x := by
  unfold below
  rw [h.countP_eq, h.length_eq]

/-! ## Splitting -/

variable {before after : List α} {x : α}

theorem upTo_of_split (hbefore : ∀ s ∈ before, s ≤ x) (hafter : ∀ s ∈ after, x < s) :
    upTo (before ++ after) x = (before.length : ℚ) / (before ++ after).length := by
  have hall : before.countP (· ≤ x) = before.length := by
    apply List.countP_eq_length.mpr
    intro s hs
    exact decide_eq_true (hbefore s hs)
  have hnone : after.countP (· ≤ x) = 0 := by
    apply List.countP_eq_zero.mpr
    intro s hs
    simpa using hafter s hs
  unfold upTo
  rw [List.countP_append, hall, hnone, Nat.add_zero]

theorem below_of_split (hbefore : ∀ s ∈ before, s < x) (hafter : ∀ s ∈ after, x ≤ s) :
    below (before ++ after) x = (before.length : ℚ) / (before ++ after).length := by
  have hall : before.countP (· < x) = before.length := by
    apply List.countP_eq_length.mpr
    intro s hs
    exact decide_eq_true (hbefore s hs)
  have hnone : after.countP (· < x) = 0 := by
    apply List.countP_eq_zero.mpr
    intro s hs
    simpa using hafter s hs
  unfold below
  rw [List.countP_append, hall, hnone, Nat.add_zero]

end Empirical
