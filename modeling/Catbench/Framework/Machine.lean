import Mathlib.Data.Int.ModEq
import Mathlib.Data.Nat.ModEq
import Mathlib.Tactic.Common

/-! # Machine integers of C

    Expressions of type `unsigned` are evaluated over `ℕ` and reduced after
    every operation.  The reduction is a parameter, so that the same program
    text can be read with 32-bit words, as it is compiled, and with exact
    arithmetic, which is what its author had in mind where no operation was
    meant to wrap.

    Values of type `int` are elements of `ℤ` inside the range `IsInt`.
-/

namespace Machine

/-- How `unsigned` arithmetic is evaluated. -/
inductive Arith where
  /-- Words of 32 bits: every result is reduced modulo `2 ^ 32`. -/
  | u32
  /-- Unbounded arithmetic, nothing wraps. -/
  | exact
  deriving DecidableEq, Repr

/-- The reduction applied to the result of an operation. -/
def Arith.wrap : Arith → ℕ → ℕ
  | .u32, n => n % 2 ^ 32
  | .exact, n => n

/-- Conversion of an `int` to `unsigned`. -/
def Arith.ofInt : Arith → ℤ → ℕ
  | .u32, z => (z % 2 ^ 32).toNat
  | .exact, z => z.toNat

/-- Conversion of an `unsigned` to `int`, which keeps the low bits. -/
def toInt (n : ℕ) : ℤ := Int.bmod n (2 ^ 32)

/-- The range of C's `int`. -/
def IsInt (z : ℤ) : Prop := -2 ^ 31 ≤ z ∧ z < 2 ^ 31

instance (z : ℤ) : Decidable (IsInt z) := inferInstanceAs (Decidable (_ ∧ _))

@[simp] theorem wrap_exact (n : ℕ) : Arith.exact.wrap n = n := rfl

theorem wrap_of_lt (w : Arith) {n : ℕ} (h : n < 2 ^ 32) : w.wrap n = n := by
  cases w with
  | u32 => exact Nat.mod_eq_of_lt h
  | exact => rfl

/-- Wrapping does not change the residue of a word. -/
theorem wrap_modEq (w : Arith) (n : ℕ) : w.wrap n ≡ n [MOD 2 ^ 32] := by
  cases w with
  | u32 => exact Nat.mod_modEq n _
  | exact => rfl

/-- Modulo a divisor of the word size, wrapping is invisible. -/
theorem wrap_mod_of_dvd (w : Arith) {m : ℕ} (hm : m ∣ 2 ^ 32) (n : ℕ) :
    w.wrap n % m = n % m := (wrap_modEq w n).of_dvd hm

/-- A nonnegative `int` keeps its value as an `unsigned`. -/
theorem ofInt_of_isInt (w : Arith) {z : ℤ} (h0 : 0 ≤ z) (hz : IsInt z) :
    w.ofInt z = z.toNat := by
  cases w with
  | u32 =>
    have hlt : z < 2 ^ 32 := by have := hz.2; omega
    simp only [Arith.ofInt, Int.emod_eq_of_lt h0 hlt]
  | exact => rfl

/-- An `unsigned` that fits keeps its value as an `int`. -/
theorem toInt_of_lt {n : ℕ} (h : n < 2 ^ 31) : toInt n = n :=
  Int.bmod_eq_of_le_mul_two (by omega) (by omega)

/-- As a word, an `int` is itself or `2 ^ 32` more. -/
theorem ofInt_u32 {z : ℤ} (hz : IsInt z) :
    (Arith.u32.ofInt z : ℤ) = if 0 ≤ z then z else z + 2 ^ 32 := by
  obtain ⟨hlow, hhigh⟩ := hz
  have hmod : 0 ≤ z % 2 ^ 32 := Int.emod_nonneg z (by decide)
  rw [Arith.ofInt, Int.toNat_of_nonneg hmod]
  split <;> omega

/-- The remainder by a word is the one of the `int` iff the conversion does not
    matter: the `int` is not negative, or the divisor divides the word size. -/
theorem ofInt_u32_modEq_iff {z : ℤ} (hz : IsInt z) (n : ℕ) :
    (Arith.u32.ofInt z : ℤ) ≡ z [ZMOD n] ↔ 0 ≤ z ∨ n ∣ 2 ^ 32 := by
  rw [ofInt_u32 hz]
  by_cases h0 : 0 ≤ z
  · rw [if_pos h0]
    exact ⟨fun _ => .inl h0, fun _ => rfl⟩
  · have hdiff : z + 2 ^ 32 - z = ((2 ^ 32 : ℕ) : ℤ) := by omega
    rw [if_neg h0, or_iff_right h0, Int.modEq_comm, Int.modEq_iff_dvd, hdiff,
      Int.natCast_dvd_natCast]

end Machine
