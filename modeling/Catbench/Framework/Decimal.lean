import Mathlib.Data.List.Basic
import Mathlib.Data.List.Induction
import Mathlib.Tactic.Common

/-! # Decimal numerals

    A numeral has the value of `Nat.ofDigitChars`.  Zeros in front do not count
    (`ofDigitChars_dropZeros`), and nothing else is ambiguous: numerals of one
    value are the same after their leading zeros (`dropZeros_eq_of_value_eq`).
-/

namespace Decimal

def value (ds : List Char) : ℕ := Nat.ofDigitChars 10 ds 0

def Digits (ds : List Char) : Prop := ∀ c ∈ ds, c.isDigit = true

/-- The numeral without its leading zeros; nothing is left of zero itself. -/
def dropZeros (ds : List Char) : List Char := ds.dropWhile (· = '0')

/-- The value of a digit. -/
theorem toNat_of_isDigit {c : Char} (h : c.isDigit = true) : 48 ≤ c.toNat ∧ c.toNat < 58 := by
  rw [Char.isDigit, Bool.and_eq_true, decide_eq_true_iff, decide_eq_true_iff] at h
  have h₁ := UInt32.le_iff_toNat_le.mp h.1
  have h₂ := UInt32.le_iff_toNat_le.mp h.2
  simp only [Char.toNat]
  exact ⟨h₁, Nat.lt_succ_of_le h₂⟩

theorem value_concat (ds : List Char) (c : Char) :
    value (ds ++ [c]) = 10 * value ds + (c.toNat - 48) := by
  rw [value, Nat.ofDigitChars_append, Nat.ofDigitChars_cons, Nat.ofDigitChars_nil, value]
  rfl

theorem value_dropZeros (ds : List Char) : value (dropZeros ds) = value ds := by
  induction ds with
  | nil => rfl
  | cons c ds ih =>
    by_cases hc : c = '0'
    · subst hc
      rw [dropZeros, List.dropWhile_cons_of_pos (by simp), ← dropZeros, ih, value, value,
        Nat.ofDigitChars_cons]
      rfl
    · rw [dropZeros, List.dropWhile_cons_of_neg (by simpa using hc)]

theorem head_dropZeros (ds : List Char) : (dropZeros ds).head? ≠ some '0' := by
  intro h
  have hhead := List.head?_dropWhile_not (fun c => decide (c = '0')) ds
  rw [← dropZeros] at hhead
  rw [h] at hhead
  simp at hhead

theorem digits_dropZeros {ds : List Char} (h : Digits ds) : Digits (dropZeros ds) :=
  fun c hc => h c ((List.dropWhile_suffix _).subset hc)

/-- A numeral without leading zeros is not zero. -/
theorem eq_nil_of_value_eq_zero {ds : List Char} (h : Digits ds) (hhead : ds.head? ≠ some '0')
    (hzero : value ds = 0) : ds = [] := by
  induction ds using List.reverseRecOn with
  | nil => rfl
  | append_singleton ds c ih =>
    rw [value_concat] at hzero
    have hds : ds = [] := by
      refine ih (fun d hd => h d (by simp [hd])) (fun hd => hhead ?_) (by omega)
      rw [List.head?_append, hd]
      rfl
    -- The one digit would be a zero.
    have hc := toNat_of_isDigit (h c (by simp))
    have hzero' : c.toNat = '0'.toNat := by
      show c.toNat = 48
      omega
    rw [hds, Char.toNat_inj.mp hzero'] at hhead
    exact absurd rfl hhead

/-- Numerals of one value are the same, but for leading zeros. -/
theorem eq_of_value_eq {ds es : List Char} (hds : Digits ds) (hes : Digits es)
    (hdhead : ds.head? ≠ some '0') (hehead : es.head? ≠ some '0') (h : value ds = value es) :
    ds = es := by
  -- Digit by digit, from the end.
  induction ds using List.reverseRecOn generalizing es with
  | nil => exact (eq_nil_of_value_eq_zero hes hehead h.symm).symm
  | append_singleton ds c ih =>
    rcases List.eq_nil_or_concat' es with rfl | ⟨es, e, rfl⟩
    · exact eq_nil_of_value_eq_zero hds hdhead h
    · rw [value_concat, value_concat] at h
      have hc := toNat_of_isDigit (hds c (by simp))
      have he := toNat_of_isDigit (hes e (by simp))
      have hce : c = e := Char.toNat_inj.mp (by omega)
      have hrest : ds = es := by
        refine ih (fun d hd => hds d (by simp [hd])) (fun d hd => hes d (by simp [hd]))
          (fun hd => hdhead ?_) (fun hd => hehead ?_) (by omega)
        · rw [List.head?_append, hd]
          rfl
        · rw [List.head?_append, hd]
          rfl
      rw [hrest, hce]

theorem dropZeros_eq_of_value_eq {ds es : List Char} (hds : Digits ds) (hes : Digits es)
    (h : value ds = value es) : dropZeros ds = dropZeros es :=
  eq_of_value_eq (digits_dropZeros hds) (digits_dropZeros hes) (head_dropZeros ds)
    (head_dropZeros es) (by rw [value_dropZeros, value_dropZeros, h])

theorem dropZeros_of_value_eq_zero {ds : List Char} (hds : Digits ds) (h : value ds = 0) :
    dropZeros ds = [] :=
  eq_nil_of_value_eq_zero (digits_dropZeros hds) (head_dropZeros ds) (by rw [value_dropZeros, h])

end Decimal
