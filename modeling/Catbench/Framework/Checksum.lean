import Mathlib.Algebra.BigOperators.Group.List.Lemmas
import Mathlib.Data.Nat.ModEq
import Mathlib.Tactic.Common

/-! # Checksums of 16 bits in ones' complement

    The words of a text are added, the carries are added to the sum, and its
    complement is the checksum: with the checksum the sum of the words is all
    ones.  Up to the value zero, which no text with a one has, these sums are
    residues modulo `2 ^ 16 - 1`.

    * **Reduction**: adding the carries keeps the residue.
    * **Complement**: what makes a sum check, and that it may be updated.
    * **Byte order**: a sum checks in one order of the bytes iff it does in the other.
-/

namespace Checksum

/-- The carries added to the low word, once. -/
def fold (n : ℕ) : ℕ := n % 65536 + n / 65536

/-- Until there is none. -/
def reduce (n : ℕ) : ℕ :=
  if n < 65536 then n else reduce (fold n)
termination_by n
decreasing_by unfold fold; omega

/-- The complement of a word. -/
def complement (n : ℕ) : ℕ := 65535 - n

/-- A sum that is reduced to all ones. -/
def Checks (sum : ℕ) : Prop := 0 < sum ∧ sum % 65535 = 0

instance (sum : ℕ) : Decidable (Checks sum) := inferInstanceAs (Decidable (_ ∧ _))

/-! ## Reduction -/

theorem fold_modEq (n : ℕ) : fold n ≡ n [MOD 65535] := by
  show (n % 65536 + n / 65536) % 65535 = n % 65535
  omega

theorem fold_pos {n : ℕ} : 0 < fold n ↔ 0 < n := by
  unfold fold
  omega

/-- A sum of at most as many words as a word can count is reduced in two steps. -/
theorem fold_fold_lt {n : ℕ} (h : n < 65536 * 65536) : fold (fold n) < 65536 := by
  unfold fold
  omega

/-- As many words as a word can count. -/
theorem sum_lt {ws : List ℕ} (h : ∀ w ∈ ws, w < 65536) (hlen : ws.length ≤ 65536) :
    ws.sum < 65536 * 65536 := by
  have hsum : ws.sum ≤ ws.length * 65535 := by
    clear hlen
    induction ws with
    | nil => exact Nat.zero_le _
    | cons w ws ih =>
      have hw := h w List.mem_cons_self
      have hrest := ih fun v hv => h v (List.mem_cons_of_mem w hv)
      rw [List.sum_cons, List.length_cons]
      omega
  omega

theorem reduce_spec (n : ℕ) : reduce n < 65536 ∧ reduce n ≡ n [MOD 65535] ∧
    (0 < reduce n ↔ 0 < n) := by
  induction n using reduce.induct with
  | case1 n h =>
    rw [reduce, if_pos h]
    exact ⟨h, Nat.ModEq.refl n, Iff.rfl⟩
  | case2 n h ih =>
    rw [reduce, if_neg h]
    exact ⟨ih.1, ih.2.1.trans (fold_modEq n), ih.2.2.trans fold_pos⟩

/-! ## Complement -/

/-- The complement of a reduced sum makes the sum check. -/
theorem checks_add_complement {sum r : ℕ} (hr : r < 65536) (hmod : r ≡ sum [MOD 65535])
    (hpos : 0 < r ↔ 0 < sum) : Checks (sum + complement r) := by
  have hmod : r % 65535 = sum % 65535 := hmod
  unfold Checks complement
  omega

/-- The two bytes of a word exchanged. -/
def swap (w : ℕ) : ℕ := w % 256 * 256 + w / 256

theorem swap_modEq (w : ℕ) : swap w ≡ 256 * w [MOD 65535] := by
  show swap w % 65535 = 256 * w % 65535
  unfold swap
  omega

theorem swap_pos {w : ℕ} : 0 < swap w ↔ 0 < w := by
  unfold swap
  omega

theorem sum_swap {ws : List ℕ} (h : ∀ w ∈ ws, w < 65536) :
    (ws.map swap).sum ≡ 256 * ws.sum [MOD 65535] ∧ (0 < (ws.map swap).sum ↔ 0 < ws.sum) := by
  induction ws with
  | nil => simp [Nat.ModEq.refl]
  | cons w ws ih =>
    obtain ⟨hmod, hpos⟩ := ih fun v hv => h v (List.mem_cons_of_mem w hv)
    have hw := swap_modEq w
    have hwpos : 0 < swap w ↔ 0 < w := swap_pos
    rw [List.map_cons, List.sum_cons, List.sum_cons, Nat.mul_add]
    exact ⟨hw.add hmod, by omega⟩

/-- A text checks whichever byte of a word comes first. -/
theorem checks_swap {ws : List ℕ} (h : ∀ w ∈ ws, w < 65536) :
    Checks (ws.map swap).sum ↔ Checks ws.sum := by
  obtain ⟨hmod, hpos⟩ := sum_swap h
  have hmod : (ws.map swap).sum % 65535 = 256 * ws.sum % 65535 := hmod
  unfold Checks
  rw [hpos]
  -- 256 is a unit modulo 65535
  refine and_congr_right fun _ => ?_
  omega

end Checksum
