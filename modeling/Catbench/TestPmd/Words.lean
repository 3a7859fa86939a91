import Catbench.Framework.Checksum
import Catbench.TestPmd.Mbuf

/-! # Checksums of messages

    The checksum of a message is over its words in the order of the network.  The
    code adds the words as the machine loads them, with the low byte first.
-/

open Checksum

namespace TestPmd

/-- A word of a message of `len` bytes, in the order of the network; an odd byte at the
    end is the high one. -/
def word (seg : Segment) (off len k : ℕ) : ℕ :=
  256 * (if 2 * k < len then seg.byte (off + 2 * k) else 0) +
    if 2 * k + 1 < len then seg.byte (off + 2 * k + 1) else 0

/-- The checksum in the `len` bytes at `off` is right. -/
def MessageChecks (seg : Segment) (off len : ℕ) : Prop :=
  Checks ((List.range ((len + 1) / 2)).map (word seg off len)).sum

instance (seg : Segment) (off len : ℕ) : Decidable (MessageChecks seg off len) :=
  inferInstanceAs (Decidable (Checks _))

section words

variable {seg seg' : Segment} {off len : ℕ}

theorem word_lt (seg : Segment) (off len k : ℕ) : word seg off len k < 65536 := by
  have hhigh := seg.byte_lt (off + 2 * k)
  have hlow := seg.byte_lt (off + 2 * k + 1)
  unfold word
  split_ifs <;> omega

theorem swap_word {k : ℕ} (h : 2 * k + 1 < len) :
    swap (word seg off len k) = seg.le16 (off + 2 * k) := by
  have hhigh := seg.byte_lt (off + 2 * k)
  have hlow := seg.byte_lt (off + 2 * k + 1)
  unfold swap word Segment.le16
  rw [if_pos (by omega), if_pos h]
  omega

/-- The message checks as the machine reads it. -/
theorem messageChecks_swap : MessageChecks seg off len ↔
    Checks ((List.range ((len + 1) / 2)).map fun k => swap (word seg off len k)).sum := by
  unfold MessageChecks
  rw [← checks_swap, List.map_map]
  · rfl
  · intro w hw
    obtain ⟨k, -, rfl⟩ := List.mem_map.mp hw
    exact word_lt seg off len k

/-- The words of a message of `n` words, as the machine loads them. -/
def wordSum (seg : Segment) (off n : ℕ) : ℕ :=
  ((List.range n).map fun k => seg.le16 (off + 2 * k)).sum

theorem messageChecks_even {n : ℕ} :
    MessageChecks seg off (2 * n) ↔ Checks (wordSum seg off n) := by
  have hn : (2 * n + 1) / 2 = n := by omega
  rw [messageChecks_swap, hn, wordSum]
  have hword : ∀ k ∈ List.range n, swap (word seg off (2 * n) k) = seg.le16 (off + 2 * k) := by
    intro k hk
    have hk := List.mem_range.mp hk
    exact swap_word (by omega)
  rw [List.map_congr_left hword]

theorem wordSum_succ {n : ℕ} :
    wordSum seg off (n + 1) = wordSum seg off n + seg.le16 (off + 2 * n) := by
  unfold wordSum
  rw [List.range_succ, List.map_append, List.sum_append, List.map_singleton, List.sum_singleton]

/-- A sum of which one summand grows. -/
theorem sum_range_update {f g : ℕ → ℕ} {n k v : ℕ} (hk : k < n) (hsame : ∀ i, i ≠ k → g i = f i)
    (hgrow : g k = f k + v) :
    ((List.range n).map g).sum = ((List.range n).map f).sum + v := by
  induction n with
  | zero => omega
  | succ n ih =>
    simp only [List.range_succ, List.map_append, List.sum_append, List.map_singleton,
      List.sum_singleton]
    rcases Nat.lt_or_eq_of_le (Nat.lt_succ_iff.mp hk) with hlt | rfl
    · rw [ih hlt, hsame n (by omega)]
      omega
    · have hfront : (List.range k).map g = (List.range k).map f := by
        apply List.map_congr_left
        intro i hi
        exact hsame i (List.mem_range.mp hi).ne
      rw [hfront, hgrow]
      omega

/-- A word stored over a zero. -/
theorem wordSum_store {n k w : ℕ} (hk : k < n) (hzero : seg.le16 (off + 2 * k) = 0)
    (hw : w < 65536) :
    wordSum (seg.store_le16 (off + 2 * k) w) off n = wordSum seg off n + w := by
  apply sum_range_update hk
  · intro i hi
    exact Segment.le16_store_le16_of_disjoint (by omega)
  · rw [Segment.le16_store_le16 hw, hzero, Nat.zero_add]

theorem messageChecks_congr (h : ∀ i < len, seg'.byte (off + i) = seg.byte (off + i)) :
    MessageChecks seg' off len ↔ MessageChecks seg off len := by
  have hword : ∀ k, word seg' off len k = word seg off len k := by
    intro k
    unfold word
    split_ifs with hhigh hlow hlow
    · rw [h _ hhigh, Nat.add_assoc, h _ hlow]
    · rw [h _ hhigh]
    · omega
    · rfl
  unfold MessageChecks
  rw [funext hword]

end words

end TestPmd
