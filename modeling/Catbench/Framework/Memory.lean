import Mathlib.Logic.Function.Basic
import Mathlib.Tactic.Common

/-! # A mapped region of memory

    A region is mapped at an address, and holds words of 64 bits.  Loads and
    stores are of whole words at multiples of the word size from the beginning;
    outside of the region they fault.

    * **Access**: what a load finds after a store.
    * **Remapping**: a region that is resized, and may move, keeps its words.
-/

namespace Memory

/-- A region; the words beyond its size mean nothing. -/
structure Region where
  base : ℕ
  /-- In bytes. -/
  size : ℕ
  word : ℕ → ℕ

namespace Region

/-- The number of the word at an address. -/
def index (m : Region) (addr : ℕ) : Option ℕ :=
  if m.base ≤ addr ∧ addr + 8 ≤ m.base + m.size ∧ 8 ∣ addr - m.base then
    some ((addr - m.base) / 8)
  else none

def set (m : Region) (i value : ℕ) : Region := { m with word := Function.update m.word i value }

/-- A fault is `none`. -/
def load (m : Region) (addr : ℕ) : Option ℕ := (m.index addr).map m.word

def store (m : Region) (addr value : ℕ) : Option Region := (m.index addr).map (m.set · value)

/-- A fresh region is filled with zeros. -/
def fresh (base size : ℕ) : Region := ⟨base, size, fun _ => 0⟩

/-- The region at its new address, with zeros in what was added. -/
def resized (m : Region) (base size : ℕ) : Region :=
  ⟨base, size, fun i => if 8 * i + 8 ≤ m.size then m.word i else 0⟩

/-- `mremap`, when it succeeds; it is only given whole regions. -/
def remap (m : Region) (old_address old_size new_size new_address : ℕ) : Option Region :=
  if old_address = m.base ∧ old_size = m.size then some (m.resized new_address new_size) else none

variable {m : Region} {i j value : ℕ}

@[simp] theorem set_base : (m.set i value).base = m.base := rfl

@[simp] theorem set_size : (m.set i value).size = m.size := rfl

@[simp] theorem set_word_self : (m.set i value).word i = value := Function.update_self ..

theorem set_word_of_ne (h : j ≠ i) : (m.set i value).word j = m.word j :=
  Function.update_of_ne h ..

theorem index_word {addr : ℕ} (haddr : addr = m.base + 8 * i) (h : 8 * i + 8 ≤ m.size) :
    m.index addr = some i := by
  have hi : addr - m.base = 8 * i := by omega
  rw [index, hi, if_pos ⟨by omega, by omega, Nat.dvd_mul_right 8 i⟩,
    Nat.mul_div_cancel_left i (by decide)]

/-- A word inside the region can be loaded. -/
theorem load_word {addr : ℕ} (haddr : addr = m.base + 8 * i) (h : 8 * i + 8 ≤ m.size) :
    m.load addr = some (m.word i) := by
  rw [load, index_word haddr h]
  rfl

/-- A word inside the region can be stored. -/
theorem store_word {addr : ℕ} (haddr : addr = m.base + 8 * i) (h : 8 * i + 8 ≤ m.size) :
    m.store addr value = some (m.set i value) := by
  rw [store, index_word haddr h]
  rfl

@[simp] theorem resized_base {base size : ℕ} : (m.resized base size).base = base := rfl

@[simp] theorem resized_size {base size : ℕ} : (m.resized base size).size = size := rfl

/-- A region that grows keeps its words. -/
theorem resized_word {base size : ℕ} (h : 8 * i + 8 ≤ m.size) :
    (m.resized base size).word i = m.word i := if_pos h

end Region

end Memory
