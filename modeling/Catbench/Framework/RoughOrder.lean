import Mathlib.Algebra.Order.Group.Defs
import Mathlib.Data.List.Nodup
import Mathlib.Tactic.Abel

/-! # Lists that are sorted up to a tolerance

    Values that differ by at most the tolerance may stand in either order;
    of two that differ by more, the smaller one comes first.
-/

namespace RoughOrder

variable {N M : Type*} [AddCommGroup M] [LinearOrder M]

/-- No entry comes after one whose value is greater by more than `t`. -/
def Sorted (f : N → M) (t : M) (l : List N) : Prop := l.Pairwise fun a b => f a ≤ f b + t

variable {f : N → M} {t : M}

theorem Sorted.append {l l' : List N} (hl : Sorted f t l) (hl' : Sorted f t l')
    (h : ∀ a ∈ l, ∀ b ∈ l', f a ≤ f b + t) : Sorted f t (l ++ l') :=
  List.pairwise_append.mpr ⟨hl, hl', h⟩

/-- Entries close to one another may come in any order. -/
theorem sorted_of_close {l : List N} (h : ∀ a ∈ l, ∀ b ∈ l, f a ≤ f b + t) : Sorted f t l :=
  List.pairwise_of_forall_mem_list h

/-- Read backwards, a list is sorted by the opposite values. -/
theorem Sorted.reverse [IsOrderedAddMonoid M] {l : List N} (hl : Sorted f t l) :
    Sorted (fun a => -f a) t l.reverse := by
  refine List.pairwise_reverse.mpr (hl.imp fun {a b} h => ?_)
  have := sub_le_sub_right h (f a + f b)
  calc -f b = f a - (f a + f b) := by abel
    _ ≤ f b + t - (f a + f b) := this
    _ = -f a + t := by abel

/-- Of two entries that are apart, the one with the smaller value is found
    first. -/
theorem Sorted.idxOf_lt [DecidableEq N] {l : List N} (hl : Sorted f t l) {x y : N}
    (hx : x ∈ l) (hy : y ∈ l) (hne : x ≠ y) (h : f x + t < f y) : l.idxOf x < l.idxOf y := by
  have hxl := List.idxOf_lt_length_of_mem hx
  have hyl := List.idxOf_lt_length_of_mem hy
  rcases lt_trichotomy (l.idxOf x) (l.idxOf y) with hlt | heq | hgt
  · exact hlt
  · exact absurd ((List.idxOf_inj hx).mp heq) hne
  · have hle := List.pairwise_iff_getElem.mp hl _ _ hyl hxl hgt
    rw [List.getElem_idxOf, List.getElem_idxOf] at hle
    exact absurd hle (not_le.mpr h)

end RoughOrder
