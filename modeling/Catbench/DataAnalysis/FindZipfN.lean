import Catbench.Framework.Recursion
import Mathlib.Analysis.PSeries
import Mathlib.Tactic.Linarith

/-! # The size of a table for a hit rate (`find_zipf_N.py`)

    The script looks for the least `N` for which the items that fit into the
    cache are requested with at most the given probability when the requests
    are Zipf distributed over `N` items.

    The sums are exact here, and the exponent is a natural number.  The sum
    that the script waits for need not be reached: from the exponent 2 on the
    sums are bounded.
-/

namespace FindZipfN

open Finset

/-! ## Section 1: Model -/

def BYTES_PER_ITEM : ℚ := 56

/-- The body of both `for` loops. -/
def add_term (zipf_alpha : ℕ) (sum : ℚ) (i : ℕ) : ℚ := sum + 1 / (i : ℚ) ^ zipf_alpha

/-- The variables of the `while` loop. -/
structure State where
  lhs : ℚ
  prevN : ℕ
  N : ℕ
  deriving DecidableEq, Repr

/-- The body of the `while` loop. -/
def turn (zipf_alpha : ℕ) (s : State) : State where
  lhs := (List.range' (s.prevN + 1) (s.N - s.prevN)).foldl (add_term zipf_alpha) s.lhs
  prevN := s.N
  N := s.N + 1

/-- `int(cache_size / BYTES_PER_ITEM)`: no size below 0 gives an item either. -/
def cache_item_count (cache_size : ℚ) : ℕ := ⌊cache_size / BYTES_PER_ITEM⌋₊

def rhs (cache_size : ℚ) (zipf_alpha : ℕ) (percentile : ℚ) : ℚ :=
  (List.range' 1 (cache_item_count cache_size)).foldl (add_term zipf_alpha) 0 / percentile

/-- What the function returns, if the loop ends within `fuel` tests. -/
def find_zipf_N (fuel : ℕ) (cache_size : ℚ) (zipf_alpha : ℕ) (percentile : ℚ) : Option ℕ :=
  (Recursion.whileLoop (fun s => decide (s.lhs < rhs cache_size zipf_alpha percentile))
    (turn zipf_alpha) fuel ⟨0, 0, 1⟩).map State.prevN

/-! ## Section 2: Partial sums -/

/-- The weight of the first `n` items. -/
def weight (zipf_alpha n : ℕ) : ℚ := ∑ i ∈ Icc 1 n, 1 / (i : ℚ) ^ zipf_alpha

section sums
variable {a : ℕ → ℝ}

/-- The partial sums of positive terms reach every number below their limit,
    and not the limit. -/
theorem reached_iff (ha : ∀ i, 0 < a i) (x : ℝ) :
    (∃ N, x ≤ ∑ i ∈ range N, a i) ↔ (Summable a → x < tsum a) := by
  constructor
  · rintro ⟨N, hN⟩ hsum
    calc
      x ≤ ∑ i ∈ range N, a i := hN
      _ < ∑ i ∈ range (N + 1), a i := by
        rw [sum_range_succ]
        linarith [ha N]
      _ ≤ tsum a := hsum.sum_le_tsum _ fun i _ => (ha i).le
  · intro h
    by_cases hsum : Summable a
    · obtain ⟨N, hN⟩ := (hsum.hasSum.tendsto_sum_nat.eventually (lt_mem_nhds (h hsum))).exists
      exact ⟨N, hN.le⟩
    · have htop := (not_summable_iff_tendsto_nat_atTop_of_nonneg fun i => (ha i).le).mp hsum
      exact (htop.eventually_ge_atTop x).exists

end sums

section weight
variable (zipf_alpha : ℕ)

@[simp] theorem weight_zero : weight zipf_alpha 0 = 0 := by simp [weight]

theorem weight_succ (n : ℕ) :
    weight zipf_alpha (n + 1) = weight zipf_alpha n + 1 / ((n + 1 : ℕ) : ℚ) ^ zipf_alpha :=
  sum_Icc_succ_top (Nat.le_add_left 1 n) _

theorem weight_strictMono : StrictMono (weight zipf_alpha) := by
  apply strictMono_nat_of_lt_succ
  intro n
  have hterm : (0 : ℚ) < 1 / ((n + 1 : ℕ) : ℚ) ^ zipf_alpha := by positivity
  rw [weight_succ]
  linarith

theorem weight_nonneg (n : ℕ) : 0 ≤ weight zipf_alpha n := by
  rw [← weight_zero zipf_alpha]
  exact (weight_strictMono zipf_alpha).monotone (Nat.zero_le n)

/-- The first loop computes the weight of the items in the cache. -/
theorem foldl_add_term (n : ℕ) :
    (List.range' 1 n).foldl (add_term zipf_alpha) 0 = weight zipf_alpha n := by
  induction n with
  | zero => simp
  | succ n ih =>
    rw [List.range'_1_concat, List.foldl_append, ih, weight_succ, Nat.add_comm 1 n]
    rfl

theorem weight_cast (n : ℕ) :
    (weight zipf_alpha n : ℝ) = ∑ i ∈ range n, 1 / ((i : ℝ) + 1) ^ zipf_alpha := by
  induction n with
  | zero => simp
  | succ n ih =>
    rw [weight_succ, sum_range_succ, ← ih]
    push_cast
    rfl

/-- The weights are bounded from the exponent 2 on. -/
theorem summable_iff :
    Summable (fun i : ℕ => 1 / ((i : ℝ) + 1) ^ zipf_alpha) ↔ 1 < zipf_alpha := by
  have h := summable_nat_add_iff (f := fun i : ℕ => 1 / (i : ℝ) ^ zipf_alpha) 1
  rw [Real.summable_one_div_nat_pow] at h
  simpa using h

/-- Some number of items has a given weight. -/
theorem weight_reached_iff (x : ℚ) :
    (∃ N, x ≤ weight zipf_alpha N) ↔
      zipf_alpha ≤ 1 ∨ (x : ℝ) < tsum fun i : ℕ => 1 / ((i : ℝ) + 1) ^ zipf_alpha := by
  have h := reached_iff (a := fun i : ℕ => 1 / ((i : ℝ) + 1) ^ zipf_alpha)
    (fun i => by positivity) (x : ℝ)
  rw [summable_iff] at h
  rw [← Nat.not_lt, ← imp_iff_not_or, ← h]
  simp only [← weight_cast, Rat.cast_le]

end weight

/-! ## Section 3: The loop -/

section loop
variable {cache_size percentile : ℚ} {zipf_alpha : ℕ}

/-- After `n` turns the sum has the first `n` terms. -/
theorem iterate_turn (n : ℕ) :
    (turn zipf_alpha)^[n] ⟨0, 0, 1⟩ = ⟨weight zipf_alpha n, n, n + 1⟩ := by
  induction n with
  | zero => simp
  | succ n ih =>
    rw [Function.iterate_succ_apply', ih]
    simp [turn, add_term, weight_succ]

theorem rhs_eq :
    rhs cache_size zipf_alpha percentile =
      weight zipf_alpha (cache_item_count cache_size) / percentile := by
  rw [rhs, foldl_add_term]

/-- The loop ends for the least number whose weight is enough, if there is one. -/
theorem find_zipf_N_iff {N : ℕ} :
    (∃ fuel, find_zipf_N fuel cache_size zipf_alpha percentile = some N) ↔
      IsLeast {N | rhs cache_size zipf_alpha percentile ≤ weight zipf_alpha N} N := by
  unfold find_zipf_N
  constructor
  · rintro ⟨fuel, h⟩
    obtain ⟨s, hs, rfl⟩ := Option.map_eq_some_iff.mp h
    obtain ⟨n, rfl, hstop, hgo⟩ := Recursion.iterate_of_whileLoop hs
    simp only [iterate_turn, decide_eq_true_eq, decide_eq_false_iff_not, not_lt] at hstop hgo ⊢
    refine ⟨hstop, fun m hm => ?_⟩
    by_contra hlt
    exact absurd hm (not_le.mpr (hgo m (by omega)))
  · rintro ⟨henough, hleast⟩
    refine ⟨N + 1, ?_⟩
    rw [Recursion.whileLoop_of_iterate (n := N), iterate_turn]
    · rfl
    · simpa [iterate_turn] using henough
    · intro m hm
      simp only [iterate_turn, decide_eq_true_eq]
      by_contra hge
      exact absurd (hleast (not_lt.mp hge)) (by omega)

end loop

/-! ## Section 4: Least size -/

/-- The search ends, and returns the least number of items that has at least
    the weight of the `C` cached items, divided by the percentile. -/
def FindsLeast (cache_size : ℚ) (zipf_alpha : ℕ) (percentile : ℚ) : Prop :=
  ∃ fuel N, find_zipf_N fuel cache_size zipf_alpha percentile = some N ∧
    IsLeast {N | weight zipf_alpha ⌊cache_size / 56⌋₊ / percentile ≤ weight zipf_alpha N} N ∧
    ⌊cache_size / 56⌋₊ ≤ N

section least
variable {cache_size percentile : ℚ} {zipf_alpha : ℕ}

/-- No fewer items than the cache holds weigh as much as they. -/
theorem le_of_weight_le {C N : ℕ} (hpos : 0 < percentile) (hle : percentile ≤ 1)
    (h : weight zipf_alpha C / percentile ≤ weight zipf_alpha N) : C ≤ N := by
  apply (weight_strictMono zipf_alpha).le_iff_le.mp
  calc
    weight zipf_alpha C ≤ weight zipf_alpha C / percentile :=
      le_div_self (weight_nonneg zipf_alpha C) hpos hle
    _ ≤ weight zipf_alpha N := h

theorem findsLeast_iff_reached (hpos : 0 < percentile) (hle : percentile ≤ 1) :
    FindsLeast cache_size zipf_alpha percentile ↔
      ∃ N, weight zipf_alpha ⌊cache_size / 56⌋₊ / percentile ≤ weight zipf_alpha N := by
  constructor
  · rintro ⟨_, N, _, hleast, _⟩
    exact ⟨N, hleast.1⟩
  · intro h
    classical
    have hleast : IsLeast {N | weight zipf_alpha ⌊cache_size / 56⌋₊ / percentile ≤
        weight zipf_alpha N} (Nat.find h) := ⟨Nat.find_spec h, fun _ hN => Nat.find_min' h hN⟩
    obtain ⟨fuel, hfuel⟩ : ∃ fuel, find_zipf_N fuel cache_size zipf_alpha percentile =
        some (Nat.find h) := find_zipf_N_iff.mpr (by rw [rhs_eq]; exact hleast)
    exact ⟨fuel, Nat.find h, hfuel, hleast, le_of_weight_le hpos hle hleast.1⟩

/-- The search finds the least size iff the exponent is at most 1, or the
    items in the cache weigh less than the percentile of all the items. -/
theorem findsLeast_iff (cache_size : ℚ) (zipf_alpha : ℕ) (percentile : ℚ)
    (hpos : 0 < percentile) (hle : percentile ≤ 1) :
    FindsLeast cache_size zipf_alpha percentile ↔
      zipf_alpha ≤ 1 ∨ (weight zipf_alpha ⌊cache_size / 56⌋₊ : ℝ) <
        percentile * tsum fun i : ℕ => 1 / ((i : ℝ) + 1) ^ zipf_alpha := by
  have hpos' : (0 : ℝ) < percentile := by exact_mod_cast hpos
  rw [findsLeast_iff_reached hpos hle, weight_reached_iff, Rat.cast_div, div_lt_iff₀' hpos']

theorem findsLeast_iff_uniform : FindsLeast 112 0 (1 / 2) ↔
    0 ≤ 1 ∨ (weight 0 ⌊(112 : ℚ) / 56⌋₊ : ℝ) <
      ((1 / 2 : ℚ) : ℝ) * tsum fun i : ℕ => 1 / ((i : ℝ) + 1) ^ 0 :=
  findsLeast_iff 112 0 (1 / 2) (by norm_num) (by norm_num)

end least

/-- The inverse squares never add up to 2. -/
theorem weight_two_le (n : ℕ) : weight 2 (n + 1) ≤ 2 - 1 / ((n : ℚ) + 1) := by
  induction n with
  | zero => norm_num [weight]
  | succ n ih =>
    have hterm : 1 / ((n + 1 + 1 : ℕ) : ℚ) ^ 2 ≤ 1 / ((n : ℚ) + 1) - 1 / ((n : ℚ) + 1 + 1) := by
      rw [div_sub_div _ _ (by positivity) (by positivity), div_le_div_iff₀ (by positivity)
        (by positivity)]
      push_cast
      nlinarith
    rw [weight_succ]
    push_cast at hterm ⊢
    linarith

/-- No number of items is enough for one item to be half of the requests when
    the exponent is 2. -/
theorem search_never_ends : ¬∀ (cache_size : ℚ) (zipf_alpha : ℕ) (percentile : ℚ),
    0 ≤ cache_size → 0 < percentile → percentile ≤ 1 →
      FindsLeast cache_size zipf_alpha percentile := by
  intro h
  obtain ⟨N, hN⟩ := (findsLeast_iff_reached (by norm_num) (by norm_num)).mp
    (h 56 2 (1 / 2) (by norm_num) (by norm_num) (by norm_num))
  have hone : weight 2 ⌊(56 : ℚ) / 56⌋₊ / (1 / 2) = 2 := by norm_num [weight]
  have hbound : weight 2 N < 2 := by
    calc
      weight 2 N ≤ weight 2 (N + 1) := (weight_strictMono 2).monotone (Nat.le_succ N)
      _ ≤ 2 - 1 / ((N : ℚ) + 1) := weight_two_le N
      _ < 2 := sub_lt_self 2 (by positivity)
  rw [hone] at hN
  linarith

end FindZipfN
