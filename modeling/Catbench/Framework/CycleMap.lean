import Mathlib.Data.List.Perm.Subperm
import Mathlib.Data.List.Range
import Mathlib.Logic.Function.Iterate
import Mathlib.Tactic.Common

/-! # Maps that run through `[0, m)` in a single cycle

    A generator of period `m` is a map `f : ℕ → ℕ` with values in `[0, m)`
    whose first `m` iterates from any value of `[0, m)` are pairwise
    distinct.  Two things are said about such maps:

    * any `m` consecutive draws list `[0, m)` exactly once;
    * a *rejection loop* that keeps drawing until a value is accepted
      performs, from any starting point, exactly one pass over the accepted
      values, and no single acceptance takes long.

    The second fact is not about one iteration of the loop.  A pass starts
    at an arbitrary point of the cycle and stops right after its last
    accepted draw, so the argument is about windows of the drawn sequence:
    the first `m` draws hold every accepted value once, hence the pass ends
    inside that window, hence its draws are distinct.
-/

namespace CycleMap

/-! ## Section 1: Single cycles and windows of draws -/

/-- `f` takes its values in `[0, m)` and runs through them in one cycle:
    the first `m` iterates from any value of the cycle are distinct. -/
structure SingleCycle (f : ℕ → ℕ) (m : ℕ) : Prop where
  /-- Every draw is in range, also the first one from a foreign seed. -/
  map_lt : ∀ x, f x < m
  /-- No value comes back within one period. -/
  iterate_inj : ∀ x < m, ∀ i < m, ∀ j < m, f^[i] x = f^[j] x → i = j

/-- The next `k` values drawn from state `x`. -/
def draws (f : ℕ → ℕ) (x : ℕ) : ℕ → List ℕ
  | 0 => []
  | k + 1 => f x :: draws f (f x) k

@[simp] theorem draws_zero (f : ℕ → ℕ) (x : ℕ) : draws f x 0 = [] := rfl

theorem draws_succ (f : ℕ → ℕ) (x k : ℕ) :
    draws f x (k + 1) = f x :: draws f (f x) k := rfl

@[simp] theorem length_draws (f : ℕ → ℕ) (x k : ℕ) : (draws f x k).length = k := by
  induction k generalizing x with
  | zero => rfl
  | succ k ih => simp [draws_succ, ih]

theorem draws_add (f : ℕ → ℕ) (x j k : ℕ) :
    draws f x (j + k) = draws f x j ++ draws f (f^[j] x) k := by
  induction j generalizing x with
  | zero => simp
  | succ j ih =>
    rw [show j + 1 + k = j + k + 1 from by omega, draws_succ, ih, draws_succ]
    simp [Function.iterate_succ_apply]

theorem mem_draws {f : ℕ → ℕ} {x k y : ℕ} :
    y ∈ draws f x k ↔ ∃ i < k, f^[i + 1] x = y := by
  induction k generalizing x with
  | zero => simp
  | succ k ih =>
    rw [draws_succ, List.mem_cons, ih]
    constructor
    · rintro (rfl | ⟨i, hi, rfl⟩)
      · exact ⟨0, by omega, rfl⟩
      · exact ⟨i + 1, by omega, by simp [Function.iterate_succ_apply]⟩
    · rintro ⟨i, hi, rfl⟩
      cases i with
      | zero => exact Or.inl rfl
      | succ i => exact Or.inr ⟨i, by omega, by simp [Function.iterate_succ_apply]⟩

section window
variable {f : ℕ → ℕ} {m : ℕ}

theorem SingleCycle.draws_lt (hc : SingleCycle f m) {x k y : ℕ} (hy : y ∈ draws f x k) :
    y < m := by
  obtain ⟨i, _, rfl⟩ := mem_draws.mp hy
  rw [Function.iterate_succ_apply']
  exact hc.map_lt _

/-- No window of at most `m` draws repeats a value. -/
theorem SingleCycle.nodup_draws (hc : SingleCycle f m) (x : ℕ) :
    ∀ {k : ℕ}, k ≤ m → (draws f x k).Nodup := by
  intro k
  induction k generalizing x with
  | zero => intro _; exact List.nodup_nil
  | succ k ih =>
    intro hk
    rw [draws_succ, List.nodup_cons]
    refine ⟨?_, ih (f x) (by omega)⟩
    intro hmem
    -- a later draw equal to the first one closes the cycle too early
    obtain ⟨i, hi, heq⟩ := mem_draws.mp hmem
    have := hc.iterate_inj (f x) (hc.map_lt x) (i + 1) (by omega) 0 (by omega) heq
    omega

/-- Any `m` consecutive draws list `[0, m)` exactly once. -/
theorem SingleCycle.draws_perm (hc : SingleCycle f m) (x : ℕ) :
    (draws f x m).Perm (List.range m) := by
  have hnd := hc.nodup_draws x (Nat.le_refl m)
  have hsub : draws f x m ⊆ List.range m := fun y hy =>
    List.mem_range.mpr (hc.draws_lt hy)
  have hsp : (draws f x m).Subperm (List.range m) := hnd.subperm hsub
  exact hsp.perm_of_length_le (by simp)

/-- Every value of the cycle is drawn within one period. -/
theorem SingleCycle.exists_draw (hc : SingleCycle f m) (x : ℕ) {y : ℕ} (hy : y < m) :
    ∃ k < m, f^[k + 1] x = y := by
  have hmem : y ∈ draws f x m := (hc.draws_perm x).mem_iff.mpr (List.mem_range.mpr hy)
  exact mem_draws.mp hmem

/-- Only the values of the map on `[0, m)` matter, as long as it stays there. -/
theorem SingleCycle.congr {g : ℕ → ℕ} (hc : SingleCycle f m) (hlt : ∀ x, g x < m)
    (hfg : ∀ x < m, g x = f x) : SingleCycle g m where
  map_lt := hlt
  iterate_inj := by
    have hiter : ∀ i, ∀ x < m, g^[i] x = f^[i] x := by
      intro i
      induction i with
      | zero => intro x _; rfl
      | succ i ih =>
        intro x hx
        rw [Function.iterate_succ_apply, Function.iterate_succ_apply, hfg x hx,
          ih (f x) (hc.map_lt x)]
    intro x hx i hi j hj heq
    rw [hiter i x hx, hiter j x hx] at heq
    exact hc.iterate_inj x hx i hi j hj heq

end window

/-! ## Section 2: Rejection loops -/

/-- Draw until `accept` holds, at most `fuel` times: the accepted value and
    the number of draws it took. -/
def drawUntil (f : ℕ → ℕ) (accept : ℕ → Bool) : ℕ → ℕ → Option (ℕ × ℕ)
  | 0, _ => none
  | fuel + 1, x =>
    if accept (f x) then some (f x, 1)
    else (drawUntil f accept fuel (f x)).map fun r => (r.1, r.2 + 1)

section rejection
variable {f : ℕ → ℕ} {m : ℕ} {accept : ℕ → Bool}

/-- A rejection loop stops at the first accepted draw of its window. -/
theorem drawUntil_of_mem {fuel x : ℕ} (h : ∃ y ∈ draws f x fuel, accept y = true) :
    ∃ k, k < fuel ∧ drawUntil f accept fuel x = some (f^[k + 1] x, k + 1) ∧
      accept (f^[k + 1] x) = true ∧ ∀ z ∈ draws f x k, accept z = false := by
  induction fuel generalizing x with
  | zero => simp at h
  | succ fuel ih =>
    by_cases hx : accept (f x) = true
    · exact ⟨0, by omega, by simp [drawUntil, hx], by simpa using hx, by simp⟩
    · have hrest : ∃ y ∈ draws f (f x) fuel, accept y = true := by
        obtain ⟨y, hy, hacc⟩ := h
        rw [draws_succ, List.mem_cons] at hy
        rcases hy with rfl | hy
        · exact absurd hacc hx
        · exact ⟨y, hy, hacc⟩
      obtain ⟨k, hk, hdraw, hacc, hrej⟩ := ih hrest
      refine ⟨k + 1, by omega, ?_, ?_, ?_⟩
      · simp [drawUntil, hx, hdraw, Function.iterate_succ_apply]
      · simpa [Function.iterate_succ_apply] using hacc
      · intro z hz
        rw [draws_succ, List.mem_cons] at hz
        rcases hz with rfl | hz
        · simpa using hx
        · exact hrej z hz

/-- One period holds every accepted value exactly once. -/
theorem SingleCycle.countP_draws (hc : SingleCycle f m) (accept : ℕ → Bool) (x : ℕ) :
    (draws f x m).countP accept = (List.range m).countP accept :=
  (hc.draws_perm x).countP_eq accept

/-- Rejected draws in a row inside one period: at most as many as there are
    rejected values. -/
theorem SingleCycle.rejected_le (hc : SingleCycle f m) {x t k : ℕ} (htk : t + k ≤ m)
    (hrej : ∀ z ∈ draws f (f^[t] x) k, accept z = false) :
    k + (List.range m).countP accept ≤ m := by
  have hsplit : draws f x m =
      draws f x t ++ (draws f (f^[t] x) k ++ draws f (f^[t + k] x) (m - (t + k))) := by
    conv_lhs => rw [show m = t + k + (m - (t + k)) from by omega]
    rw [draws_add, draws_add, List.append_assoc]
  have hzero : (draws f (f^[t] x) k).countP accept = 0 := by
    rw [List.countP_eq_zero]
    intro z hz
    simp [hrej z hz]
  have hcount := hc.countP_draws accept x
  rw [hsplit, List.countP_append, List.countP_append, hzero] at hcount
  have hleft : (draws f x t).countP accept ≤ t := by
    simpa using (draws f x t).countP_le_length (p := accept)
  have hright : (draws f (f^[t + k] x) (m - (t + k))).countP accept ≤ m - (t + k) := by
    simpa using (draws f (f^[t + k] x) (m - (t + k))).countP_le_length (p := accept)
  omega

/-- **Step of a pass**: after `t ≤ m` draws that accepted fewer values than
    there are, the rejection loop accepts another one, still inside the
    period of the pass, and takes at most one draw more than there are
    rejected values. -/
theorem SingleCycle.next_accept (hc : SingleCycle f m) (accept : ℕ → Bool) (x fuel : ℕ) {t : ℕ}
    (ht : t ≤ m)
    (hcount : (draws f x t).countP accept < (List.range m).countP accept)
    (hfuel : m - (List.range m).countP accept + 1 ≤ fuel) :
    ∃ k, drawUntil f accept fuel (f^[t] x) = some (f^[t + k] x, k) ∧
      k ≤ m - (List.range m).countP accept + 1 ∧ t + k ≤ m ∧
      (draws f x (t + k)).filter accept = (draws f x t).filter accept ++ [f^[t + k] x] := by
  -- the rest of the period still holds an accepted value
  have hwindow : ∃ y ∈ draws f (f^[t] x) (m - t), accept y = true := by
    have hperiod := hc.countP_draws accept x
    rw [show m = t + (m - t) from by omega, draws_add, List.countP_append,
      show t + (m - t) = m from by omega] at hperiod
    have hpos : 0 < (draws f (f^[t] x) (m - t)).countP accept := by omega
    exact List.countP_pos_iff.mp hpos
  obtain ⟨k, hk, -, hacc, hrej⟩ := drawUntil_of_mem hwindow
  have hle := hc.rejected_le (by omega : t + k ≤ m) hrej
  -- so the loop also finds it with the fuel that is given
  have hmem : ∃ y ∈ draws f (f^[t] x) fuel, accept y = true :=
    ⟨_, mem_draws.mpr ⟨k, by omega, rfl⟩, hacc⟩
  obtain ⟨k', hk', hdraw, hacc', hrej'⟩ := drawUntil_of_mem hmem
  have hkk : k' = k := by
    rcases Nat.lt_trichotomy k' k with hlt | heq | hgt
    · have := hrej _ (mem_draws.mpr ⟨k', hlt, rfl⟩)
      rw [hacc'] at this
      exact absurd this (by simp)
    · exact heq
    · have := hrej' _ (mem_draws.mpr ⟨k, hgt, rfl⟩)
      rw [hacc] at this
      exact absurd this (by simp)
  subst hkk
  have hiter : f^[k' + 1] (f^[t] x) = f^[t + (k' + 1)] x := by
    rw [← Function.iterate_add_apply, Nat.add_comm]
  refine ⟨k' + 1, ?_, by omega, by omega, ?_⟩
  · rw [hdraw, hiter]
  · have hnone : (draws f (f^[t] x) k').filter accept = [] := by
      rw [List.filter_eq_nil_iff]
      intro z hz
      simp [hrej z hz]
    have hlast : draws f (f^[t] x) (k' + 1)
        = draws f (f^[t] x) k' ++ [f^[t + (k' + 1)] x] := by
      rw [draws_add, draws_succ, draws_zero, ← Function.iterate_succ_apply' f, hiter]
    rw [hiter] at hacc
    rw [draws_add, List.filter_append, hlast, List.filter_append, hnone, List.nil_append,
      List.filter_cons_of_pos hacc, List.filter_nil]

/-- **End of a pass**: once as many draws were accepted as there are accepted
    values, they are these values, each once. -/
theorem SingleCycle.filter_draws_perm (hc : SingleCycle f m) {x t : ℕ} (ht : t ≤ m)
    (hcount : (draws f x t).countP accept = (List.range m).countP accept) :
    ((draws f x t).filter accept).Perm ((List.range m).filter accept) := by
  have hnd : ((draws f x t).filter accept).Nodup := (hc.nodup_draws x ht).filter _
  have hsub : (draws f x t).filter accept ⊆ (List.range m).filter accept := by
    intro y hy
    rw [List.mem_filter] at hy ⊢
    exact ⟨List.mem_range.mpr (hc.draws_lt hy.1), hy.2⟩
  apply (hnd.subperm hsub).perm_of_length_le
  rw [← List.countP_eq_length_filter, ← List.countP_eq_length_filter, hcount]

end rejection

end CycleMap
