import Catbench.Clients.SquareEvictions.Pass

/-! # Counting the accesses of a run

    How many accesses a cycle makes when no cap cuts it short, and what every
    piece of such a run adds to the access record and to the counter.
-/

open Machine Rng

namespace SquareEvictions

/-! ## Section 1: The accesses of a cycle -/

/-- The same call without `-a`. -/
def Params.uncapped (p : Params) : Params := { p with max_accesses := 0 }

/-- The number of iterations of the loop over `offset`. -/
def Params.offsets_in (p : Params) (siz : ℕ) : ℕ :=
  (siz + (p.cache_line_size - 1)) / p.cache_line_size

theorem offsets_in_zero {p : Params} (hline : 0 < p.cache_line_size) : p.offsets_in 0 = 0 := by
  unfold Params.offsets_in
  rw [Nat.zero_add]
  exact Nat.div_eq_of_lt (by omega)

theorem offsets_in_pos {p : Params} (hline : 0 < p.cache_line_size) {siz : ℕ} (hsiz : 0 < siz) :
    p.offsets_in siz = 1 + p.offsets_in (siz - p.cache_line_size) := by
  by_cases hlast : siz ≤ p.cache_line_size
  · rw [Nat.sub_eq_zero_of_le hlast, offsets_in_zero hline]
    unfold Params.offsets_in
    rw [show siz + (p.cache_line_size - 1) = siz - 1 + p.cache_line_size by omega,
      Nat.add_div_right _ hline, Nat.div_eq_of_lt (by omega)]
  · unfold Params.offsets_in
    rw [show siz + (p.cache_line_size - 1)
        = siz - p.cache_line_size + (p.cache_line_size - 1) + p.cache_line_size by omega,
      Nat.add_div_right _ hline, Nat.add_comm]

/-- An iteration leaves one less to go. -/
theorem offsets_in_left {p : Params} (hline : 0 < p.cache_line_size) {siz offset : ℕ}
    (hgo : offset < siz) : p.offsets_in (siz - offset)
      = 1 + p.offsets_in (siz - (offset + p.cache_line_size)) := by
  rw [← Nat.sub_sub]
  exact offsets_in_pos hline (by omega)

/-- The accesses of a cycle that is not cut short. -/
def Params.accesses_in (p : Params) (cycle : ℕ) : ℕ :=
  p.passes_per_cycle * p.offsets_in (p.siz cycle)

/-! ## Section 2: What a run without a cap counts -/

/-- What a piece of an uncapped run with `n` accesses to make does to the
    access record and to the counter. -/
structure Counted (st st' : State) (n : ℕ) (e : Option Exit) : Prop where
  mono : st.touched.length ≤ st'.touched.length
  le : st'.touched.length ≤ st.touched.length + n
  /-- An access whose log entry cannot be appended is not counted. -/
  slack : st'.touched.length + st.accesses ≤ st.touched.length + st'.accesses + 1
  full : e = none → st'.touched.length = st.touched.length + n ∧
    st'.accesses = st.accesses + n
  not_capped : e ≠ some .capped
  clocks : st'.clocks = st.clocks
  begun : st'.begun = st.begun

theorem Counted.refl (st : State) : Counted st st 0 none where
  mono := Nat.le_refl _
  le := Nat.le_refl _
  slack := by omega
  full := fun _ => ⟨rfl, rfl⟩
  not_capped := by simp
  clocks := rfl
  begun := rfl

/-- Pieces of a run follow each other unless the first was cut short. -/
theorem Counted.trans {st st₁ st₂ : State} {n m : ℕ} {e : Option Exit}
    (h₁ : Counted st st₁ n none) (h₂ : Counted st₁ st₂ m e) : Counted st st₂ (n + m) e := by
  obtain ⟨htouched, haccesses⟩ := h₁.full rfl
  have hmono := h₂.mono
  have hle := h₂.le
  have hslack := h₂.slack
  refine ⟨by omega, by omega, by omega, ?_, h₂.not_capped, h₂.clocks.trans h₁.clocks,
    h₂.begun.trans h₁.begun⟩
  intro he
  obtain ⟨htouched', haccesses'⟩ := h₂.full he
  exact ⟨by omega, by omega⟩

/-- A piece that was cut short has made no more accesses than the whole. -/
theorem Counted.weaken {st st' : State} {n m : ℕ} {e : Exit} (h : Counted st st' n (some e))
    (hle : n ≤ m) : Counted st st' m (some e) where
  mono := h.mono
  le := Nat.le_trans h.le (by omega)
  slack := h.slack
  full := by simp
  not_capped := h.not_capped
  clocks := h.clocks
  begun := h.begun

section uncapped
variable {w : Arith} {spin fuel : ℕ} {p : Params} {env : Env} {cycle : ℕ} {startpass : ℤ}

/-- Without a cap, counting only moves the counter. -/
theorem count_uncapped {st : State} (hlt : st.accesses + 1 < 2 ^ 64) :
    st.count p.uncapped env startpass = ({ st with accesses := st.accesses + 1 }, none) := by
  unfold State.count Params.uncapped
  rw [Nat.mod_eq_of_lt hlt]
  simp

theorem access_counted {siz offset : ℕ} {st st' : State} {e : Option Exit}
    (hlt : st.accesses + 1 < 2 ^ 64)
    (h : access w spin p.uncapped env cycle startpass siz offset st = some (st', e)) :
    Counted st st' 1 e := by
  unfold access at h
  cases hpick : pick w spin p.uncapped siz offset st.randomizer with
  | none => rw [hpick] at h; cases h
  | some r =>
    obtain ⟨ix, tries, randomizer⟩ := r
    rw [hpick] at h
    simp only at h
    split at h
    · cases h
      exact ⟨Nat.le_refl _, by simp, by simp, by simp, by simp, rfl, rfl⟩
    · -- the access is performed, and then logged and counted
      generalize hst : (if p.uncapped.measure_all then _ else _ : State) = st₁ at h
      have htouched : st₁.touched.length = st.touched.length + 1 ∧ st₁.accesses = st.accesses := by
        subst hst
        split <;> exact ⟨List.length_append, rfl⟩
      have hframe : st₁.clocks = st.clocks ∧ st₁.begun = st.begun := by
        subst hst
        split <;> exact ⟨rfl, rfl⟩
      have hcounted : ∀ n, Counted st { st₁ with appended := n, accesses := st₁.accesses + 1 } 1
          none := by
        intro n
        refine ⟨?_, ?_, ?_, fun _ => ⟨htouched.1, by simp only [htouched.2]⟩, by simp,
          hframe.1, hframe.2⟩ <;> simp only [htouched] <;> omega
      split at h
      · split at h
        · rw [count_uncapped (by simp only [htouched.2]; exact hlt)] at h
          cases h
          exact hcounted _
        · cases h
          refine ⟨?_, ?_, ?_, by simp, by simp, hframe.1, hframe.2⟩ <;>
            simp only [htouched] <;> omega
      · rw [count_uncapped (by rw [htouched.2]; exact hlt)] at h
        cases h
        exact hcounted st₁.appended

/-- The loop over `offset`, from the iteration at `offset` on. -/
theorem offsets_counted {siz offset : ℕ} {st st' : State} {e : Option Exit}
    (hline : 0 < p.cache_line_size) (hlt : st.accesses + p.offsets_in (siz - offset) < 2 ^ 64)
    (h : offsets w spin p.uncapped env cycle startpass siz fuel offset st = some (st', e)) :
    Counted st st' (p.offsets_in (siz - offset)) e := by
  induction fuel generalizing offset st with
  | zero => cases h
  | succ fuel ih =>
    rcases offsets_cases h with ⟨hdone, rfl, rfl⟩ | ⟨hgo, x, hacc, rfl⟩ | ⟨hgo, st₁, hacc, hrest⟩
    · rw [Nat.sub_eq_zero_of_le (by omega), offsets_in_zero hline]
      exact Counted.refl _
    · have hleft := offsets_in_left hline hgo
      exact (access_counted (by omega) hacc).weaken (by omega)
    · have hleft := offsets_in_left hline hgo
      have hone := access_counted (by omega) hacc
      -- the iterations to come start from the counter that this one has left
      have hnext := (hone.full rfl).2
      rw [hleft]
      exact hone.trans (ih (by omega) hrest)

theorem pass_counted {siz : ℕ} {st st' : State} {e : Option Exit}
    (hline : 0 < p.cache_line_size) (hlt : st.accesses + p.offsets_in siz < 2 ^ 64)
    (h : pass w spin fuel p.uncapped env cycle startpass siz st = some (st', e)) :
    Counted st st' (p.offsets_in siz) e := by
  -- the flag that is reset is no part of the counts
  have hoffsets : ∀ {e₁}, offsets w spin p.uncapped env cycle startpass siz fuel 0
      { st with seen_initial := false } = some (st', e₁) →
      Counted st st' (p.offsets_in siz) e₁ := by
    intro e₁ hoff
    obtain ⟨hmono, hle, hslack, hfull, hcap, hclocks, hbegun⟩ := offsets_counted hline hlt hoff
    exact ⟨hmono, hle, hslack, hfull, hcap, hclocks, hbegun⟩
  rcases pass_cases h with ⟨x, hoff, rfl⟩ | ⟨hoff, ⟨-, rfl⟩ | ⟨-, rfl⟩⟩
  · exact hoffsets hoff
  · exact hoffsets hoff
  · have hpass := hoffsets hoff
    exact ⟨hpass.mono, hpass.le, hpass.slack, by simp, by simp, hpass.clocks, hpass.begun⟩

theorem passes_counted {siz count : ℕ} {st st' : State} {e : Option Exit}
    (hline : 0 < p.cache_line_size) (hlt : st.accesses + count * p.offsets_in siz < 2 ^ 64)
    (h : passes w spin fuel p.uncapped env cycle startpass siz count st = some (st', e)) :
    Counted st st' (count * p.offsets_in siz) e := by
  induction count generalizing st with
  | zero =>
    cases h
    rw [Nat.zero_mul]
    exact Counted.refl _
  | succ count ih =>
    rw [Nat.succ_mul] at hlt ⊢
    rcases passes_cases h with ⟨x, hpass, rfl⟩ | ⟨st₁, hpass, hrest⟩
    · exact (pass_counted hline (by omega) hpass).weaken (by omega)
    · have hone := pass_counted hline (by omega) hpass
      have hnext := (hone.full rfl).2
      rw [Nat.add_comm]
      exact hone.trans (ih (by omega) hrest)

end uncapped

end SquareEvictions
