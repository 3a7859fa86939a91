import Catbench.Framework.Empirical
import Mathlib.Data.List.Sort
import Mathlib.Tactic.Linarith

/-! # The distribution of some samples (`data_analysis/make-cdf`)

    The script sorts its samples and walks over them with a position on the
    axis, which it moves by a step, or to a sample that is further away.  When
    a sample is beyond the position, it prints a level line: the position and
    the sample, with the fraction of the samples that it has counted so far.

    Numbers are exact here, and the points are those before they are formatted.
-/

namespace MakeCdf

/-! ## Section 1: Model -/

/-- The variables of the loop, and what it has printed. -/
structure State where
  looking_at : ℚ
  count : ℕ
  printed : List (ℚ × ℚ)
  deriving DecidableEq, Repr

/-- `$step`, which has a default for the undefined value and 0. -/
def default_step (step : Option ℚ) : ℚ :=
  if step.getD 0 = 0 then 1 / 10 else step.getD 0

/-- `$max && $looking_at > $max`. -/
def beyond (max : Option ℚ) (looking_at : ℚ) : Bool :=
  max.any fun m => m ≠ 0 && looking_at > m

/-- One turn of the loop, up to the test for the maximum. -/
def each (step : ℚ) (totsamps : ℕ) (s : State) (samp : ℚ) : State :=
  if samp > s.looking_at then
    { looking_at := if samp - s.looking_at < step then s.looking_at + step else samp
      count := s.count + 1
      printed := s.printed ++
        [(s.looking_at, (s.count : ℚ) / totsamps), (samp, (s.count : ℚ) / totsamps)] }
  else { s with count := s.count + 1 }

def loop (step : ℚ) (max : Option ℚ) (totsamps : ℕ) : List ℚ → State → State
  | [], s => s
  | samp :: samps, s =>
    if beyond max (each step totsamps s samp).looking_at then each step totsamps s samp
    else loop step max totsamps samps (each step totsamps s samp)

/-- The points that are printed for some samples. -/
def make_cdf (step max : Option ℚ) (samps : List ℚ) : List (ℚ × ℚ) :=
  let samps := samps.insertionSort (· ≤ ·)
  match samps.head? with
  | none => []
  | some first =>
    let s := loop (default_step step) max samps.length samps ⟨first, 0, []⟩
    s.printed ++ [(s.looking_at + default_step step, (s.count : ℚ) / samps.length)]

/-! ## Section 2: Points of the distribution -/

/-- A level line of the distribution: up to its left end there are as many
    samples as below its right end. -/
structure Level (samps : List ℚ) (line : ℚ × ℚ × ℚ) : Prop where
  left : line.2.2 = Empirical.upTo samps line.1
  right : line.2.2 = Empirical.below samps line.2.1

/-- The two points that are printed for a level line `(x, x', y)`. -/
def ends (line : ℚ × ℚ × ℚ) : List (ℚ × ℚ) := [(line.1, line.2.2), (line.2.1, line.2.2)]

/-- Both coordinates of the first point are at most those of the second. -/
def Before (p q : ℚ × ℚ) : Prop := p.1 ≤ q.1 ∧ p.2 ≤ q.2

/-- The points are level lines and a last point at height 1, from left to right
    and never downwards. -/
structure Traces (samps : List ℚ) (points : List (ℚ × ℚ)) : Prop where
  ordered : points.Pairwise Before
  drawn : ∃ (lines : List (ℚ × ℚ × ℚ)) (last : ℚ × ℚ), points = lines.flatMap ends ++ [last] ∧
    (∀ line ∈ lines, Level samps line) ∧
    last.2 = Empirical.upTo samps last.1 ∧ last.2 = 1

/-! ## Section 3: The loop -/

section loop
variable {before after : List ℚ} {s : State} {samp : ℚ}

/-- After the samples `before` the position is not below any of them, and all
    points that are printed are level lines to the left of it. -/
structure Inv (before after : List ℚ) (s : State) : Prop where
  count : s.count = before.length
  passed : ∀ x ∈ before, x ≤ s.looking_at
  ordered : s.printed.Pairwise Before
  reached : ∀ p ∈ s.printed, p.1 ≤ s.looking_at ∧ p.2 ≤ (s.count : ℚ) / (before ++ after).length
  drawn : ∃ lines : List (ℚ × ℚ × ℚ), s.printed = lines.flatMap ends ∧
    ∀ line ∈ lines, Level (before ++ after) line

theorem Inv.start (after : List ℚ) (first : ℚ) : Inv [] after ⟨first, 0, []⟩ where
  count := rfl
  passed := fun _ h => by cases h
  ordered := List.Pairwise.nil
  reached := fun _ h => by cases h
  drawn := ⟨[], rfl, fun _ h => by cases h⟩

/-- A sample beyond the position ends a level line that begins there. -/
theorem Inv.level (h : Inv before (samp :: after) s)
    (hsorted : (before ++ samp :: after).Pairwise (· ≤ ·)) (hgt : samp > s.looking_at) :
    Level (before ++ samp :: after)
      (s.looking_at, samp, (s.count : ℚ) / (before ++ samp :: after).length) := by
  have hafter : ∀ x ∈ samp :: after, samp ≤ x := by
    intro x hx
    rcases List.mem_cons.mp hx with rfl | hx
    · exact le_refl x
    · exact (List.pairwise_cons.mp (List.pairwise_append.mp hsorted).2.1).1 x hx
  constructor
  · rw [Empirical.upTo_of_split h.passed fun x hx => lt_of_lt_of_le hgt (hafter x hx), h.count]
  · rw [Empirical.below_of_split (fun x hx => lt_of_le_of_lt (h.passed x hx) hgt) hafter, h.count]

/-- A level line is printed, and the position is moved to the sample or further. -/
theorem Inv.move (h : Inv before (samp :: after) s)
    (hsorted : (before ++ samp :: after).Pairwise (· ≤ ·)) (hgt : samp > s.looking_at) {right : ℚ}
    (hright : samp ≤ right) :
    Inv before (samp :: after)
      { looking_at := right
        count := s.count
        printed := s.printed ++ ends (s.looking_at, samp,
          (s.count : ℚ) / (before ++ samp :: after).length) } where
  count := h.count
  passed := fun x hx => le_trans (h.passed x hx) (le_trans hgt.le hright)
  ordered := by
    rw [List.pairwise_append]
    refine ⟨h.ordered, ?_, ?_⟩
    · simp [ends, Before, hgt.le]
    · intro p hp q hq
      obtain ⟨hx, hy⟩ := h.reached p hp
      rcases List.mem_pair.mp hq with rfl | rfl
      · exact ⟨hx, hy⟩
      · exact ⟨le_trans hx hgt.le, hy⟩
  reached := by
    intro p hp
    rcases List.mem_append.mp hp with hp | hp
    · obtain ⟨hx, hy⟩ := h.reached p hp
      exact ⟨le_trans hx (le_trans hgt.le hright), hy⟩
    · rcases List.mem_pair.mp hp with rfl | rfl
      · exact ⟨le_trans hgt.le hright, le_refl _⟩
      · exact ⟨hright, le_refl _⟩
  drawn := by
    obtain ⟨lines, hprinted, hlevel⟩ := h.drawn
    refine ⟨lines ++ [(s.looking_at, samp, (s.count : ℚ) / (before ++ samp :: after).length)],
      ?_, ?_⟩
    · rw [hprinted, List.flatMap_append, List.flatMap_singleton]
    · intro line hline
      rcases List.mem_append.mp hline with hline | hline
      · exact hlevel line hline
      · rw [List.mem_singleton.mp hline]
        exact h.level hsorted hgt

/-- A sample that is not beyond the position is counted. -/
theorem Inv.pass (h : Inv before (samp :: after) s) (hle : samp ≤ s.looking_at) :
    Inv (before ++ [samp]) after { s with count := s.count + 1 } := by
  have happend : before ++ [samp] ++ after = before ++ samp :: after := by simp
  constructor
  · simp [h.count]
  · intro x hx
    rcases List.mem_append.mp hx with hx | hx
    · exact h.passed x hx
    · rw [List.mem_singleton.mp hx]
      exact hle
  · exact h.ordered
  · rw [happend]
    intro p hp
    obtain ⟨hx, hy⟩ := h.reached p hp
    refine ⟨hx, le_trans hy ?_⟩
    apply div_le_div_of_nonneg_right _ (Nat.cast_nonneg _)
    exact_mod_cast Nat.le_succ s.count
  · rw [happend]
    exact h.drawn

/-- **Step**: a turn of the loop keeps the invariant. -/
theorem Inv.each (step : ℚ) (h : Inv before (samp :: after) s)
    (hsorted : (before ++ samp :: after).Pairwise (· ≤ ·)) :
    Inv (before ++ [samp]) after (each step (before ++ samp :: after).length s samp) := by
  unfold MakeCdf.each
  split
  · next hgt =>
    -- whether by a step or to the sample, the position gets as far as the sample
    have hright : samp ≤ if samp - s.looking_at < step then s.looking_at + step else samp := by
      split
      · linarith
      · exact le_refl samp
    exact (h.move hsorted hgt hright).pass hright
  · next hle => exact h.pass (not_lt.mp hle)

/-- **Run**: without a maximum the loop goes over all samples. -/
theorem Inv.loop (step : ℚ) (h : Inv before after s)
    (hsorted : (before ++ after).Pairwise (· ≤ ·)) :
    Inv (before ++ after) [] (loop step none (before ++ after).length after s) := by
  induction after generalizing before s with
  | nil =>
    rw [List.append_nil]
    exact h
  | cons samp after ih =>
    have happend : before ++ samp :: after = before ++ [samp] ++ after := by simp
    have hnext := h.each step hsorted
    show Inv (before ++ samp :: after) [] (MakeCdf.loop step none _ after _)
    rw [happend] at hsorted hnext ⊢
    exact ih hnext hsorted

/-- The last point is one step behind the position. -/
theorem Inv.traces {sorted samps : List ℚ} (h : Inv sorted [] s) (hperm : sorted.Perm samps)
    (hne : sorted ≠ []) {step : ℚ} (hstep : 0 < step) :
    Traces samps
      (s.printed ++ [(s.looking_at + step, (s.count : ℚ) / sorted.length)]) := by
  have hpos : (sorted.length : ℚ) ≠ 0 := by
    exact_mod_cast fun hlen => hne (List.length_eq_zero_iff.mp hlen)
  have hlast : (s.count : ℚ) / sorted.length = 1 := by
    rw [h.count, div_self hpos]
  have hmove : s.looking_at ≤ s.looking_at + step := by linarith
  constructor
  · rw [List.pairwise_append]
    refine ⟨h.ordered, List.pairwise_singleton _ _, ?_⟩
    intro p hp q hq
    rw [List.mem_singleton.mp hq]
    obtain ⟨hx, hy⟩ := h.reached p hp
    rw [List.append_nil] at hy
    exact ⟨le_trans hx hmove, hy⟩
  · obtain ⟨lines, hprinted, hlevel⟩ := h.drawn
    rw [List.append_nil] at hlevel
    refine ⟨lines, (s.looking_at + step, (s.count : ℚ) / sorted.length), ?_, ?_, ?_, hlast⟩
    · rw [hprinted]
    · intro line hline
      obtain ⟨hleft, hright⟩ := hlevel line hline
      rw [Empirical.upTo_perm hperm] at hleft
      rw [Empirical.below_perm hperm] at hright
      exact ⟨hleft, hright⟩
    · have hall : Empirical.upTo (sorted ++ []) (s.looking_at + step)
          = (sorted.length : ℚ) / (sorted ++ []).length :=
        Empirical.upTo_of_split (fun x hx => le_trans (h.passed x hx) hmove)
          (fun x hx => by cases hx)
      rw [List.append_nil] at hall
      rw [← Empirical.upTo_perm hperm, hall, h.count]

end loop

/-! ## Section 4: The script -/

theorem default_step_of_pos {step : ℚ} (h : 0 < step) : default_step (some step) = step :=
  if_neg h.ne'

/-- **Points of the distribution**: without a maximum, and for a positive step,
    the points that are printed for some samples trace their distribution. -/
theorem make_cdf_traces (samps : List ℚ) (step : ℚ) (hne : samps ≠ []) (hstep : 0 < step) :
    Traces samps (make_cdf (some step) none samps) := by
  have hperm := List.perm_insertionSort (· ≤ ·) samps
  have hsorted := List.pairwise_insertionSort (· ≤ ·) samps
  unfold make_cdf
  simp only [default_step_of_pos hstep]
  generalize samps.insertionSort (· ≤ ·) = sorted at hperm hsorted
  cases sorted with
  | nil => exact absurd hperm.nil_eq.symm hne
  | cons first rest =>
    have hinv : Inv (first :: rest) [] (loop step none (first :: rest).length (first :: rest)
        ⟨first, 0, []⟩) := (Inv.start (first :: rest) first).loop step hsorted
    simp only [List.head?_cons]
    generalize loop step none (first :: rest).length (first :: rest) ⟨first, 0, []⟩ = s at hinv
    exact hinv.traces hperm (List.cons_ne_nil first rest) hstep

/-- Two samples at 1 and one at 3, with a step of 1. -/
theorem make_cdf_traces_three :
    make_cdf (some 1) none [3, 1, 1] = [(1, 2 / 3), (3, 2 / 3), (4, 1)] ∧
      Traces [3, 1, 1] [(1, 2 / 3), (3, 2 / 3), (4, 1)] := by
  have hpoints : make_cdf (some 1) none [3, 1, 1] = [(1, 2 / 3), (3, 2 / 3), (4, 1)] := by
    decide +kernel
  refine ⟨hpoints, ?_⟩
  rw [← hpoints]
  exact make_cdf_traces [3, 1, 1] 1 (by decide) (by decide)

end MakeCdf
