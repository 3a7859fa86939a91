import Catbench.Clients.SquareEvictions.Count
import Mathlib.Algebra.BigOperators.Intervals
import Mathlib.Tactic.Ring

/-! # The access cap of `square_evictions`

    With `-a` the function stops once its counter reaches `max_accesses`.  The
    counter `accesses` is declared inside the loop over `cycle`, though, while
    the `duration` it is reported against is declared outside.

    A capped run is compared with the run of the same call without a cap.  The
    two go through the same states up to `duration` and `reports`, which the
    traversal never reads, until the capped one stops.
-/

open Machine Rng

namespace SquareEvictions

/-! ## Section 1: The capped run beside the uncapped one -/

/-- The state of the capped run that corresponds to one of the uncapped run:
    its own duration and reports, the rest shared. -/
def State.billed (st : State) (duration : ℤ) (reports : List Report) : State :=
  { st with duration := duration, reports := reports }

/-- The capped run has stopped, `n` accesses after the state `st` it shared
    with the uncapped run; that one goes on to `st'`.  `duration` is the time
    of the cycles before the one in which it stops. -/
structure Stopped (A : ℕ) (env : Env) (startpass : ℤ) (st st' : State) (n : ℕ) (duration : ℤ)
    (stopped : State) : Prop where
  touched : stopped.touched.length = st.touched.length + n
  le : stopped.touched.length ≤ st'.touched.length
  report : ∃ reports, stopped.reports
    = reports ++ [.traversal (duration + (env.clock st.clocks - startpass)) A]
  begun : stopped.begun = st.begun

/-- How a piece of the capped run ends beside the same piece of the uncapped
    one, from a common state below the cap. -/
def Beside (A : ℕ) (env : Env) (startpass : ℤ) (st st' : State) (e : Option Exit) (duration : ℤ)
    (reports : List Report) (out : Option (State × Option Exit)) : Prop :=
  (out = some (st'.billed duration reports, e) ∧ st'.accesses < A) ∨
    (∃ stopped, out = some (stopped, some .capped) ∧
      Stopped A env startpass st st' (A - st.accesses) duration stopped)

section capped
variable {w : Arith} {spin fuel : ℕ} {p : Params} {env : Env} {cycle : ℕ} {startpass : ℤ}

/-- Counting in the capped run. -/
theorem count_billed {st : State} (duration : ℤ) (reports : List Report)
    (hfinite : p.infinite_duration = false) (hlt : st.accesses + 1 < 2 ^ 64) :
    (st.accesses + 1 ≠ p.max_accesses ∧ (st.billed duration reports).count p env startpass
      = (State.billed { st with accesses := st.accesses + 1 } duration reports, none)) ∨
    (st.accesses + 1 = p.max_accesses ∧ ∃ stopped,
      (st.billed duration reports).count p env startpass = (stopped, some .capped) ∧
      stopped.touched = st.touched ∧ stopped.begun = st.begun ∧
      stopped.reports = reports
        ++ [.traversal (duration + (env.clock st.clocks - startpass)) p.max_accesses]) := by
  unfold State.count
  simp only [State.billed, Nat.mod_eq_of_lt hlt, hfinite]
  by_cases hcap : st.accesses + 1 = p.max_accesses
  · right
    rw [hcap]
    simp
  · left
    simp [hcap]

/-- Counting an access that both runs have performed since `st`. -/
theorem count_beside {st s st' : State} {e : Option Exit} {duration : ℤ} {reports : List Report}
    (hfinite : p.infinite_duration = false) (hlt : st.accesses + 1 < 2 ^ 64)
    (hbelow : st.accesses < p.max_accesses)
    (hs : s.touched.length = st.touched.length + 1 ∧ s.accesses = st.accesses)
    (hframe : s.clocks = st.clocks ∧ s.begun = st.begun)
    (h : some (s.count p.uncapped env startpass) = some (st', e)) :
    Beside p.max_accesses env startpass st st' e duration reports
      (some ((s.billed duration reports).count p env startpass)) := by
  have hlt' : s.accesses + 1 < 2 ^ 64 := by rw [hs.2]; exact hlt
  rw [count_uncapped hlt'] at h
  cases h
  rcases count_billed duration reports hfinite hlt' with
    ⟨hne, heq⟩ | ⟨hcap, stopped, heq, htouched, hbegun, hreport⟩
  · left
    rw [heq]
    exact ⟨rfl, by simp only; omega⟩
  · right
    rw [heq]
    refine ⟨stopped, rfl, ?_, ?_, ⟨reports, ?_⟩, hbegun.trans hframe.2⟩
    · rw [htouched]
      omega
    · rw [htouched]
    · rw [hreport, hframe.1]

theorem access_beside {siz offset : ℕ} {st st' : State} {e : Option Exit}
    (hfinite : p.infinite_duration = false) (hlt : st.accesses + 1 < 2 ^ 64)
    (hbelow : st.accesses < p.max_accesses) (duration : ℤ) (reports : List Report)
    (h : access w spin p.uncapped env cycle startpass siz offset st = some (st', e)) :
    Beside p.max_accesses env startpass st st' e duration reports
      (access w spin p env cycle startpass siz offset (st.billed duration reports)) := by
  unfold access at h ⊢
  cases hpick : pick w spin p siz offset st.randomizer with
  | none =>
    rw [show pick w spin p.uncapped siz offset st.randomizer = none from hpick] at h
    cases h
  | some r =>
    obtain ⟨ix, tries, randomizer⟩ := r
    rw [show pick w spin p.uncapped siz offset st.randomizer = some (ix, tries, randomizer)
      from hpick] at h
    rw [show pick w spin p siz offset (st.billed duration reports).randomizer
      = some (ix, tries, randomizer) from hpick]
    simp only [show p.uncapped.logs offset = p.logs offset from rfl,
      show p.uncapped.no_randspin = p.no_randspin from rfl,
      show p.uncapped.measure_all = p.measure_all from rfl] at h ⊢
    split
    · next hspun =>
      rw [if_pos hspun] at h
      cases h
      exact Or.inl ⟨rfl, hbelow⟩
    · next hspun =>
      rw [if_neg hspun] at h
      -- both runs have performed and measured the same access
      generalize hst : (if p.measure_all then State.measure (State.touch _ ix tries) env cycle
        else State.touch _ ix tries : State) = st₁ at h
      generalize hst' : (if p.measure_all then State.measure (State.touch _ ix tries) env cycle
        else State.touch _ ix tries : State) = st₂
      have heq : st₂ = st₁.billed duration reports := by
        subst hst hst'
        split <;> rfl
      have hst₁ : st₁.touched.length = st.touched.length + 1 ∧ st₁.accesses = st.accesses := by
        subst hst
        split <;> exact ⟨List.length_append, rfl⟩
      have hframe : st₁.clocks = st.clocks ∧ st₁.begun = st.begun := by
        subst hst
        split <;> exact ⟨rfl, rfl⟩
      subst heq
      split
      · next hlogs =>
        rw [if_pos hlogs] at h
        split
        · next hok =>
          rw [if_pos (show env.append_ok st₁.appended = true from hok)] at h
          exact count_beside (s := { st₁ with appended := st₁.appended + 1 }) hfinite hlt hbelow
            hst₁ hframe h
        · next hfail =>
          rw [if_neg (show ¬env.append_ok st₁.appended = true from hfail)] at h
          cases h
          exact Or.inl ⟨rfl, by rw [← hst₁.2] at hbelow; exact hbelow⟩
      · next hlogs =>
        rw [if_neg hlogs] at h
        exact count_beside hfinite hlt hbelow hst₁ hframe h

/-- The uncapped run goes on from where the capped one has stopped. -/
theorem Stopped.extend {A n m : ℕ} {st st₁ st₂ stopped : State} {e : Option Exit}
    {duration : ℤ} (h : Stopped A env startpass st st₁ n duration stopped)
    (hnext : Counted st₁ st₂ m e) : Stopped A env startpass st st₂ n duration stopped where
  touched := h.touched
  le := Nat.le_trans h.le hnext.mono
  report := h.report
  begun := h.begun

/-- A piece may be read from an earlier common state. -/
theorem Beside.since {A n : ℕ} {st st₁ st₂ : State} {e : Option Exit} {duration : ℤ}
    {reports : List Report} {out : Option (State × Option Exit)}
    (h : Beside A env startpass st₁ st₂ e duration reports out) (hfirst : Counted st st₁ n none)
    (hbelow : st₁.accesses < A) : Beside A env startpass st st₂ e duration reports out := by
  rcases h with hgone | ⟨stopped, hout, hstop⟩
  · exact Or.inl hgone
  · obtain ⟨htouched, haccesses⟩ := hfirst.full rfl
    refine Or.inr ⟨stopped, hout, ?_, hstop.le, ?_, hstop.begun.trans hfirst.begun⟩
    · rw [hstop.touched]
      omega
    · rw [← hfirst.clocks]
      exact hstop.report

theorem offsets_beside {siz offset : ℕ} {st st' : State} {e : Option Exit}
    (hfinite : p.infinite_duration = false) (hline : 0 < p.cache_line_size)
    (hlt : st.accesses + p.offsets_in (siz - offset) < 2 ^ 64)
    (hbelow : st.accesses < p.max_accesses) (duration : ℤ) (reports : List Report)
    (h : offsets w spin p.uncapped env cycle startpass siz fuel offset st = some (st', e)) :
    Beside p.max_accesses env startpass st st' e duration reports
      (offsets w spin p env cycle startpass siz fuel offset (st.billed duration reports)) := by
  induction fuel generalizing offset st with
  | zero => cases h
  | succ fuel ih =>
    unfold offsets
    rcases offsets_cases h with ⟨hdone, rfl, rfl⟩ | ⟨hgo, x, hacc, rfl⟩ | ⟨hgo, st₁, hacc, hrest⟩
    · rw [if_neg hdone]
      exact Or.inl ⟨rfl, hbelow⟩
    · have hleft := offsets_in_left hline hgo
      rw [if_pos hgo]
      rcases access_beside hfinite (by omega) hbelow duration reports hacc with
        ⟨hout, hbelow'⟩ | ⟨stopped, hout, hstop⟩
      · rw [hout]
        exact Or.inl ⟨rfl, hbelow'⟩
      · rw [hout]
        exact Or.inr ⟨stopped, rfl, hstop⟩
    · have hleft := offsets_in_left hline hgo
      have hone := access_counted (by omega) hacc
      have hnext := (hone.full rfl).2
      have hlt' : st₁.accesses + p.offsets_in (siz - (offset + p.cache_line_size)) < 2 ^ 64 := by
        omega
      rw [if_pos hgo]
      rcases access_beside hfinite (by omega) hbelow duration reports hacc with
        ⟨hout, hbelow'⟩ | ⟨stopped, hout, hstop⟩
      · rw [hout]
        exact (ih hlt' hbelow' hrest).since hone hbelow'
      · rw [hout]
        exact Or.inr ⟨stopped, rfl, hstop.extend (offsets_counted hline hlt' hrest)⟩

theorem pass_beside {siz : ℕ} {st st' : State} {e : Option Exit}
    (hfinite : p.infinite_duration = false) (hline : 0 < p.cache_line_size)
    (hlt : st.accesses + p.offsets_in siz < 2 ^ 64)
    (hbelow : st.accesses < p.max_accesses) (duration : ℤ) (reports : List Report)
    (h : pass w spin fuel p.uncapped env cycle startpass siz st = some (st', e)) :
    Beside p.max_accesses env startpass st st' e duration reports
      (pass w spin fuel p env cycle startpass siz (st.billed duration reports)) := by
  unfold pass
  have hoffsets : ∀ {e₁}, offsets w spin p.uncapped env cycle startpass siz fuel 0
      { st with seen_initial := false } = some (st', e₁) →
      Beside p.max_accesses env startpass { st with seen_initial := false } st' e₁ duration reports
        (offsets w spin p env cycle startpass siz fuel 0
          { st.billed duration reports with seen_initial := false }) :=
    fun hoff => offsets_beside hfinite hline (by exact hlt) (by exact hbelow) duration reports hoff
  rcases pass_cases h with ⟨x, hoff, rfl⟩ | ⟨hoff, hassert⟩
  · rcases hoffsets hoff with ⟨hout, hbelow'⟩ | ⟨stopped, hout, hstop⟩
    · rw [hout]
      exact Or.inl ⟨rfl, hbelow'⟩
    · rw [hout]
      exact Or.inr ⟨stopped, rfl, hstop.touched, hstop.le, hstop.report, hstop.begun⟩
  · rcases hoffsets hoff with ⟨hout, hbelow'⟩ | ⟨stopped, hout, hstop⟩
    · -- both runs check the same assertion
      rw [hout]
      simp only
      rcases hassert with ⟨hholds, rfl⟩ | ⟨hfails, rfl⟩
      · rw [if_pos (show siz = 0 ∨ (st'.billed duration reports).seen_initial = true from hholds)]
        exact Or.inl ⟨rfl, hbelow'⟩
      · rw [if_neg (show ¬(siz = 0 ∨ (st'.billed duration reports).seen_initial = true)
          from hfails)]
        exact Or.inl ⟨rfl, hbelow'⟩
    · rw [hout]
      exact Or.inr ⟨stopped, rfl, hstop.touched, hstop.le, hstop.report, hstop.begun⟩

theorem passes_beside {siz count : ℕ} {st st' : State} {e : Option Exit}
    (hfinite : p.infinite_duration = false) (hline : 0 < p.cache_line_size)
    (hlt : st.accesses + count * p.offsets_in siz < 2 ^ 64)
    (hbelow : st.accesses < p.max_accesses) (duration : ℤ) (reports : List Report)
    (h : passes w spin fuel p.uncapped env cycle startpass siz count st = some (st', e)) :
    Beside p.max_accesses env startpass st st' e duration reports
      (passes w spin fuel p env cycle startpass siz count (st.billed duration reports)) := by
  induction count generalizing st with
  | zero =>
    cases h
    exact Or.inl ⟨rfl, hbelow⟩
  | succ count ih =>
    rw [Nat.succ_mul] at hlt
    unfold passes
    rcases passes_cases h with ⟨x, hpass, rfl⟩ | ⟨st₁, hpass, hrest⟩
    · rcases pass_beside hfinite hline (by omega) hbelow duration reports hpass with
        ⟨hout, hbelow'⟩ | ⟨stopped, hout, hstop⟩
      · rw [hout]
        exact Or.inl ⟨rfl, hbelow'⟩
      · rw [hout]
        exact Or.inr ⟨stopped, rfl, hstop⟩
    · have hone := pass_counted hline (by omega) hpass
      have hnext := (hone.full rfl).2
      have hlt' : st₁.accesses + count * p.offsets_in siz < 2 ^ 64 := by omega
      rcases pass_beside hfinite hline (by omega) hbelow duration reports hpass with
        ⟨hout, hbelow'⟩ | ⟨stopped, hout, hstop⟩
      · rw [hout]
        exact (ih hlt' hbelow' hrest).since hone hbelow'
      · rw [hout]
        exact Or.inr ⟨stopped, rfl, hstop.extend (passes_counted hline hlt' hrest)⟩

end capped

/-! ## Section 2: Whole runs -/

theorem keep_randomizer_billed (st : State) (cycle : ℕ) (duration : ℤ) (reports : List Report) :
    (st.billed duration reports).keep_randomizer cycle
      = (st.keep_randomizer cycle).billed duration reports := by
  unfold State.keep_randomizer
  rw [show (st.billed duration reports).selects_cont_rand cycle = st.selects_cont_rand cycle
    from rfl]
  split <;> rfl

/-- The capped run accumulates where the uncapped one reports. -/
theorem end_cycle_billed {p : Params} (hcap : 0 < p.max_accesses) (st : State) (env : Env)
    (startpass duration : ℤ) (reports : List Report) :
    (st.billed duration reports).end_cycle p env startpass
      = (st.end_cycle p.uncapped env startpass).billed
        (duration + (env.clock st.clocks - startpass)) reports := by
  unfold State.end_cycle
  rw [if_neg (by omega), if_pos (show p.uncapped.max_accesses = 0 from rfl)]
  rfl

/-- The accesses of the first cycle from `cycle` on that makes any; the sizes
    of the cycles alternate. -/
def Params.first_accesses (p : Params) (cycle : ℕ) : ℕ :=
  if p.accesses_in cycle = 0 then p.accesses_in (cycle + 1) else p.accesses_in cycle

theorem accesses_in_add_two (p : Params) (cycle : ℕ) :
    p.accesses_in (cycle + 2) = p.accesses_in cycle := by
  unfold Params.accesses_in Params.siz
  rw [Nat.add_mod_right]

theorem first_accesses_succ {p : Params} {cycle : ℕ} (h : p.accesses_in cycle = 0) :
    p.first_accesses (cycle + 1) = p.first_accesses cycle := by
  unfold Params.first_accesses
  rw [accesses_in_add_two, h, if_pos rfl]
  by_cases hnext : p.accesses_in (cycle + 1) = 0
  · rw [if_pos hnext, hnext]
  · rw [if_neg hnext]

/-- The time spent in the passes of the first `k` cycles: the clock is read
    before and after the passes of each. -/
def elapsed (env : Env) (k : ℕ) : ℤ :=
  ∑ i ∈ Finset.range k, (env.clock (2 * i + 1) - env.clock (2 * i))

/-- How the capped run ends, `st'` being the end of the uncapped one and
    `first` the size of the first cycle with accesses. -/
structure Outcome (A first : ℕ) (env : Env) (st st' stopped : State) (e : Option Exit) :
    Prop where
  mono : st.touched.length ≤ st'.touched.length
  stop : (e ≠ some .capped ∧ stopped.touched.length = st'.touched.length) ∨
    (e = some .capped ∧ st.touched.length + A ≤ stopped.touched.length ∧
      stopped.touched.length ≤ st'.touched.length ∧
      ∃ reports, stopped.reports = reports ++ [.traversal (elapsed env stopped.begun) A])
  early : A ≤ first → stopped.touched.length ≤ st.touched.length + A
  late : first < A → st.touched.length + A < st'.touched.length →
    st.touched.length + A < stopped.touched.length

section outcome
variable {A first n : ℕ} {env : Env} {st st' stopped : State} {e : Option Exit}

/-- Which generator the state holds does not matter to an outcome. -/
theorem Outcome.keep_randomizer (h : Outcome A first env st st' stopped e) (cycle : ℕ) :
    Outcome A first env st st' (stopped.keep_randomizer cycle) e := by
  refine ⟨h.mono, ?_, ?_, ?_⟩
  · rw [keep_randomizer_touched, keep_randomizer_reports, keep_randomizer_begun]
    exact h.stop
  · rw [keep_randomizer_touched]
    exact h.early
  · rw [keep_randomizer_touched]
    exact h.late

/-- Both runs are cut short in the same cycle, below the cap. -/
theorem Outcome.of_exit {cycle : ℕ} (hcounted : Counted (st.begin_cycle env cycle) st' n e)
    (hbelow : st'.accesses < A) (hsame : stopped.touched = st'.touched) :
    Outcome A first env st (st'.keep_randomizer cycle) stopped e where
  mono := by
    rw [keep_randomizer_touched]
    exact hcounted.mono
  stop := Or.inl ⟨hcounted.not_capped, by rw [hsame, keep_randomizer_touched]⟩
  early := by
    intro _
    have hslack := hcounted.slack
    rw [begin_cycle_touched, begin_cycle_accesses] at hslack
    rw [hsame]
    omega
  late := by
    intro _ hlate
    rw [keep_randomizer_touched] at hlate
    rw [hsame]
    exact hlate

/-- The capped run stops in a cycle that the uncapped one leaves or not. -/
theorem Outcome.of_stopped {cycle : ℕ} {st₁ : State} (hA : 0 < A)
    (hfirst : n ≠ 0 → first = n) (hclocks : st.clocks = 2 * cycle) (hbegun : st.begun = cycle)
    (hcounted : Counted (st.begin_cycle env cycle) st₁ n e)
    (hstop : Stopped A env (env.clock (2 * cycle)) (st.begin_cycle env cycle) st₁ A
      (elapsed env cycle) stopped)
    (hmono : st₁.touched.length ≤ st'.touched.length) :
    Outcome A first env st st' stopped (some .capped) := by
  have htouched := hstop.touched
  have hle := hstop.le
  have hmost := hcounted.le
  rw [begin_cycle_touched] at htouched hmost
  have hreport : ∃ reports, stopped.reports
      = reports ++ [.traversal (elapsed env stopped.begun) A] := by
    obtain ⟨reports, hreports⟩ := hstop.report
    refine ⟨reports, ?_⟩
    rw [hreports, hstop.begun, show (st.begin_cycle env cycle).begun = cycle + 1 from
      congrArg (· + 1) hbegun, show (st.begin_cycle env cycle).clocks = 2 * cycle + 1 from
      congrArg (· + 1) hclocks, elapsed, elapsed, Finset.sum_range_succ]
  refine ⟨by omega, Or.inr ⟨rfl, by omega, by omega, hreport⟩, fun _ => by omega, ?_⟩
  intro hsmall
  have := hfirst (by omega)
  omega

/-- Both runs get through a cycle of `n` accesses, below the cap. -/
theorem Outcome.cons {first' : ℕ} {st₁ : State}
    (hfull : st₁.touched.length = st.touched.length + n) (hbelow : n < A)
    (hfirst : n ≠ 0 → first = n) (hempty : n = 0 → first' = first)
    (hrest : Outcome A first' env st₁ st' stopped e) : Outcome A first env st st' stopped e where
  mono := by
    have := hrest.mono
    omega
  stop := by
    rcases hrest.stop with hsame | ⟨hcapped, hmore, hle, hreport⟩
    · exact Or.inl hsame
    · exact Or.inr ⟨hcapped, by omega, hle, hreport⟩
  early := by
    intro hlarge
    by_cases hn : n = 0
    · have := hrest.early (by rw [hempty hn]; exact hlarge)
      omega
    · have := hfirst hn
      omega
  late := by
    intro hsmall hlate
    by_cases hn : n = 0
    · have := hrest.late (by rw [hempty hn]; exact hsmall)
      omega
    · -- the accesses of this cycle come on top of the cap
      rcases hrest.stop with ⟨-, hsame⟩ | ⟨-, hmore, -, -⟩
      · omega
      · omega

end outcome

section runs
variable {w : Arith} {spin fuel : ℕ} {p : Params} {env : Env}

/-- The uncapped run from the head of `cycle`: its record grows, by the
    accesses of all cycles to come unless it is cut short. -/
theorem cycles_counted {rounds cycle : ℕ} {st st' : State} {e : Option Exit}
    (hfinite : p.infinite_duration = false) (hline : 0 < p.cache_line_size)
    (hlt : ∀ c, p.accesses_in c < 2 ^ 64)
    (h : cycles w spin fuel p.uncapped env rounds cycle st = some (st', e)) :
    st.touched.length ≤ st'.touched.length ∧
      (e = none → st'.touched.length
        = st.touched.length + ∑ c ∈ Finset.Ico cycle (2 * p.num_periods), p.accesses_in c) := by
  induction rounds generalizing cycle st with
  | zero => cases h
  | succ rounds ih =>
    have hcounted : ∀ {st₁ e₁}, passes w spin fuel p.uncapped env cycle (env.clock st.clocks)
        (p.siz cycle) p.passes_per_cycle (st.begin_cycle env cycle) = some (st₁, e₁) →
        Counted (st.begin_cycle env cycle) st₁ (p.accesses_in cycle) e₁ := fun hpasses =>
      passes_counted hline (by rw [begin_cycle_accesses, Nat.zero_add]; exact hlt cycle) hpasses
    rcases cycles_cases h with ⟨hdone, rfl, rfl⟩ | ⟨hgo, st₁, x, hpasses, rfl, rfl⟩ |
      ⟨hgo, st₁, hpasses, hrest⟩
    · have hdone : ¬cycle < 2 * p.num_periods := hdone
      refine ⟨Nat.le_refl _, fun _ => ?_⟩
      rw [Finset.Ico_eq_empty hdone, Finset.sum_empty, Nat.add_zero]
    · rw [keep_randomizer_touched]
      exact ⟨(hcounted hpasses).mono, by simp⟩
    · have hmono := (hcounted hpasses).mono
      have hfull := ((hcounted hpasses).full rfl).1
      rw [begin_cycle_touched] at hmono hfull
      have hgo : cycle < 2 * p.num_periods := hgo
      simp only [show p.uncapped.infinite_duration = false from hfinite,
        Bool.false_eq_true, if_false] at hrest
      obtain ⟨hmono', hfull'⟩ := ih hrest
      rw [end_cycle_touched, keep_randomizer_touched] at hmono' hfull'
      refine ⟨by omega, ?_⟩
      intro he
      rw [hfull' he, hfull, Finset.sum_eq_sum_Ico_succ_bot hgo, Nat.add_assoc]

/-- **Run**: the capped run from the head of `cycle`, in a state it shares
    with the uncapped one. -/
theorem cycles_beside {rounds cycle : ℕ} {st st' : State} {e : Option Exit}
    (hfinite : p.infinite_duration = false) (hline : 0 < p.cache_line_size)
    (hlt : ∀ c, p.accesses_in c < 2 ^ 64) (hcap : 0 < p.max_accesses)
    (hclocks : st.clocks = 2 * cycle) (hbegun : st.begun = cycle) (reports : List Report)
    (h : cycles w spin fuel p.uncapped env rounds cycle st = some (st', e)) :
    ∃ stopped e', cycles w spin fuel p env rounds cycle (st.billed (elapsed env cycle) reports)
        = some (stopped, e') ∧
      Outcome p.max_accesses (p.first_accesses cycle) env st st' stopped e' := by
  induction rounds generalizing cycle st with
  | zero => cases h
  | succ rounds ih =>
    have hbegin : (st.begin_cycle env cycle).accesses + p.passes_per_cycle
        * p.offsets_in (p.siz cycle) < 2 ^ 64 := by
      rw [begin_cycle_accesses, Nat.zero_add]
      exact hlt cycle
    have hbeside : ∀ {st₁ e₁}, passes w spin fuel p.uncapped env cycle (env.clock (2 * cycle))
        (p.siz cycle) p.passes_per_cycle (st.begin_cycle env cycle) = some (st₁, e₁) →
        Beside p.max_accesses env (env.clock (2 * cycle)) (st.begin_cycle env cycle) st₁ e₁
          (elapsed env cycle) reports (passes w spin fuel p env cycle (env.clock (2 * cycle))
            (p.siz cycle) p.passes_per_cycle
            ((st.billed (elapsed env cycle) reports).begin_cycle env cycle)) :=
      fun hpasses => passes_beside hfinite hline hbegin hcap (elapsed env cycle) reports hpasses
    unfold cycles
    rw [show (st.billed (elapsed env cycle) reports).clocks = 2 * cycle from hclocks]
    rcases cycles_cases h with ⟨hdone, rfl, rfl⟩ | ⟨hgo, st₁, x, hpasses, rfl, rfl⟩ |
      ⟨hgo, st₁, hpasses, hrest⟩
    · rw [if_neg (show ¬cycle < 2 * p.num_periods from hdone)]
      exact ⟨_, none, rfl, Nat.le_refl _, Or.inl ⟨by simp, rfl⟩,
        fun _ => Nat.le_add_right _ _, fun _ hlate => hlate⟩
    · -- the uncapped run is cut short in this cycle
      rw [hclocks] at hpasses
      have hcounted := passes_counted hline hbegin hpasses
      rw [if_pos (show cycle < 2 * p.num_periods from hgo)]
      simp only
      rcases hbeside hpasses with ⟨hout, hbelow⟩ | ⟨stopped, hout, hstop⟩
      · rw [hout]
        have hexit : Outcome p.max_accesses (p.first_accesses cycle) env st
            (st₁.keep_randomizer cycle) (st₁.billed (elapsed env cycle) reports) (some x) :=
          Outcome.of_exit hcounted hbelow rfl
        exact ⟨_, _, rfl, hexit.keep_randomizer cycle⟩
      · rw [hout]
        have hcapped : Outcome p.max_accesses (p.first_accesses cycle) env st
            (st₁.keep_randomizer cycle) stopped (some .capped) :=
          Outcome.of_stopped hcap (fun hn => if_neg hn) hclocks hbegun hcounted hstop
            (by rw [keep_randomizer_touched])
        exact ⟨_, _, rfl, hcapped.keep_randomizer cycle⟩
    · rw [hclocks] at hpasses hrest
      simp only [show p.uncapped.infinite_duration = false from hfinite,
        Bool.false_eq_true, if_false] at hrest
      have hcounted : Counted (st.begin_cycle env cycle) st₁ (p.accesses_in cycle) none :=
        passes_counted hline hbegin hpasses
      rw [if_pos (show cycle < 2 * p.num_periods from hgo)]
      simp only
      rcases hbeside hpasses with ⟨hout, hbelow⟩ | ⟨stopped, hout, hstop⟩
      · rw [hout]
        simp only [hfinite, Bool.false_eq_true, if_false]
        -- the clock is read once more, so the elapsed time is that of one more cycle
        have hclocks₁ : st₁.clocks = 2 * cycle + 1 :=
          hcounted.clocks.trans (congrArg (· + 1) hclocks)
        have helapsed : elapsed env cycle
            + (env.clock (st₁.keep_randomizer cycle).clocks - env.clock (2 * cycle))
            = elapsed env (cycle + 1) := by
          rw [keep_randomizer_clocks, hclocks₁, elapsed, elapsed, Finset.sum_range_succ]
        rw [keep_randomizer_billed, end_cycle_billed hcap, helapsed]
        obtain ⟨hfull, hcount⟩ := hcounted.full rfl
        obtain ⟨stopped, e', hgoes, houtcome⟩ := ih
          (by rw [end_cycle_clocks, keep_randomizer_clocks, hclocks₁]; omega)
          (by rw [end_cycle_begun, keep_randomizer_begun, hcounted.begun]
              exact congrArg (· + 1) hbegun) hrest
        refine ⟨stopped, e', hgoes, houtcome.cons (n := p.accesses_in cycle) ?_ ?_
          (fun hn => if_neg hn) first_accesses_succ⟩
        · rw [end_cycle_touched, keep_randomizer_touched]
          exact hfull
        · rw [begin_cycle_accesses] at hcount
          omega
      · -- the capped run stops, and the uncapped one goes on
        rw [hout]
        have hgrows := (cycles_counted hfinite hline hlt hrest).1
        rw [end_cycle_touched, keep_randomizer_touched] at hgrows
        have hcapped : Outcome p.max_accesses (p.first_accesses cycle) env st st' stopped
            (some .capped) :=
          Outcome.of_stopped hcap (fun hn => if_neg hn) hclocks hbegun hcounted hstop hgrows
        exact ⟨_, _, rfl, hcapped.keep_randomizer cycle⟩

/-- The numbers of accesses that the types of the parameters allow fit the
    counter. -/
theorem accesses_in_lt (hpasses : p.passes_per_cycle < 2 ^ 31)
    (hcontracted : p.capacity_contracted < 2 ^ 31) (hexpanded : p.capacity_expanded < 2 ^ 31)
    (hline : 0 < p.cache_line_size) (cycle : ℕ) : p.accesses_in cycle < 2 ^ 64 := by
  have hsiz : p.siz cycle < 2 ^ 31 := by
    unfold Params.siz
    split <;> assumption
  have hoffsets : p.offsets_in (p.siz cycle) ≤ 2 ^ 31 := by
    unfold Params.offsets_in
    apply Nat.div_le_of_le_mul
    omega
  calc p.accesses_in cycle ≤ p.passes_per_cycle * 2 ^ 31 := Nat.mul_le_mul_left _ hoffsets
    _ < 2 ^ 31 * 2 ^ 31 := Nat.mul_lt_mul_of_pos_right hpasses (by decide)
    _ < 2 ^ 64 := by decide

/-- The accesses of all cycles of a run. -/
theorem sum_accesses_in (n : ℕ) :
    ∑ c ∈ Finset.Ico 0 (2 * n), p.accesses_in c = n * (p.accesses_in 0 + p.accesses_in 1) := by
  have halt : ∀ c, p.accesses_in (2 * c) = p.accesses_in 0 ∧
      p.accesses_in (2 * c + 1) = p.accesses_in 1 := by
    intro c
    unfold Params.accesses_in Params.siz
    constructor
    · rw [Nat.mul_mod_right]
    · rw [Nat.mul_add_mod]
  rw [← Finset.range_eq_Ico]
  induction n with
  | zero => simp
  | succ n ih =>
    rw [show 2 * (n + 1) = 2 * n + 1 + 1 by ring, Finset.sum_range_succ, Finset.sum_range_succ,
      ih, (halt n).1, (halt n).2]
    ring

/-- **The access cap**: beside a run without `-a` that performs `T` accesses,
    the run with a cap of `A` performs `min A T` and reports, when it stops at
    the cap, the accesses of the time it reports, iff `A` is at most the
    number of accesses of the first cycle that makes any, or at least `T`.
    `elapsed env stopped.begun` is the time of all passes begun, in which all
    accesses recorded in `touched` were made. -/
theorem square_evictions_cap_iff {rounds : ℕ} {arr : ℕ → UInt8}
    {randomize cont_rand : Option rng_state} {st' : State} {e : Option Exit}
    (hfinite : p.infinite_duration = false) (hline : 0 < p.cache_line_size)
    (hpasses : p.passes_per_cycle < 2 ^ 31) (hcontracted : p.capacity_contracted < 2 ^ 31)
    (hexpanded : p.capacity_expanded < 2 ^ 31) (hcap : 0 < p.max_accesses)
    (h : square_evictions w spin fuel rounds p.uncapped env arr randomize cont_rand
      = some (st', e)) :
    ∃ stopped e', square_evictions w spin fuel rounds p env arr randomize cont_rand
        = some (stopped, e') ∧
      ((stopped.touched.length = min p.max_accesses st'.touched.length ∧
        (e' = some .capped → ∃ reports, stopped.reports
          = reports ++ [.traversal (elapsed env stopped.begun) stopped.touched.length])) ↔
        (p.max_accesses ≤ p.first_accesses 0 ∨ st'.touched.length ≤ p.max_accesses)) ∧
      (e = none → st'.touched.length = p.num_periods * (p.accesses_in 0 + p.accesses_in 1)) := by
  have hlt := accesses_in_lt hpasses hcontracted hexpanded hline
  have hstart : (State.start arr randomize cont_rand).billed (elapsed env 0) []
      = State.start arr randomize cont_rand := by
    rw [elapsed, Finset.sum_range_zero]
    rfl
  unfold square_evictions at h ⊢
  obtain ⟨stopped, e', hrun, houtcome⟩ : ∃ stopped e', cycles w spin fuel p env rounds 0
      ((State.start arr randomize cont_rand).billed (elapsed env 0) []) = some (stopped, e') ∧
      Outcome p.max_accesses (p.first_accesses 0) env (State.start arr randomize cont_rand) st'
        stopped e' := by
    apply cycles_beside hfinite hline hlt hcap _ _ [] h
    · rfl
    · rfl
  rw [hstart] at hrun
  have hstop := houtcome.stop
  have hearly := houtcome.early
  have hlate := houtcome.late
  simp only [State.start, List.length_nil, Nat.zero_add] at hstop hearly hlate
  refine ⟨stopped, e', hrun, ⟨?_, ?_⟩, ?_⟩
  · intro hexact
    by_contra hno
    have := hlate (by omega) (by omega)
    have := hexact.1
    omega
  · intro hcond
    have hmin : stopped.touched.length = min p.max_accesses st'.touched.length := by
      rcases hstop with ⟨-, hsame⟩ | ⟨-, hmore, hle, -⟩
      · rcases hcond with hfirst | hall
        · have := hearly hfirst
          omega
        · omega
      · rcases hcond with hfirst | hall
        · have := hearly hfirst
          omega
        · omega
    refine ⟨hmin, ?_⟩
    intro hcapped
    rcases hstop with ⟨hne, -⟩ | ⟨-, hmore, hle, hreport⟩
    · exact absurd hcapped hne
    · rw [show stopped.touched.length = p.max_accesses by omega]
      exact hreport
  · intro he
    have hfull := (cycles_counted hfinite hline hlt h).2 he
    rw [sum_accesses_in] at hfull
    simpa only [State.start, List.length_nil, Nat.zero_add] using hfull

end runs

/-- Two periods of one pass over two and over three lines, with a cap. -/
def cappedParams (max_accesses : ℕ) : Params :=
  { uncappedParams with
    num_periods := 2
    passes_per_cycle := 1
    capacity_contracted := 128
    capacity_expanded := 192
    max_accesses := max_accesses }

/-- A cap within the first cycle holds. -/
theorem square_evictions_cap_two :
    (square_evictions .u32 1 4 5 (cappedParams 2) quietEnv (fun _ => 0) none none).map
      (fun r => r.1.touched.length) = some (min 2 10) := by
  have hrun : ∃ st', square_evictions .u32 1 4 5 (cappedParams 2).uncapped quietEnv (fun _ => 0)
      none none = some (st', none) ∧ st'.touched.length = 10 := ⟨_, rfl, rfl⟩
  obtain ⟨st', huncapped, htotal⟩ := hrun
  obtain ⟨stopped, e', hcapped, hiff, -⟩ := square_evictions_cap_iff (p := cappedParams 2)
    (by decide) (by decide) (by decide) (by decide) (by decide) (by decide) huncapped
  have hmin := (hiff.mpr (Or.inl (by decide))).1
  rw [htotal] at hmin
  rw [hcapped, Option.map_some, hmin]
  rfl

/-- A cap of three is passed unnoticed in the first cycle, which makes two
    accesses: five are performed in all, and three are reported for the time
    of five. -/
theorem square_evictions_cap_three :
    (square_evictions .u32 1 4 5 (cappedParams 3).uncapped quietEnv (fun _ => 0) none none).map
        (fun r => r.1.touched.length) = some 10 ∧
      (square_evictions .u32 1 4 5 (cappedParams 3) quietEnv (fun _ => 0) none none).map
        (fun r => (r.1.touched.length, r.1.reports, r.2))
        = some (5, [.traversal 2 3], some .capped) ∧
      5 ≠ min 3 10 := by
  refine ⟨by decide, by decide, by decide⟩

end SquareEvictions
