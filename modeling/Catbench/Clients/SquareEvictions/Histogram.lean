import Catbench.Clients.SquareEvictions.Pass

/-! # The latency histogram of `square_evictions`

    With `-m` every access is timed and counted in a histogram of
    `MAX_MEMREF_CYCLES_POW` buckets.  The comment above the update wants the
    first two cycles ignored; the condition below it counts them and nothing
    else, and the bucket is not compared with the size of the array.

    The statements are about every iteration a call goes through, whether it
    returns or not, so the nested loops are read here as a relation between
    iterations.
-/

open Machine Rng

namespace SquareEvictions

/-! ## Section 1: The iterations of a call -/

def MAX_MEMREF_CYCLES_POW : ℕ := 17

/-- The number of the cycle after `cycle`. -/
def Params.next_cycle (p : Params) (cycle : ℕ) : ℕ :=
  if p.infinite_duration then cycle else cycle + 1

/-- The start of a pass. -/
def State.begin_pass (st : State) : State := { st with seen_initial := false }

/-- The loops of a call stand at iteration `offset` of `pass` in `cycle`. -/
inductive At (w : Arith) (spin : ℕ) (p : Params) (env : Env) (st₀ : State) :
    ℕ → ℕ → ℕ → ℤ → State → Prop where
  | start (hcycle : 0 < 2 * p.num_periods) (hpass : 0 < p.passes_per_cycle) :
      At w spin p env st₀ 0 0 0 (env.clock st₀.clocks) (st₀.begin_cycle env 0).begin_pass
  | offset {cycle pass offset : ℕ} {startpass : ℤ} {st st' : State}
      (h : At w spin p env st₀ cycle pass offset startpass st) (hgo : offset < p.siz cycle)
      (haccess : access w spin p env cycle startpass (p.siz cycle) offset st = some (st', none)) :
      At w spin p env st₀ cycle pass (offset + p.cache_line_size) startpass st'
  | pass {cycle pass offset : ℕ} {startpass : ℤ} {st : State}
      (h : At w spin p env st₀ cycle pass offset startpass st) (hend : ¬offset < p.siz cycle)
      (hassert : p.siz cycle = 0 ∨ st.seen_initial = true)
      (hpass : pass + 1 < p.passes_per_cycle) :
      At w spin p env st₀ cycle (pass + 1) 0 startpass st.begin_pass
  | cycle {cycle pass offset : ℕ} {startpass : ℤ} {st st₁ : State}
      (h : At w spin p env st₀ cycle pass offset startpass st) (hend : ¬offset < p.siz cycle)
      (hassert : p.siz cycle = 0 ∨ st.seen_initial = true)
      (hpass : pass + 1 = p.passes_per_cycle)
      (hst₁ : st₁ = (st.keep_randomizer cycle).end_cycle p env startpass)
      (hcycle : p.next_cycle cycle < 2 * p.num_periods) :
      At w spin p env st₀ (p.next_cycle cycle) 0 0 (env.clock st₁.clocks)
        (st₁.begin_cycle env (p.next_cycle cycle)).begin_pass

/-- The access record of a call: the `j`-th access in `touched` was made by one
    of these iterations. -/
def Recorded (w : Arith) (spin : ℕ) (p : Params) (env : Env) (st₀ : State) (touched : List ℕ)
    (j : ℕ) : Prop :=
  ∃ cycle pass offset startpass st st' e,
    At w spin p env st₀ cycle pass offset startpass st ∧ offset < p.siz cycle ∧
    access w spin p env cycle startpass (p.siz cycle) offset st = some (st', e) ∧
    st.touched = touched.take j ∧ st'.touched = touched.take (j + 1)

section iterations
variable {w : Arith} {spin : ℕ} {p : Params} {env : Env} {st₀ : State}

/-- An iteration makes no access and no histogram update, or one access and
    the update of its cycle. -/
theorem access_measured {cycle siz offset : ℕ} {startpass : ℤ} {st st' : State}
    {e : Option Exit}
    (h : access w spin p env cycle startpass siz offset st = some (st', e)) :
    ∃ ix tries r, pick w spin p siz offset st.randomizer = some (ix, tries, r) ∧
    ((p.no_randspin = true ∧ 1 < tries ∧ e = some (.spun tries) ∧
      st'.touched = st.touched ∧ st'.hits = st.hits) ∨
    (¬(p.no_randspin = true ∧ 1 < tries) ∧ st'.touched = st.touched ++ [ix] ∧
      st'.hits = if p.measure_all = true ∧ cycle < 2 then
        st.hits ++ [Nat.log2 (env.latency st.measured)] else st.hits)) := by
  unfold access at h
  cases hpick : pick w spin p siz offset st.randomizer with
  | none => rw [hpick] at h; cases h
  | some r =>
    obtain ⟨ix, tries, randomizer⟩ := r
    rw [hpick] at h
    simp only [Bool.and_eq_true, decide_eq_true_eq] at h
    refine ⟨ix, tries, randomizer, rfl, ?_⟩
    split at h
    · next hspun =>
      cases h
      exact Or.inl ⟨hspun.1, hspun.2, rfl, rfl, rfl⟩
    · next hspun =>
      right
      refine ⟨hspun, ?_⟩
      generalize hst : (if p.measure_all then _ else _ : State) = st₁ at h
      have hst₁ : st₁.touched = st.touched ++ [ix] ∧
          st₁.hits = if p.measure_all = true ∧ cycle < 2 then
            st.hits ++ [Nat.log2 (env.latency st.measured)] else st.hits := by
        subst hst
        by_cases hm : p.measure_all = true
        · rw [if_pos hm]
          simp only [hm, true_and]
          exact ⟨rfl, rfl⟩
        · rw [if_neg hm]
          rw [if_neg (fun hc => hm hc.1)]
          exact ⟨rfl, rfl⟩
      have hcount : ∀ s : State, (s.count p env startpass).1.touched = s.touched ∧
          (s.count p env startpass).1.hits = s.hits := by
        intro s
        unfold State.count
        simp only
        split <;> exact ⟨rfl, rfl⟩
      split at h
      · split at h
        · have hst' := congrArg Prod.fst (Option.some.inj h)
          simp only at hst'
          rw [← hst', (hcount _).1, (hcount _).2]
          exact hst₁
        · cases h
          exact hst₁
      · have hst' := congrArg Prod.fst (Option.some.inj h)
        simp only at hst'
        rw [← hst', (hcount _).1, (hcount _).2]
        exact hst₁

/-- Every access that the record of `st'` has beyond that of `st` was made by
    one of the iterations. -/
structure Explained (w : Arith) (spin : ℕ) (p : Params) (env : Env) (st₀ st st' : State) :
    Prop where
  front : st.touched <+: st'.touched
  recorded : ∀ j, st.touched.length ≤ j → j < st'.touched.length →
    Recorded w spin p env st₀ st'.touched j

theorem Explained.of_eq {st st' : State} (h : st'.touched = st.touched) :
    Explained w spin p env st₀ st st' where
  front := by rw [h]
  recorded := by
    intro j hle hlt
    rw [h] at hlt
    omega

theorem Explained.trans {st st₁ st₂ : State} (h₁ : Explained w spin p env st₀ st st₁)
    (h₂ : Explained w spin p env st₀ st₁ st₂) : Explained w spin p env st₀ st st₂ where
  front := h₁.front.trans h₂.front
  recorded := by
    intro j hle hlt
    by_cases hj : j < st₁.touched.length
    · -- the later accesses do not change the record up to `j`
      obtain ⟨rest, hrest⟩ := h₂.front
      obtain ⟨cycle, pass, offset, startpass, s, s', e, hat, hgo, haccess, hs, hs'⟩ :=
        h₁.recorded j hle hj
      refine ⟨cycle, pass, offset, startpass, s, s', e, hat, hgo, haccess, ?_, ?_⟩
      · rw [hs, ← hrest, List.take_append_of_le_length (by omega)]
      · rw [hs', ← hrest, List.take_append_of_le_length (by omega)]
    · exact h₂.recorded j (by omega) hlt

theorem At.access_explained {cycle pass offset : ℕ} {startpass : ℤ} {st st' : State}
    {e : Option Exit} (hat : At w spin p env st₀ cycle pass offset startpass st)
    (hgo : offset < p.siz cycle)
    (h : access w spin p env cycle startpass (p.siz cycle) offset st = some (st', e)) :
    Explained w spin p env st₀ st st' := by
  obtain ⟨ix, tries, r, -, hcase⟩ := access_measured h
  rcases hcase with ⟨-, -, -, htouched, -⟩ | ⟨-, htouched, -⟩
  · exact Explained.of_eq htouched
  · refine ⟨htouched ▸ List.prefix_append _ _, ?_⟩
    intro j hle hlt
    rw [htouched, List.length_append, List.length_singleton] at hlt
    have hj : j = st.touched.length := by omega
    subst hj
    refine ⟨cycle, pass, offset, startpass, st, st', e, hat, hgo, h, ?_, ?_⟩
    · rw [htouched, List.take_left]
    · rw [List.take_of_length_le]
      rw [htouched, List.length_append, List.length_singleton]

/-- The loop over `offset` goes through the iterations of its pass. -/
theorem At.offsets {cycle pass offset fuel : ℕ} {startpass : ℤ} {st st' : State}
    {e : Option Exit} (hat : At w spin p env st₀ cycle pass offset startpass st)
    (h : offsets w spin p env cycle startpass (p.siz cycle) fuel offset st = some (st', e)) :
    Explained w spin p env st₀ st st' ∧
      (e = none → ∃ offset', At w spin p env st₀ cycle pass offset' startpass st' ∧
        ¬offset' < p.siz cycle) := by
  induction fuel generalizing offset st with
  | zero => cases h
  | succ fuel ih =>
    rcases offsets_cases h with ⟨hdone, rfl, rfl⟩ | ⟨hgo, x, haccess, rfl⟩ |
      ⟨hgo, st₁, haccess, hrest⟩
    · exact ⟨Explained.of_eq rfl, fun _ => ⟨offset, hat, hdone⟩⟩
    · exact ⟨hat.access_explained hgo haccess, by simp⟩
    · obtain ⟨hexpl, hend⟩ := ih (hat.offset hgo haccess) hrest
      exact ⟨(hat.access_explained hgo haccess).trans hexpl, hend⟩

/-- A pass goes through its iterations and passes its assertion. -/
theorem At.pass_end {cycle pass fuel : ℕ} {startpass : ℤ} {st st' : State} {e : Option Exit}
    (hat : At w spin p env st₀ cycle pass 0 startpass st.begin_pass)
    (h : SquareEvictions.pass w spin fuel p env cycle startpass (p.siz cycle) st
      = some (st', e)) :
    Explained w spin p env st₀ st st' ∧
      (e = none → ∃ offset', At w spin p env st₀ cycle pass offset' startpass st' ∧
        ¬offset' < p.siz cycle ∧ (p.siz cycle = 0 ∨ st'.seen_initial = true)) := by
  have hoffsets : ∀ {e₁}, SquareEvictions.offsets w spin p env cycle startpass (p.siz cycle)
      fuel 0 st.begin_pass = some (st', e₁) → Explained w spin p env st₀ st st' := by
    intro e₁ hoff
    have hexpl := (hat.offsets hoff).1
    exact ⟨hexpl.front, hexpl.recorded⟩
  rcases pass_cases h with ⟨x, hoff, rfl⟩ | ⟨hoff, ⟨hassert, rfl⟩ | ⟨-, rfl⟩⟩
  · exact ⟨hoffsets hoff, by simp⟩
  · obtain ⟨offset', hat', hdone⟩ := (hat.offsets hoff).2 rfl
    exact ⟨hoffsets hoff, fun _ => ⟨offset', hat', hdone, hassert⟩⟩
  · exact ⟨hoffsets hoff, by simp⟩

/-- So do the passes of a cycle, from the given one to the last. -/
theorem At.passes {cycle pass count fuel : ℕ} {startpass : ℤ} {st st' : State}
    {e : Option Exit} (hat : At w spin p env st₀ cycle pass 0 startpass st.begin_pass)
    (hcount : pass + count = p.passes_per_cycle) (hpos : 0 < count)
    (h : passes w spin fuel p env cycle startpass (p.siz cycle) count st = some (st', e)) :
    Explained w spin p env st₀ st st' ∧
      (e = none → ∃ pass' offset', At w spin p env st₀ cycle pass' offset' startpass st' ∧
        ¬offset' < p.siz cycle ∧ (p.siz cycle = 0 ∨ st'.seen_initial = true) ∧
        pass' + 1 = p.passes_per_cycle) := by
  induction count generalizing pass st with
  | zero => omega
  | succ count ih =>
    rcases passes_cases h with ⟨x, hpass, rfl⟩ | ⟨st₁, hpass, hrest⟩
    · exact ⟨(hat.pass_end hpass).1, by simp⟩
    · obtain ⟨hexpl, hend⟩ := hat.pass_end hpass
      obtain ⟨offset', hat', hdone, hassert⟩ := hend rfl
      by_cases hlast : count = 0
      · subst hlast
        cases hrest
        exact ⟨hexpl, fun _ => ⟨pass, offset', hat', hdone, hassert, hcount⟩⟩
      · obtain ⟨hexpl', hend'⟩ :=
          ih (hat'.pass hdone hassert (by omega)) (by omega) (by omega) hrest
        exact ⟨hexpl.trans hexpl', hend'⟩

/-- So does a whole call, from the head of `cycle`. -/
theorem cycles_explained {rounds fuel cycle : ℕ} {st st' : State} {e : Option Exit}
    (hat : cycle < 2 * p.num_periods → 0 < p.passes_per_cycle →
      At w spin p env st₀ cycle 0 0 (env.clock st.clocks) (st.begin_cycle env cycle).begin_pass)
    (h : cycles w spin fuel p env rounds cycle st = some (st', e)) :
    Explained w spin p env st₀ st st' := by
  induction rounds generalizing cycle st with
  | zero => cases h
  | succ rounds ih =>
    -- the passes of this cycle, and how the next one begins
    have hcycle : ∀ {st₁ e₁}, cycle < 2 * p.num_periods →
        passes w spin fuel p env cycle (env.clock st.clocks) (p.siz cycle) p.passes_per_cycle
          (st.begin_cycle env cycle) = some (st₁, e₁) →
        Explained w spin p env st₀ st st₁ ∧ (e₁ = none →
          p.next_cycle cycle < 2 * p.num_periods → 0 < p.passes_per_cycle →
          At w spin p env st₀ (p.next_cycle cycle) 0 0
            (env.clock ((st₁.keep_randomizer cycle).end_cycle p env (env.clock st.clocks)).clocks)
            ((((st₁.keep_randomizer cycle).end_cycle p env (env.clock st.clocks)).begin_cycle
              env (p.next_cycle cycle)).begin_pass)) := by
      intro st₁ e₁ hgo hpasses
      by_cases hpos : 0 < p.passes_per_cycle
      · obtain ⟨hexpl, hend⟩ := (hat hgo hpos).passes (Nat.zero_add _) hpos hpasses
        refine ⟨⟨hexpl.front, hexpl.recorded⟩, ?_⟩
        intro he hnext _
        obtain ⟨pass', offset', hat', hdone, hassert, hlast⟩ := hend he
        exact hat'.cycle hdone hassert hlast rfl hnext
      · rw [show p.passes_per_cycle = 0 by omega] at hpasses
        cases hpasses
        exact ⟨Explained.of_eq rfl, fun _ _ hpos' => absurd hpos' hpos⟩
    rcases cycles_cases h with ⟨-, rfl, -⟩ | ⟨hgo, st₁, x, hpasses, rfl, -⟩ |
      ⟨hgo, st₁, hpasses, hrest⟩
    · exact Explained.of_eq rfl
    · exact (hcycle hgo hpasses).1.trans (Explained.of_eq (keep_randomizer_touched st₁ cycle))
    · obtain ⟨hexpl, hnext⟩ := hcycle hgo hpasses
      have hbetween : Explained w spin p env st₀ st₁
          ((st₁.keep_randomizer cycle).end_cycle p env (env.clock st.clocks)) := by
        apply Explained.of_eq
        rw [end_cycle_touched, keep_randomizer_touched]
      exact (hexpl.trans hbetween).trans (ih (hnext rfl) hrest)

/-- **The iterations are those of the program**: every access in the record of
    a call that returns was made by one of them. -/
theorem square_evictions_recorded {rounds fuel : ℕ} {arr : ℕ → UInt8}
    {randomize cont_rand : Option rng_state} {st' : State} {e : Option Exit}
    (h : square_evictions w spin fuel rounds p env arr randomize cont_rand = some (st', e))
    {j : ℕ} (hj : j < st'.touched.length) :
    Recorded w spin p env (State.start arr randomize cont_rand) st'.touched j :=
  (cycles_explained (fun hcycle hpass => .start hcycle hpass) h).recorded j (Nat.zero_le j) hj

end iterations

/-! ## Section 2: What the comment asks for -/

/-- The update for an access of `cycle`: none in the first two cycles, later
    one in the bucket of the latency, which exists. -/
def Counts (env : Env) (cycle : ℕ) (st st' : State) : Prop :=
  (cycle < 2 → st'.hits = st.hits) ∧
  (2 ≤ cycle → ∃ k, k < MAX_MEMREF_CYCLES_POW ∧ st'.hits = st.hits ++ [k] ∧
    (env.latency st.measured < 2 ^ MAX_MEMREF_CYCLES_POW →
      2 ^ k ≤ env.latency st.measured ∧ env.latency st.measured < 2 ^ (k + 1)))

/-- All histogram updates of a call are the ones for its accesses. -/
def Accounted (w : Arith) (spin : ℕ) (p : Params) (env : Env) (st₀ : State) : Prop :=
  ∀ cycle pass offset startpass st st' e,
    At w spin p env st₀ cycle pass offset startpass st → offset < p.siz cycle →
    access w spin p env cycle startpass (p.siz cycle) offset st = some (st', e) →
    (st'.touched = st.touched → st'.hits = st.hits) ∧
    (st'.touched ≠ st.touched → Counts env cycle st st')

/-- The first cycle with a working set, if there is one. -/
def Params.first_cycle (p : Params) : ℕ := if p.capacity_contracted = 0 then 1 else 0

theorem first_cycle_lt_two (p : Params) : p.first_cycle < 2 := by
  unfold Params.first_cycle
  split <;> decide

theorem first_cycle_siz_pos {p : Params}
    (h : ¬(p.capacity_contracted = 0 ∧ p.capacity_expanded = 0)) : 0 < p.siz p.first_cycle := by
  unfold Params.first_cycle Params.siz
  by_cases hempty : p.capacity_contracted = 0
  · rw [if_pos hempty, if_pos rfl]
    omega
  · rw [if_neg hempty, if_neg (by decide)]
    omega

/-- A call that makes no access: there is no pass, or nothing to traverse in
    the cycles it gets to, or its first draws end in no access. -/
def Idle (w : Arith) (spin : ℕ) (p : Params) (env : Env) (st₀ : State) : Prop :=
  p.num_periods = 0 ∨ p.passes_per_cycle = 0 ∨
  (p.capacity_contracted = 0 ∧ (p.infinite_duration = true ∨ p.capacity_expanded = 0)) ∨
  ∀ ix tries r, pick w spin p (p.siz p.first_cycle) 0
      (st₀.begin_cycle env p.first_cycle).randomizer = some (ix, tries, r) →
    p.no_randspin = true ∧ 1 < tries

section accounting
variable {w : Arith} {spin : ℕ} {p : Params} {env : Env} {st₀ : State}

/-- The generators have not been drawn from since the call began. -/
structure Fresh (env : Env) (st₀ : State) (cycle : ℕ) (st : State) : Prop where
  randomize : st.randomize = st₀.randomize
  cont_rand : st.cont_rand = st₀.cont_rand
  randomizer : st.randomizer = (st₀.begin_cycle env cycle).randomizer

theorem fresh_begin_cycle {st : State} (env : Env) (cycle : ℕ)
    (hr : st.randomize = st₀.randomize) (hc : st.cont_rand = st₀.cont_rand) :
    Fresh env st₀ cycle (st.begin_cycle env cycle).begin_pass where
  randomize := hr
  cont_rand := hc
  randomizer := by
    show (if st.selects_cont_rand cycle then st.cont_rand else st.randomize)
      = if st₀.selects_cont_rand cycle then st₀.cont_rand else st₀.randomize
    unfold State.selects_cont_rand
    rw [hr, hc]

/-- A cycle without accesses keeps the generators as they were. -/
theorem Fresh.end_cycle {cycle : ℕ} {st : State} (h : Fresh env st₀ cycle st) (startpass : ℤ) :
    ((st.keep_randomizer cycle).end_cycle p env startpass).randomize = st₀.randomize ∧
      ((st.keep_randomizer cycle).end_cycle p env startpass).cont_rand = st₀.cont_rand := by
  have hsel : st.selects_cont_rand cycle = st₀.selects_cont_rand cycle := by
    unfold State.selects_cont_rand
    rw [h.randomize, h.cont_rand]
  have hgen : st.randomizer
      = if st₀.selects_cont_rand cycle then st₀.cont_rand else st₀.randomize := h.randomizer
  rw [end_cycle_randomize, end_cycle_cont_rand]
  unfold State.keep_randomizer
  rw [hsel]
  by_cases hsel₀ : st₀.selects_cont_rand cycle = true
  · rw [if_pos hsel₀] at hgen
    rw [if_pos hsel₀]
    exact ⟨h.randomize, hgen⟩
  · rw [if_neg hsel₀] at hgen
    rw [if_neg hsel₀]
    exact ⟨hgen, h.cont_rand⟩

/-- The first iteration with something to traverse is reached with fresh
    generators. -/
theorem at_first_cycle (hperiods : 0 < p.num_periods) (hpasses : 0 < p.passes_per_cycle)
    (hsome : ¬(p.capacity_contracted = 0 ∧ p.infinite_duration = true)) :
    ∃ startpass st, At w spin p env st₀ p.first_cycle 0 0 startpass st ∧
      Fresh env st₀ p.first_cycle st := by
  unfold Params.first_cycle
  have hstart : At w spin p env st₀ 0 0 0 (env.clock st₀.clocks)
      (st₀.begin_cycle env 0).begin_pass := .start (by omega) hpasses
  have hfresh : Fresh env st₀ 0 (st₀.begin_cycle env 0).begin_pass :=
    fresh_begin_cycle env 0 rfl rfl
  by_cases hempty : p.capacity_contracted = 0
  · rw [if_pos hempty]
    have hfinite : p.infinite_duration ≠ true := fun hinf => hsome ⟨hempty, hinf⟩
    have hsiz : p.siz 0 = 0 := hempty
    -- all passes of the empty cycle 0
    have hpass : ∀ k, k < p.passes_per_cycle →
        ∃ st, At w spin p env st₀ 0 k 0 (env.clock st₀.clocks) st ∧ Fresh env st₀ 0 st := by
      intro k
      induction k with
      | zero => exact fun _ => ⟨_, hstart, hfresh⟩
      | succ k ih =>
        intro hk
        obtain ⟨st, hat, hf⟩ := ih (by omega)
        exact ⟨st.begin_pass, hat.pass (by omega) (Or.inl hsiz) hk,
          hf.randomize, hf.cont_rand, hf.randomizer⟩
    obtain ⟨st, hat, hf⟩ := hpass (p.passes_per_cycle - 1) (by omega)
    have hnext : p.next_cycle 0 = 1 := if_neg hfinite
    have hcycle := hat.cycle (by omega) (Or.inl hsiz) (by omega) rfl (by omega)
    rw [hnext] at hcycle
    obtain ⟨hr, hc⟩ := hf.end_cycle (p := p) (env.clock st₀.clocks)
    exact ⟨_, _, hcycle, fresh_begin_cycle env 1 hr hc⟩
  · rw [if_neg hempty]
    exact ⟨_, _, hstart, hfresh⟩

/-- A call that is not idle makes its first access in one of the two cycles
    that should be ignored. -/
theorem idle_of_accounted (hm : p.measure_all = true) (h : Accounted w spin p env st₀) :
    Idle w spin p env st₀ := by
  by_contra hidle
  unfold Idle at hidle
  push Not at hidle
  obtain ⟨hperiods, hpasses, hsome, ix, tries, r, hpick, hperformed⟩ := hidle
  have hsiz : 0 < p.siz p.first_cycle := first_cycle_siz_pos fun hboth => (hsome hboth.1).2 hboth.2
  obtain ⟨startpass, st, hat, hfresh⟩ : ∃ startpass st,
      At w spin p env st₀ p.first_cycle 0 0 startpass st ∧ Fresh env st₀ p.first_cycle st :=
    at_first_cycle (by omega) (by omega) (fun hboth => (hsome hboth.1).1 hboth.2)
  rw [← hfresh.randomizer] at hpick
  obtain ⟨st', e, haccess, -, -, -⟩ := access_cases env p.first_cycle startpass hpick
  obtain ⟨ix', tries', r', hpick', hcase⟩ := access_measured haccess
  rw [hpick] at hpick'
  cases hpick'
  rcases hcase with ⟨hspin, htries, -⟩ | ⟨-, htouched, hhits⟩
  · have := hperformed hspin
    omega
  · have hfirst : p.first_cycle < 2 := first_cycle_lt_two p
    have hne : st'.touched ≠ st.touched := by
      rw [htouched]
      simp
    have hsame := ((h _ _ _ _ _ _ _ hat hsiz haccess).2 hne).1 hfirst
    rw [hhits, if_pos ⟨hm, hfirst⟩] at hsame
    simp at hsame

/-- Without a working set no iteration is due. -/
theorem At.siz_eq_zero (hempty : p.capacity_contracted = 0)
    (hnone : p.infinite_duration = true ∨ p.capacity_expanded = 0) {cycle pass offset : ℕ}
    {startpass : ℤ} {st : State} (h : At w spin p env st₀ cycle pass offset startpass st) :
    p.siz cycle = 0 := by
  rcases hnone with hinf | hexpanded
  · -- an infinite run never leaves the contracted cycle
    have hcycle : cycle = 0 := by
      induction h with
      | start _ _ => rfl
      | offset _ _ _ ih => exact ih
      | pass _ _ _ _ ih => exact ih
      | cycle _ _ _ _ _ _ ih => rw [Params.next_cycle, if_pos hinf]; exact ih
    rw [hcycle]
    exact hempty
  · unfold Params.siz
    split <;> assumption

theorem At.periods_pos {cycle pass offset : ℕ} {startpass : ℤ} {st : State}
    (h : At w spin p env st₀ cycle pass offset startpass st) :
    0 < p.num_periods ∧ 0 < p.passes_per_cycle := by
  induction h with
  | start hcycle hpass => exact ⟨by omega, hpass⟩
  | offset _ _ _ ih => exact ih
  | pass _ _ _ _ ih => exact ih
  | cycle _ _ _ _ _ _ ih => exact ih

/-- A call whose first draws end in no access gets no further than there. -/
theorem At.refused (hsiz : 0 < p.siz p.first_cycle)
    (hrefused : ∀ ix tries r, pick w spin p (p.siz p.first_cycle) 0
        (st₀.begin_cycle env p.first_cycle).randomizer = some (ix, tries, r) →
      p.no_randspin = true ∧ 1 < tries)
    {cycle pass offset : ℕ} {startpass : ℤ} {st : State}
    (h : At w spin p env st₀ cycle pass offset startpass st) :
    Fresh env st₀ cycle st ∧ ((cycle < p.first_cycle ∧ p.siz cycle = 0) ∨
      (cycle = p.first_cycle ∧ pass = 0 ∧ offset = 0)) := by
  -- where the run is at the start of cycle 0, also when it comes back to it
  have hzero : (0 < p.first_cycle ∧ p.siz 0 = 0) ∨ 0 = p.first_cycle := by
    unfold Params.first_cycle
    by_cases hempty : p.capacity_contracted = 0
    · exact Or.inl ⟨by rw [if_pos hempty]; decide, hempty⟩
    · exact Or.inr (if_neg hempty).symm
  induction h with
  | start hcycle hpass =>
    refine ⟨fresh_begin_cycle env 0 rfl rfl, ?_⟩
    rcases hzero with hbefore | hfirst
    · exact Or.inl hbefore
    · exact Or.inr ⟨hfirst, rfl, rfl⟩
  | @offset cycle pass offset startpass st st' _ hgo haccess ih =>
    obtain ⟨hfresh, hwhere⟩ := ih
    rcases hwhere with ⟨-, hnone⟩ | ⟨rfl, rfl, rfl⟩
    · omega
    · obtain ⟨ix, tries, r, hpick, hcase⟩ := access_measured haccess
      rw [hfresh.randomizer] at hpick
      rcases hcase with ⟨-, -, he, -⟩ | ⟨hperformed, -⟩
      · cases he
      · exact absurd (hrefused ix tries r hpick) hperformed
  | @pass cycle pass offset startpass st _ hend _ _ ih =>
    obtain ⟨hfresh, hwhere⟩ := ih
    rcases hwhere with hbefore | ⟨rfl, rfl, rfl⟩
    · exact ⟨⟨hfresh.randomize, hfresh.cont_rand, hfresh.randomizer⟩, Or.inl hbefore⟩
    · exact absurd hsiz hend
  | @cycle cycle pass offset startpass st st₁ _ hend _ _ hst₁ _ ih =>
    obtain ⟨hfresh, hwhere⟩ := ih
    rcases hwhere with ⟨hbefore, hnone⟩ | ⟨rfl, rfl, rfl⟩
    · obtain ⟨hr, hc⟩ := hfresh.end_cycle (p := p) startpass
      subst hst₁
      refine ⟨fresh_begin_cycle env _ hr hc, ?_⟩
      have hlt := first_cycle_lt_two p
      have hcycle : cycle = 0 := by omega
      subst hcycle
      unfold Params.next_cycle
      by_cases hinf : p.infinite_duration = true
      · rw [if_pos hinf]
        exact Or.inl ⟨hbefore, hnone⟩
      · rw [if_neg hinf]
        exact Or.inr ⟨by omega, rfl, rfl⟩
    · exact absurd hsiz hend

/-- **Histogram accounting**: a call with `-m` keeps to the comment above the
    histogram update, in every iteration it goes through, iff it makes no
    access at all. -/
theorem histogram_accounted_iff (hm : p.measure_all = true) :
    Accounted w spin p env st₀ ↔ Idle w spin p env st₀ := by
  constructor
  · exact idle_of_accounted hm
  · intro hidle cycle pass offset startpass st st' e hat hgo haccess
    obtain ⟨hperiods, hpasses⟩ := hat.periods_pos
    by_cases hempty : p.capacity_contracted = 0 ∧
        (p.infinite_duration = true ∨ p.capacity_expanded = 0)
    · have := hat.siz_eq_zero hempty.1 hempty.2
      omega
    · have hrefused := ((hidle.resolve_left (by omega)).resolve_left (by omega)).resolve_left hempty
      have hsiz : 0 < p.siz p.first_cycle :=
        first_cycle_siz_pos fun hboth => hempty ⟨hboth.1, Or.inr hboth.2⟩
      obtain ⟨hfresh, hwhere⟩ := hat.refused hsiz hrefused
      obtain ⟨ix, tries, r, hpick, hcase⟩ := access_measured haccess
      rcases hwhere with ⟨-, hnone⟩ | ⟨rfl, rfl, rfl⟩
      · omega
      · rw [hfresh.randomizer] at hpick
        rcases hcase with ⟨-, -, -, htouched, hhits⟩ | ⟨hperformed, -⟩
        · exact ⟨fun _ => hhits, fun hne => absurd htouched hne⟩
        · exact absurd (hrefused ix tries r hpick) hperformed

end accounting

/-- Periods of one pass over one line, every access measured. -/
def measuredParams (num_periods : ℕ) : Params :=
  { uncappedParams with
    num_periods := num_periods
    passes_per_cycle := 1
    capacity_contracted := 64
    capacity_expanded := 64
    measure_all := true }

/-- Surroundings in which every access is interrupted. -/
def slowEnv : Env := { quietEnv with latency := fun _ => 2 ^ 17 }

/-- A call without periods keeps to the comment. -/
theorem histogram_accounted_no_period :
    Accounted .u32 1 (measuredParams 0) slowEnv (State.start (fun _ => 0) none none) :=
  (histogram_accounted_iff rfl).mpr (Or.inl rfl)

/-- Two periods of four accesses: the ones of cycles 0 and 1 are counted, the
    others are not, and the bucket is beyond the end of the array. -/
theorem histogram_slow_accesses :
    ¬Accounted .u32 1 (measuredParams 2) slowEnv (State.start (fun _ => 0) none none) ∧
      (square_evictions .u32 1 2 5 (measuredParams 2) slowEnv (fun _ => 0) none none).map
        (fun r => (r.1.touched.length, r.1.hits)) = some (4, [17, 17]) := by
  refine ⟨?_, by decide⟩
  intro h
  have hfirst := h 0 0 0 _ _ _ _ (.start (by decide) (by decide)) (by decide) rfl
  have hsame := (hfirst.2 (by decide)).1 (by decide)
  exact absurd hsame (by decide)

end SquareEvictions
