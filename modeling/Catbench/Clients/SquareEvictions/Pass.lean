import Catbench.Clients.SquareEvictions.Traversal

/-! # Every pass visits every cache line of its phase once

    The rejection loop of `square_evictions` is the rejection loop of
    `CycleMap` for the predicate "the drawn index lies in the working set".
    The invariant of a pass therefore speaks of the draws made since the pass
    began: `t` of them, at most one period, the accepted ones being exactly
    the lines touched so far.  `CycleMap.SingleCycle.next_accept` moves it
    forward by one access, `CycleMap.SingleCycle.filter_draws_perm` reads the
    permutation off it at the end.
-/

open Machine Rng

namespace SquareEvictions

/-! ## Section 1: The rejection loop -/

/-- A drawn line number is accepted if its byte index is in the working set. -/
def accepts (w : Arith) (cache_line_size siz r : ℕ) : Bool :=
  decide (w.wrap (r * cache_line_size) < siz)

/-- The rejection loop draws until `accepts` holds. -/
theorem draw_eq (w : Arith) (b siz fuel : ℕ) (ctxt : rng_state) (last tries : ℕ) :
    draw w b siz fuel { ctxt with last := last } tries =
      (CycleMap.drawUntil (next w ctxt) (accepts w b siz) fuel last).map
        fun r => (w.wrap (r.1 * b), tries + r.2, { ctxt with last := r.1 }) := by
  induction fuel generalizing last tries with
  | zero => rfl
  | succ fuel ih =>
    have hdraw : rng_lcfc w { ctxt with last := last }
        = (next w ctxt last, { ctxt with last := next w ctxt last }) := rfl
    unfold draw CycleMap.drawUntil
    simp only [hdraw]
    by_cases hacc : w.wrap (next w ctxt last * b) < siz
    · simp [accepts, hacc, Nat.not_le.mpr hacc]
    · simp only [accepts, hacc, Nat.not_lt.mp hacc, if_true, decide_false,
        Bool.false_eq_true, if_false]
      rw [ih, Option.map_map]
      congr 1
      funext r
      simp [Nat.add_assoc, Nat.add_comm 1]

section lines
variable {n b m : ℕ}

/-- Inside the period no index wraps, and exactly the lines of the phase are
    accepted. -/
theorem accepts_iff (w : Arith) (hb : 0 < b) (hword : m * b ≤ 2 ^ 32) {r : ℕ} (hr : r < m) :
    accepts w b (n * b) r = true ↔ r < n := by
  have hlt : r * b < 2 ^ 32 := Nat.lt_of_lt_of_le (Nat.mul_lt_mul_of_pos_right hr hb) hword
  rw [accepts, wrap_of_lt w hlt, decide_eq_true_eq]
  exact Nat.mul_lt_mul_right hb

theorem filter_accepts (w : Arith) (hb : 0 < b) (hword : m * b ≤ 2 ^ 32) (hn : n ≤ m) :
    (List.range m).filter (accepts w b (n * b)) = List.range n := by
  have hcongr : (List.range m).filter (accepts w b (n * b))
      = (List.range m).filter (fun r => decide (r < n)) := by
    apply List.filter_congr
    intro r hr
    rw [Bool.eq_iff_iff, accepts_iff w hb hword (List.mem_range.mp hr), decide_eq_true_eq]
  have hsplit : List.range m = List.range n ++ (List.range (m - n)).map (n + ·) := by
    rw [← List.range_add, Nat.add_sub_cancel' hn]
  rw [hcongr, hsplit, List.filter_append, List.filter_eq_self.mpr, List.filter_eq_nil_iff.mpr]
  · simp
  · intro r hr
    obtain ⟨k, -, rfl⟩ := List.mem_map.mp hr
    simp
  · intro r hr
    simpa using hr

theorem countP_accepts (w : Arith) (hb : 0 < b) (hword : m * b ≤ 2 ^ 32) (hn : n ≤ m) :
    (List.range m).countP (accepts w b (n * b)) = n := by
  rw [List.countP_eq_length_filter, filter_accepts w hb hword hn, List.length_range]

end lines

/-! ## Section 2: One access -/

/-- Ways in which an iteration may end once its index is picked. -/
inductive Ended (p : Params) (env : Env) (st st' : State) (ix tries : ℕ) : Option Exit → Prop where
  | spun (hq : p.no_randspin = true) (htouched : st'.touched = st.touched)
      (htries : st'.tries = st.tries) : Ended p env st st' ix tries (some (.spun tries))
  | append_failed (hlog : p.perflog = true) (hfail : env.append_ok st.appended = false)
      (htouched : st'.touched = st.touched ++ [ix]) (htries : st'.tries = st.tries ++ [tries]) :
      Ended p env st st' ix tries (some .append_failed)
  | capped (hfinite : p.infinite_duration = false)
      (hcap : (st.accesses + 1) % 2 ^ 64 = p.max_accesses)
      (htouched : st'.touched = st.touched ++ [ix]) (htries : st'.tries = st.tries ++ [tries]) :
      Ended p env st st' ix tries (some .capped)
  | going (haccesses : st'.accesses = (st.accesses + 1) % 2 ^ 64)
      (htouched : st'.touched = st.touched ++ [ix]) (htries : st'.tries = st.tries ++ [tries]) :
      Ended p env st st' ix tries none

/-- Counting an access ends the iteration: the cap is hit, or the counter has
    moved on. -/
theorem count_cases (p : Params) (env : Env) {st : State} (st₁ : State) {ix tries : ℕ}
    (startpass : ℤ)
    (htouched : st₁.touched = st.touched ++ [ix]) (htries : st₁.tries = st.tries ++ [tries])
    (hacc : st₁.accesses = st.accesses) :
    ∃ st' e, st₁.count p env startpass = (st', e) ∧ st'.randomizer = st₁.randomizer ∧
      st'.seen_initial = st₁.seen_initial ∧ Ended p env st st' ix tries e := by
  unfold State.count
  simp only
  split
  · next h =>
    simp only [Bool.and_eq_true, Bool.not_eq_true', beq_iff_eq, hacc] at h
    exact ⟨_, _, rfl, rfl, rfl, .capped h.1 h.2 htouched htries⟩
  · exact ⟨_, _, rfl, rfl, rfl, .going (by rw [hacc]) htouched htries⟩

/-- Everything one iteration can do. -/
theorem access_cases {w : Arith} {spin : ℕ} {p : Params} (env : Env) (cycle : ℕ) (startpass : ℤ)
    {siz offset ix tries : ℕ} {r : Option rng_state} {st : State}
    (hpick : pick w spin p siz offset st.randomizer = some (ix, tries, r)) :
    ∃ st' e, access w spin p env cycle startpass siz offset st = some (st', e) ∧
      st'.randomizer = r ∧ st'.seen_initial = (st.seen_initial || ix == 0) ∧
      Ended p env st st' ix tries e := by
  unfold access
  rw [hpick]
  simp only
  split
  · next hq =>
    simp only [Bool.and_eq_true] at hq
    exact ⟨_, _, rfl, rfl, rfl, .spun hq.1 rfl rfl⟩
  · -- the state after the access and its measurement
    generalize hst : (if p.measure_all then _ else _ : State) = st₁
    have hframe : st₁.randomizer = r ∧ st₁.seen_initial = (st.seen_initial || ix == 0) ∧
        st₁.touched = st.touched ++ [ix] ∧ st₁.tries = st.tries ++ [tries] ∧
        st₁.accesses = st.accesses ∧ st₁.appended = st.appended := by
      subst hst
      split <;> exact ⟨rfl, rfl, rfl, rfl, rfl, rfl⟩
    obtain ⟨hr, hseen, htouched, htries, hacc, happ⟩ := hframe
    split
    · next hlogs =>
      have hlog : p.perflog = true := by
        unfold Params.logs at hlogs
        simp only [Bool.and_eq_true] at hlogs
        exact hlogs.1
      split
      · obtain ⟨st', e, heq, hr', hseen', hend⟩ := count_cases
          p env { st₁ with appended := st₁.appended + 1 } startpass htouched htries hacc
        rw [heq]
        exact ⟨st', e, rfl, hr'.trans hr, hseen'.trans hseen, hend⟩
      · next hfail =>
        refine ⟨_, _, rfl, hr, hseen, .append_failed hlog ?_ htouched htries⟩
        rw [← happ]
        simpa using hfail
    · obtain ⟨st', e, heq, hr', hseen', hend⟩ := count_cases p env st₁ startpass htouched
        htries hacc
      rw [heq]
      exact ⟨st', e, rfl, hr'.trans hr, hseen'.trans hseen, hend⟩

/-! ## Section 3: The invariant of a pass -/

/-- A phase of `n` lines of `b` bytes whose generator is a single cycle through
    `[0, m)`.  `main` refuses a line size of 0. -/
structure Phase (rng : rng_state) (n b m : ℕ) : Prop where
  line_pos : 0 < b
  cycle : CycleMap.SingleCycle (next .u32 rng) m
  le_period : n ≤ m
  no_wrap : m * b ≤ 2 ^ 32

/-- The lines accepted among the first `t` draws of a pass. -/
def accepted (rng : rng_state) (n b t : ℕ) : List ℕ :=
  (CycleMap.draws (next .u32 rng) rng.last t).filter (accepts .u32 b (n * b))

/-- What a pass adds to the state it started from, also when it is cut short:
    the accesses of `block`, none of which took more than `bound` draws. -/
structure Extends (rng : rng_state) (bound : ℕ) (st₀ st : State) (block : List ℕ) : Prop where
  gen : ∃ last, st.randomizer = some { rng with last := last }
  touched : st.touched = st₀.touched ++ block
  tries : ∃ counts, st.tries = st₀.tries ++ counts ∧ counts.length = block.length ∧
    ∀ k ∈ counts, k ≤ bound

/-- After `t` draws of a pass that began in `st₀` with generator `rng`. -/
structure PassInv (rng : rng_state) (n b m : ℕ) (st₀ st : State) (t : ℕ) : Prop where
  gen : st.randomizer = some { rng with last := (next .u32 rng)^[t] rng.last }
  within : t ≤ m
  extends_start : Extends rng (m - n + 1) st₀ st ((accepted rng n b t).map (· * b))
  initial : st.seen_initial = true ↔ 0 ∈ accepted rng n b t
  accesses : st.accesses % 2 ^ 64 = (st₀.accesses + (accepted rng n b t).length) % 2 ^ 64

/-- Nothing cuts the next `total` accesses short: no `-q`, a log that grows
    when it has to, and no cap within reach. -/
structure Uninterrupted (p : Params) (env : Env) (st : State) (total : ℕ) : Prop where
  spin : p.no_randspin = false
  log : p.perflog = true → ∀ i, env.append_ok i = true
  cap : p.infinite_duration = true ∨
    ∀ j, 0 < j → j ≤ total → (st.accesses + j) % 2 ^ 64 ≠ p.max_accesses

section step
variable {rng : rng_state} {n b m spin : ℕ} {p : Params} {st₀ st : State} {t : ℕ}

theorem Phase.accepted_lt (ph : Phase rng n b m) {r : ℕ} (hr : r ∈ accepted rng n b t) :
    r < n := by
  obtain ⟨hdraw, hacc⟩ := List.mem_filter.mp hr
  exact (accepts_iff .u32 ph.line_pos ph.no_wrap (ph.cycle.draws_lt hdraw)).mp hacc

/-- The next draw of a pass that is not complete. -/
theorem PassInv.pick (ph : Phase rng n b m) (hp : p.cache_line_size = b)
    (hspin : m - n + 1 ≤ spin) (hinv : PassInv rng n b m st₀ st t)
    (hlt : (accepted rng n b t).length < n) (offset : ℕ) :
    ∃ k r, SquareEvictions.pick .u32 spin p (n * b) offset st.randomizer
        = some (r * b, k, some { rng with last := r }) ∧
      r = (next .u32 rng)^[t + k] rng.last ∧ k ≤ m - n + 1 ∧ t + k ≤ m ∧
      accepted rng n b (t + k) = accepted rng n b t ++ [r] := by
  have hcount := countP_accepts .u32 ph.line_pos ph.no_wrap ph.le_period
  obtain ⟨k, hdraw, hk, htk, hfilter⟩ :=
    ph.cycle.next_accept (accepts .u32 b (n * b)) rng.last spin hinv.within
      (by rw [hcount, List.countP_eq_length_filter]; exact hlt)
      (by rw [hcount]; exact hspin)
  rw [hcount] at hk
  have hmem : (next .u32 rng)^[t + k] rng.last ∈ accepted rng n b (t + k) := by
    unfold accepted
    rw [hfilter]
    simp
  have hword : (next .u32 rng)^[t + k] rng.last * b < 2 ^ 32 := by
    have hn := Nat.mul_lt_mul_of_pos_right (ph.accepted_lt hmem) ph.line_pos
    have hm := Nat.mul_le_mul_right b ph.le_period
    have := ph.no_wrap
    omega
  refine ⟨k, _, ?_, rfl, hk, htk, hfilter⟩
  rw [hinv.gen, SquareEvictions.pick, hp, draw_eq, hdraw]
  simp [wrap_of_lt .u32 hword]

/-- **Step**: an access of a pass that is not complete moves the invariant
    forward by one line, unless the pass is cut short there. -/
theorem PassInv.access (ph : Phase rng n b m) (hp : p.cache_line_size = b)
    (hspin : m - n + 1 ≤ spin) (hinv : PassInv rng n b m st₀ st t)
    (hlt : (accepted rng n b t).length < n) (env : Env) (cycle : ℕ) (startpass : ℤ)
    (offset : ℕ) :
    ∃ st' e, SquareEvictions.access .u32 spin p env cycle startpass (n * b) offset st
        = some (st', e) ∧
      (∃ block, Extends rng (m - n + 1) st₀ st' block) ∧ e ≠ some .assertion_failed ∧
      (e = none → ∃ t', PassInv rng n b m st₀ st' t' ∧
        (accepted rng n b t').length = (accepted rng n b t).length + 1) ∧
      (Uninterrupted p env st₀ n → e = none) := by
  obtain ⟨k, r, hpick, hr, hk, htk, hacc⟩ := hinv.pick ph hp hspin hlt offset
  obtain ⟨st', e, haccess, hgen, hseen, hend⟩ := access_cases env cycle startpass hpick
  -- what the access adds to the pass, if it was performed
  have hext : st'.touched = st.touched ++ [r * b] → st'.tries = st.tries ++ [k] →
      Extends rng (m - n + 1) st₀ st' ((accepted rng n b (t + k)).map (· * b)) := by
    intro htouched htries
    obtain ⟨counts, htries₀, hlen, hcounts⟩ := hinv.extends_start.tries
    refine ⟨⟨_, hgen⟩, ?_, counts ++ [k], by rw [htries, htries₀, List.append_assoc], ?_, ?_⟩
    · rw [htouched, hinv.extends_start.touched, hacc, List.map_append, List.append_assoc,
        List.map_singleton]
    · rw [List.length_append, hlen, hacc, List.map_append, List.length_append]
      rfl
    · intro j hj
      rcases List.mem_append.mp hj with hj | hj
      · exact hcounts j hj
      · rw [List.mem_singleton.mp hj]; exact hk
  have hcap : (st.accesses + 1) % 2 ^ 64
      = (st₀.accesses + ((accepted rng n b t).length + 1)) % 2 ^ 64 := by
    have := hinv.accesses
    omega
  refine ⟨st', e, haccess, ?_, ?_, ?_, ?_⟩
  · cases hend with
    | spun hq htouched htr =>
      refine ⟨_, ⟨_, hgen⟩, htouched.trans hinv.extends_start.touched, ?_⟩
      rw [htr]
      exact hinv.extends_start.tries
    | append_failed hlog hfail htouched htr => exact ⟨_, hext htouched htr⟩
    | capped hf hc htouched htr => exact ⟨_, hext htouched htr⟩
    | going ha htouched htr => exact ⟨_, hext htouched htr⟩
  · cases hend <;> simp
  · rintro rfl
    cases hend with
    | going ha htouched htr =>
      refine ⟨t + k, ⟨hgen.trans (by rw [hr]), htk, hext htouched htr, ?_, ?_⟩,
        by rw [hacc, List.length_append, List.length_singleton]⟩
      · rw [hseen, hacc, Bool.or_eq_true, hinv.initial, List.mem_append, List.mem_singleton,
          beq_iff_eq, Nat.mul_eq_zero]
        have hb := ph.line_pos
        constructor
        · rintro (h | h | h)
          · exact Or.inl h
          · exact Or.inr h.symm
          · omega
        · rintro (h | h)
          · exact Or.inl h
          · exact Or.inr (Or.inl h.symm)
      · rw [ha, hacc, List.length_append, List.length_singleton, hcap, Nat.mod_mod]
  · intro hun
    cases hend with
    | spun hq _ _ => rw [hun.spin] at hq; exact absurd hq (by simp)
    | append_failed hlog hfail _ _ => rw [hun.log hlog] at hfail; exact absurd hfail (by simp)
    | capped hf hc _ _ =>
      rcases hun.cap with hinf | hcap'
      · rw [hf] at hinf; exact absurd hinf (by simp)
      · exact absurd (hcap.symm.trans hc) (hcap' _ (by omega) (by omega))
    | going _ _ _ => rfl

/-- The loop over `offset` from a state inside a pass. -/
theorem PassInv.offsets (ph : Phase rng n b m) (hp : p.cache_line_size = b)
    (hspin : m - n + 1 ≤ spin) (hinv : PassInv rng n b m st₀ st t) {left fuel : ℕ}
    (hleft : (accepted rng n b t).length + left = n) (hfuel : left + 1 ≤ fuel)
    (env : Env) (cycle : ℕ) (startpass : ℤ) :
    ∃ st' e, SquareEvictions.offsets .u32 spin p env cycle startpass (n * b) fuel
        ((accepted rng n b t).length * b) st = some (st', e) ∧
      (∃ block, Extends rng (m - n + 1) st₀ st' block) ∧ e ≠ some .assertion_failed ∧
      (e = none → ∃ t', PassInv rng n b m st₀ st' t' ∧ (accepted rng n b t').length = n) ∧
      (Uninterrupted p env st₀ n → e = none) := by
  induction left generalizing st t fuel with
  | zero =>
    obtain ⟨fuel, rfl⟩ : ∃ fuel', fuel = fuel' + 1 := ⟨fuel - 1, by omega⟩
    have hdone : ¬ (accepted rng n b t).length * b < n * b := by
      rw [show (accepted rng n b t).length = n from by omega]
      exact Nat.lt_irrefl _
    refine ⟨st, none, ?_, ⟨_, hinv.extends_start⟩, by simp, fun _ => ⟨t, hinv, by omega⟩, fun _ => rfl⟩
    unfold SquareEvictions.offsets
    rw [if_neg hdone]
  | succ left ih =>
    obtain ⟨fuel, rfl⟩ : ∃ fuel', fuel = fuel' + 1 := ⟨fuel - 1, by omega⟩
    have hgo : (accepted rng n b t).length * b < n * b :=
      Nat.mul_lt_mul_of_pos_right (by omega) ph.line_pos
    obtain ⟨st', e, haccess, hext, hassert, hnext, hun⟩ :=
      hinv.access ph hp hspin (by omega) env cycle startpass ((accepted rng n b t).length * b)
    unfold SquareEvictions.offsets
    rw [if_pos hgo, haccess]
    cases e with
    | some e => exact ⟨st', some e, rfl, hext, hassert, by simp, hun⟩
    | none =>
      obtain ⟨t', hinv', hlen⟩ := hnext rfl
      have hstep := ih hinv' (by omega) (by omega : left + 1 ≤ fuel)
      rw [hlen, Nat.add_mul, Nat.one_mul] at hstep
      rw [hp]
      exact hstep

end step

/-! ## Section 4: Passes -/

section passes
variable {rng : rng_state} {n b m spin fuel : ℕ} {p : Params}

theorem accepted_zero (rng : rng_state) (n b : ℕ) : accepted rng n b 0 = [] := rfl

/-- The invariant holds when a pass begins. -/
theorem passInv_begin {st : State} (hgen : st.randomizer = some rng) :
    PassInv rng n b m st { st with seen_initial := false } 0 where
  gen := hgen
  within := Nat.zero_le m
  extends_start := ⟨⟨_, hgen⟩, by simp [accepted_zero], [], by simp [accepted_zero]⟩
  initial := by simp [accepted_zero]
  accesses := by simp [accepted_zero]

/-- A complete pass has accepted every line of its phase once. -/
theorem PassInv.perm (ph : Phase rng n b m) {st₀ st : State} {t : ℕ}
    (hinv : PassInv rng n b m st₀ st t) (hlen : (accepted rng n b t).length = n) :
    (accepted rng n b t).Perm (List.range n) := by
  have hcount : (CycleMap.draws (next .u32 rng) rng.last t).countP (accepts .u32 b (n * b))
      = (List.range m).countP (accepts .u32 b (n * b)) := by
    rw [countP_accepts .u32 ph.line_pos ph.no_wrap ph.le_period, List.countP_eq_length_filter]
    exact hlen
  have hperm := ph.cycle.filter_draws_perm hinv.within hcount
  rw [filter_accepts .u32 ph.line_pos ph.no_wrap ph.le_period] at hperm
  exact hperm

/-- One pass: it ends, its assertion holds, and unless it is cut short it has
    visited every line once. -/
theorem pass_spec (ph : Phase rng n b m) (hp : p.cache_line_size = b)
    (hspin : m - n + 1 ≤ spin) (hfuel : n + 1 ≤ fuel) {st : State}
    (hgen : st.randomizer = some rng) (env : Env) (cycle : ℕ) (startpass : ℤ) :
    ∃ st' e, pass .u32 spin fuel p env cycle startpass (n * b) st = some (st', e) ∧
      ∃ block, Extends rng (m - n + 1) st st' block ∧ e ≠ some .assertion_failed ∧
        (e = none → st'.accesses % 2 ^ 64 = (st.accesses + n) % 2 ^ 64 ∧
          (block.map (· / b)).Perm (List.range n)) ∧
        (Uninterrupted p env st n → e = none) := by
  have hbegin := passInv_begin (n := n) (b := b) (m := m) hgen
  obtain ⟨st', e, hoff, hext, hassert, hdone, hun⟩ :=
    hbegin.offsets ph hp hspin (by rw [accepted_zero, List.length_nil, Nat.zero_add]) hfuel env
      cycle startpass
  rw [accepted_zero, List.length_nil, Nat.zero_mul] at hoff
  unfold pass
  rw [hoff]
  cases e with
  | some e =>
    obtain ⟨block, hext⟩ := hext
    exact ⟨st', some e, rfl, block, hext, hassert, by simp, hun⟩
  | none =>
    obtain ⟨t, hinv, hlen⟩ := hdone rfl
    have hperm := hinv.perm ph hlen
    -- line 0 is among the lines of a phase that has any
    have hseen : n * b = 0 ∨ st'.seen_initial = true := by
      by_cases hn : n = 0
      · exact Or.inl (by simp [hn])
      · refine Or.inr (hinv.initial.mpr ?_)
        rw [hperm.mem_iff, List.mem_range]
        omega
    refine ⟨st', none, ?_, _, hinv.extends_start, by simp, ?_, fun _ => rfl⟩
    · simp only
      rw [if_pos hseen]
    · intro _
      refine ⟨by rw [hinv.accesses, hlen], ?_⟩
      have hdiv : ((accepted rng n b t).map (· * b)).map (· / b) = accepted rng n b t := by
        rw [List.map_map]
        conv_rhs => rw [← List.map_id (accepted rng n b t)]
        apply List.map_congr_left
        intro r _
        simp [Nat.mul_div_cancel r ph.line_pos]
      rw [hdiv]
      exact hperm

theorem Phase.with_last (ph : Phase rng n b m) (last : ℕ) :
    Phase { rng with last := last } n b m :=
  ⟨ph.line_pos, ph.cycle, ph.le_period, ph.no_wrap⟩

/-- After a complete pass, the rest of the budget is still uninterrupted. -/
theorem Uninterrupted.tail {env : Env} {st st' : State} {total : ℕ}
    (h : Uninterrupted p env st (n + total))
    (hacc : st'.accesses % 2 ^ 64 = (st.accesses + n) % 2 ^ 64) :
    Uninterrupted p env st' total := by
  refine ⟨h.spin, h.log, ?_⟩
  rcases h.cap with hinf | hcap
  · exact Or.inl hinf
  · refine Or.inr fun j hj hle => ?_
    have := hcap (n + j) (by omega) (by omega)
    rwa [show (st'.accesses + j) % 2 ^ 64 = (st.accesses + (n + j)) % 2 ^ 64 from by omega]

/-- **Every pass visits every cache line of its phase exactly once.**  From any
    point of a generator that is a single cycle through `[0, m)`, any number of
    consecutive passes over `n ≤ m` lines ends with `m - n + 1` draws at most
    for each access, never fails the assertion on the initial line, and each
    pass that is not cut short touches the lines `0, ..., n - 1` once each.
    Nothing but `-q`, a failing log or the access cap cuts a pass short. -/
theorem passes_permute (ph : Phase rng n b m) (hp : p.cache_line_size = b)
    (hspin : m - n + 1 ≤ spin) (hfuel : n + 1 ≤ fuel) {st : State}
    (hgen : st.randomizer = some rng) (env : Env) (cycle : ℕ) (startpass : ℤ) (count : ℕ) :
    ∃ (st' : State) (e : Option Exit) (blocks : List (List ℕ)) (rest counts : List ℕ),
      passes .u32 spin fuel p env cycle startpass (n * b) count st = some (st', e) ∧
      st'.touched = st.touched ++ (blocks.flatten ++ rest) ∧
      (∀ block ∈ blocks, (block.map (· / b)).Perm (List.range n)) ∧
      st'.tries = st.tries ++ counts ∧ counts.length = (blocks.flatten ++ rest).length ∧
      (∀ k ∈ counts, k ≤ m - n + 1) ∧
      e ≠ some .assertion_failed ∧
      (e = none → blocks.length = count ∧ rest = []) ∧
      (Uninterrupted p env st (count * n) → e = none) := by
  induction count generalizing rng st with
  | zero =>
    exact ⟨st, none, [], [], [], rfl, by simp, by simp, by simp, by simp, by simp, by simp,
      by simp, by simp⟩
  | succ count ih =>
    obtain ⟨st₁, e, hpass, block, hext, hassert, hdone, hun⟩ :=
      pass_spec ph hp hspin hfuel hgen env cycle startpass
    obtain ⟨counts, htries, hlen, hcounts⟩ := hext.tries
    unfold passes
    rw [hpass]
    cases e with
    | some e =>
      refine ⟨st₁, some e, [], block, counts, rfl, by simpa using hext.touched, by simp, htries,
        by simpa using hlen, hcounts, hassert, by simp, fun h => hun ⟨h.spin, h.log, ?_⟩⟩
      rcases h.cap with hinf | hcap
      · exact Or.inl hinf
      · exact Or.inr fun j hj hle => hcap j hj (by rw [Nat.add_mul]; omega)
    | none =>
      obtain ⟨hacc, hperm⟩ := hdone rfl
      obtain ⟨last, hgen₁⟩ := hext.gen
      obtain ⟨st', e, blocks, rest, counts', hrun, htouched', hblocks, htries', hlen', hcounts',
        hassert', hnone, hun'⟩ := ih (ph.with_last last) hgen₁
      refine ⟨st', e, block :: blocks, rest, counts ++ counts', hrun, ?_, ?_, ?_, ?_, ?_,
        hassert', ?_, ?_⟩
      · rw [htouched', hext.touched]
        simp
      · intro blk hblk
        rcases List.mem_cons.mp hblk with rfl | hblk
        · exact hperm
        · exact hblocks blk hblk
      · rw [htries', htries, List.append_assoc]
      · rw [List.length_append, hlen, hlen']
        simp
      · intro k hk
        rcases List.mem_append.mp hk with hk | hk
        · exact hcounts k hk
        · exact hcounts' k hk
      · intro he
        obtain ⟨hl, hr⟩ := hnone he
        exact ⟨by rw [List.length_cons, hl], hr⟩
      · intro h
        apply hun'
        rw [Nat.add_mul, Nat.one_mul, Nat.add_comm] at h
        exact h.tail hacc

end passes

/-- Parameters of a call that nothing cuts short. -/
def uncappedParams : Params where
  cache_line_size := 64
  num_periods := 1
  passes_per_cycle := 3
  capacity_contracted := 320
  capacity_expanded := 320
  no_randspin := false
  perflog := false
  perfstride := none
  measure_all := false
  max_accesses := 0
  infinite_duration := false

/-- Surroundings in which every access takes one cycle. -/
def quietEnv : Env where
  latency := fun _ => 1
  append_ok := fun _ => true
  clock := fun i => i
  byte := fun _ => 0

/-- Three passes over five lines of 64 bytes, drawn from a generator of period
    8 that stands at 5. -/
theorem passes_permute_five_of_eight :
    ∃ (st' : State) (blocks : List (List ℕ)),
      passes .u32 4 6 uncappedParams quietEnv 0 0 (5 * 64) 3
          { State.start (fun _ => 0) none none with
            randomizer := some { last := 5, coeff := 9, incr := 3, mod := 8 } }
        = some (st', none) ∧
      st'.touched = blocks.flatten ∧ blocks.length = 3 ∧
      ∀ block ∈ blocks, (block.map (· / 64)).Perm (List.range 5) := by
  have hcoeff : coeff .u32 [2] = 9 := by decide
  have hcycle : CycleMap.SingleCycle
      (next .u32 { last := 5, coeff := coeff .u32 [2], incr := 3, mod := 2 ^ 3 }) (2 ^ 3) :=
    singleCycle_two_pow .u32 5 (by decide) (complete_two_pow 3) (by decide)
  rw [hcoeff] at hcycle
  have ph : Phase { last := 5, coeff := 9, incr := 3, mod := 8 } 5 64 8 :=
    ⟨by decide, hcycle, by decide, by decide⟩
  have hgen : ({ State.start (fun _ => 0) none none with
      randomizer := some { last := 5, coeff := 9, incr := 3, mod := 8 } } : State).randomizer
        = some { last := 5, coeff := 9, incr := 3, mod := 8 } := rfl
  obtain ⟨st', e, blocks, rest, counts, hrun, htouched, hblocks, -, -, -, -, hnone, hun⟩ :=
    passes_permute ph (rfl : uncappedParams.cache_line_size = 64) (by decide : 8 - 5 + 1 ≤ 4)
      (by decide : 5 + 1 ≤ 6) hgen quietEnv 0 0 3
  have hcap : ∀ j, 0 < j → j ≤ 3 * 5 → (0 + j) % 2 ^ 64 ≠ 0 := by
    intro j hj hle
    omega
  have he : e = none := hun ⟨rfl, fun h => absurd h (by decide), Or.inr hcap⟩
  obtain ⟨hlen, rfl⟩ := hnone he
  subst he
  exact ⟨st', blocks, hrun, by simpa [State.start] using htouched, hlen, hblocks⟩

end SquareEvictions
