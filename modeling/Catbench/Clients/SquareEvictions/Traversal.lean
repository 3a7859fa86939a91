import Catbench.Clients.Rng

/-! # The traversal of `square_evictions`

    The function `square_evictions` alternates contracted and expanded
    cycles; a cycle makes `passes_per_cycle` passes over its working set, and
    a pass performs one memory access per cache line.  With a generator the
    line of each access is drawn, and draws beyond the working set are
    rejected.

    A pass can be cut short: by `-q` when a draw was rejected, by a log buffer
    that cannot grow, by the access cap of `-a`, and by the assertion at its
    end.  What the function takes from its surroundings (measured latencies,
    the clock, the outcome of `bufappend`) is an environment of streams.
-/

open Machine Rng

namespace SquareEvictions

/-! ## Section 1: Model -/

/-- The parameters of `square_evictions` that do not change during a call. -/
structure Params where
  cache_line_size : ℕ
  num_periods : ℕ
  passes_per_cycle : ℕ
  capacity_contracted : ℕ
  capacity_expanded : ℕ
  no_randspin : Bool
  /-- Whether `*perflog` is set. -/
  perflog : Bool
  /-- `none` is -1. -/
  perfstride : Option ℕ
  measure_all : Bool
  max_accesses : ℕ
  infinite_duration : Bool

/-- The surroundings of a call, indexed by how often they were asked. -/
structure Env where
  /-- `rdtscp()` difference around the `i`-th measured access. -/
  latency : ℕ → ℕ
  /-- Result of the `i`-th `bufappend`. -/
  append_ok : ℕ → Bool
  /-- Result of the `i`-th `clock()`. -/
  clock : ℕ → ℤ
  /-- The byte that `rand()` gives at the start of the `i`-th cycle. -/
  byte : ℕ → UInt8

/-- What the call prints at its end or after each cycle: the interval and the
    accesses counted for it. -/
inductive Report where
  | traversal (duration : ℤ) (accesses : ℕ)
  | iteration (duration : ℤ) (accesses : ℕ)
  deriving DecidableEq, Repr

/-- Ways in which a pass is cut short. -/
inductive Exit where
  /-- `-q`: it took `tries` draws to get an in-range random. -/
  | spun (tries : ℕ)
  | append_failed
  | capped
  /-- `assert(!siz || seen_initial)`. -/
  | assertion_failed
  deriving DecidableEq, Repr

/-- The variables of `square_evictions`.  `touched` and `tries` record the
    index and the number of draws of every access and are never read. -/
structure State where
  randomize : Option rng_state
  cont_rand : Option rng_state
  /-- The generator of the current cycle. -/
  randomizer : Option rng_state
  arr : ℕ → UInt8
  val : UInt8
  seen_initial : Bool
  /-- An `unsigned long`. -/
  accesses : ℕ
  max_time : ℕ
  /-- The histogram updates, as the list of indices hit. -/
  hits : List ℕ
  measured : ℕ
  appended : ℕ
  clocks : ℕ
  begun : ℕ
  duration : ℤ
  reports : List Report
  touched : List ℕ
  tries : List ℕ

/-- The rejection loop: the index drawn, the number of draws and the generator
    afterwards. -/
def draw (w : Arith) (cache_line_size siz : ℕ) : ℕ → rng_state → ℕ → Option (ℕ × ℕ × rng_state)
  | 0, _, _ => none
  | fuel + 1, ctxt, tries =>
    let ix := w.wrap ((rng_lcfc w ctxt).1 * cache_line_size)
    if ix ≥ siz then draw w cache_line_size siz fuel (rng_lcfc w ctxt).2 (tries + 1)
    else some (ix, tries + 1, (rng_lcfc w ctxt).2)

/-- The index of the next access: drawn, or the offset itself. -/
def pick (w : Arith) (spin : ℕ) (p : Params) (siz offset : ℕ) (randomizer : Option rng_state) :
    Option (ℕ × ℕ × Option rng_state) :=
  match randomizer with
  | none => some (offset, 1, none)
  | some ctxt => (draw w p.cache_line_size siz spin ctxt 0).map fun r => (r.1, r.2.1, some r.2.2)

/-- The three exclusive ors swap `arr[ix]` with `val`. -/
def State.touch (st : State) (ix tries : ℕ) : State :=
  let cell := st.arr ix ^^^ st.val
  let val := st.val ^^^ cell
  { st with
    arr := fun j => if j = ix then cell ^^^ val else st.arr j
    val := val
    touched := st.touched ++ [ix]
    tries := st.tries ++ [tries] }

/-- The measurement of one access; `logtwo` is the index of the highest bit. -/
def State.measure (st : State) (env : Env) (cycle : ℕ) : State :=
  let time := env.latency st.measured
  { st with
    max_time := max st.max_time time
    hits := if cycle < 2 then st.hits ++ [Nat.log2 time] else st.hits
    measured := st.measured + 1 }

/-- Whether this access is logged. -/
def Params.logs (p : Params) (offset : ℕ) : Bool :=
  p.perflog && offset / p.cache_line_size
    % p.perfstride.getD (p.capacity_expanded / p.cache_line_size) == 0

/-- Counting the access, and the cap. -/
def State.count (st : State) (p : Params) (env : Env) (startpass : ℤ) : State × Option Exit :=
  let st := { st with accesses := (st.accesses + 1) % 2 ^ 64 }
  if !p.infinite_duration && st.accesses == p.max_accesses then
    let duration := st.duration + (env.clock st.clocks - startpass)
    ({ st with
       duration := duration
       clocks := st.clocks + 1
       reports := st.reports ++ [.traversal duration st.accesses] }, some .capped)
  else (st, none)

/-- One iteration of the loop over `offset`; `none` if the rejection loop has
    not ended within `spin` draws. -/
def access (w : Arith) (spin : ℕ) (p : Params) (env : Env) (cycle : ℕ)
    (startpass : ℤ) (siz offset : ℕ) (st : State) : Option (State × Option Exit) :=
  match pick w spin p siz offset st.randomizer with
  | none => none
  | some (ix, tries, randomizer) =>
    let st := { st with randomizer := randomizer, seen_initial := st.seen_initial || ix == 0 }
    if p.no_randspin && decide (tries > 1) then some (st, some (.spun tries))
    else
      let st := st.touch ix tries
      let st := if p.measure_all then st.measure env cycle else st
      if p.logs offset then
        let st' := { st with appended := st.appended + 1 }
        if env.append_ok st.appended then some (st'.count p env startpass)
        else some (st', some .append_failed)
      else some (st.count p env startpass)

/-- The loop over `offset`, for at most `fuel` tests of its condition. -/
def offsets (w : Arith) (spin : ℕ) (p : Params) (env : Env) (cycle : ℕ) (startpass : ℤ)
    (siz : ℕ) : ℕ → ℕ → State → Option (State × Option Exit)
  | 0, _, _ => none
  | fuel + 1, offset, st =>
    if offset < siz then
      match access w spin p env cycle startpass siz offset st with
      | none => none
      | some (st, some e) => some (st, some e)
      | some (st, none) =>
        offsets w spin p env cycle startpass siz fuel (offset + p.cache_line_size) st
    else some (st, none)

/-- One pass with the assertion at its end. -/
def pass (w : Arith) (spin fuel : ℕ) (p : Params) (env : Env) (cycle : ℕ) (startpass : ℤ)
    (siz : ℕ) (st : State) : Option (State × Option Exit) :=
  match offsets w spin p env cycle startpass siz fuel 0 { st with seen_initial := false } with
  | none => none
  | some (st, some e) => some (st, some e)
  | some (st, none) =>
    if siz = 0 ∨ st.seen_initial = true then some (st, none)
    else some (st, some .assertion_failed)

/-- `count` passes in a row. -/
def passes (w : Arith) (spin fuel : ℕ) (p : Params) (env : Env) (cycle : ℕ) (startpass : ℤ)
    (siz : ℕ) : ℕ → State → Option (State × Option Exit)
  | 0, st => some (st, none)
  | count + 1, st =>
    match pass w spin fuel p env cycle startpass siz st with
    | none => none
    | some (st, some e) => some (st, some e)
    | some (st, none) => passes w spin fuel p env cycle startpass siz count st

/-- The working set of a cycle. -/
def Params.siz (p : Params) (cycle : ℕ) : ℕ :=
  if cycle % 2 = 1 then p.capacity_expanded else p.capacity_contracted

/-- The generator of a cycle: the second one, if there is one, in contracted
    cycles. -/
def State.selects_cont_rand (st : State) (cycle : ℕ) : Bool :=
  cycle % 2 == 0 && st.randomize.isSome && st.cont_rand.isSome

/-- The start of a cycle. -/
def State.begin_cycle (st : State) (env : Env) (cycle : ℕ) : State :=
  { st with
    randomizer := if st.selects_cont_rand cycle then st.cont_rand else st.randomize
    accesses := 0
    max_time := 0
    val := env.byte st.begun
    begun := st.begun + 1
    clocks := st.clocks + 1 }

/-- The generator is shared by reference: what a cycle drew stays drawn. -/
def State.keep_randomizer (st : State) (cycle : ℕ) : State :=
  if st.selects_cont_rand cycle then { st with cont_rand := st.randomizer }
  else { st with randomize := st.randomizer }

/-- The end of a cycle that was not cut short. -/
def State.end_cycle (st : State) (p : Params) (env : Env) (startpass : ℤ) : State :=
  let elapsed := env.clock st.clocks - startpass
  if p.max_accesses = 0 then
    { st with clocks := st.clocks + 1, reports := st.reports ++ [.iteration elapsed st.accesses] }
  else { st with clocks := st.clocks + 1, duration := st.duration + elapsed }

/-- The loop over `cycle`.  An infinite run repeats the first contracted cycle
    for as long as there is fuel. -/
def cycles (w : Arith) (spin fuel : ℕ) (p : Params) (env : Env) :
    ℕ → ℕ → State → Option (State × Option Exit)
  | 0, _, _ => none
  | rounds + 1, cycle, st =>
    if cycle < 2 * p.num_periods then
      let startpass := env.clock st.clocks
      match passes w spin fuel p env cycle startpass (p.siz cycle) p.passes_per_cycle
          (st.begin_cycle env cycle) with
      | none => none
      | some (st, some e) => some (st.keep_randomizer cycle, some e)
      | some (st, none) =>
        cycles w spin fuel p env rounds (if p.infinite_duration then cycle else cycle + 1)
          ((st.keep_randomizer cycle).end_cycle p env startpass)
    else some (st, none)

/-- The state in which the loop over `cycle` begins. -/
def State.start (arr : ℕ → UInt8) (randomize cont_rand : Option rng_state) : State where
  randomize := randomize
  cont_rand := cont_rand
  randomizer := none
  arr := arr
  val := 0
  seen_initial := false
  accesses := 0
  max_time := 0
  hits := []
  measured := 0
  appended := 0
  clocks := 0
  begun := 0
  duration := 0
  reports := []
  touched := []
  tries := []

/-- `square_evictions`, from its cycle loop on. -/
def square_evictions (w : Arith) (spin fuel rounds : ℕ) (p : Params) (env : Env) (arr : ℕ → UInt8)
    (randomize cont_rand : Option rng_state) : Option (State × Option Exit) :=
  cycles w spin fuel p env rounds 0 (State.start arr randomize cont_rand)

/-! ## Section 2: What the ends of a cycle leave alone -/

@[simp] theorem begin_cycle_touched (st : State) (env : Env) (cycle : ℕ) :
    (st.begin_cycle env cycle).touched = st.touched := rfl

@[simp] theorem begin_cycle_accesses (st : State) (env : Env) (cycle : ℕ) :
    (st.begin_cycle env cycle).accesses = 0 := rfl

@[simp] theorem keep_randomizer_touched (st : State) (cycle : ℕ) :
    (st.keep_randomizer cycle).touched = st.touched := by
  unfold State.keep_randomizer
  split <;> rfl

@[simp] theorem keep_randomizer_reports (st : State) (cycle : ℕ) :
    (st.keep_randomizer cycle).reports = st.reports := by
  unfold State.keep_randomizer
  split <;> rfl

@[simp] theorem keep_randomizer_clocks (st : State) (cycle : ℕ) :
    (st.keep_randomizer cycle).clocks = st.clocks := by
  unfold State.keep_randomizer
  split <;> rfl

@[simp] theorem keep_randomizer_begun (st : State) (cycle : ℕ) :
    (st.keep_randomizer cycle).begun = st.begun := by
  unfold State.keep_randomizer
  split <;> rfl

@[simp] theorem end_cycle_clocks (st : State) (p : Params) (env : Env) (startpass : ℤ) :
    (st.end_cycle p env startpass).clocks = st.clocks + 1 := by
  unfold State.end_cycle
  split <;> rfl

@[simp] theorem end_cycle_begun (st : State) (p : Params) (env : Env) (startpass : ℤ) :
    (st.end_cycle p env startpass).begun = st.begun := by
  unfold State.end_cycle
  split <;> rfl

@[simp] theorem end_cycle_touched (st : State) (p : Params) (env : Env) (startpass : ℤ) :
    (st.end_cycle p env startpass).touched = st.touched := by
  unfold State.end_cycle
  split <;> rfl

@[simp] theorem end_cycle_randomize (st : State) (p : Params) (env : Env) (startpass : ℤ) :
    (st.end_cycle p env startpass).randomize = st.randomize := by
  unfold State.end_cycle
  split <;> rfl

@[simp] theorem end_cycle_cont_rand (st : State) (p : Params) (env : Env) (startpass : ℤ) :
    (st.end_cycle p env startpass).cont_rand = st.cont_rand := by
  unfold State.end_cycle
  split <;> rfl

/-! ## Section 3: The turns of the loops -/

section turns
variable {w : Arith} {spin fuel rounds count cycle siz offset : ℕ} {p : Params} {env : Env}
  {startpass : ℤ} {st st' : State} {e : Option Exit}

/-- The loop over `offset` is over, is cut short by an access, or goes on. -/
theorem offsets_cases
    (h : offsets w spin p env cycle startpass siz (fuel + 1) offset st = some (st', e)) :
    (¬offset < siz ∧ st' = st ∧ e = none) ∨
    (offset < siz ∧ ∃ x, access w spin p env cycle startpass siz offset st = some (st', some x) ∧
      e = some x) ∨
    (offset < siz ∧ ∃ st₁, access w spin p env cycle startpass siz offset st = some (st₁, none) ∧
      offsets w spin p env cycle startpass siz fuel (offset + p.cache_line_size) st₁
        = some (st', e)) := by
  unfold offsets at h
  by_cases hgo : offset < siz
  · right
    rw [if_pos hgo] at h
    cases haccess : access w spin p env cycle startpass siz offset st with
    | none => rw [haccess] at h; cases h
    | some r =>
      obtain ⟨st₁, e₁⟩ := r
      rw [haccess] at h
      cases e₁ with
      | some x =>
        cases h
        exact Or.inl ⟨hgo, x, rfl, rfl⟩
      | none => exact Or.inr ⟨hgo, st₁, rfl, h⟩
  · left
    rw [if_neg hgo] at h
    cases h
    exact ⟨hgo, rfl, rfl⟩

/-- A pass is cut short, or ends with its assertion. -/
theorem pass_cases (h : pass w spin fuel p env cycle startpass siz st = some (st', e)) :
    (∃ x, offsets w spin p env cycle startpass siz fuel 0 { st with seen_initial := false }
      = some (st', some x) ∧ e = some x) ∨
    (offsets w spin p env cycle startpass siz fuel 0 { st with seen_initial := false }
      = some (st', none) ∧
      ((siz = 0 ∨ st'.seen_initial = true) ∧ e = none ∨
        ¬(siz = 0 ∨ st'.seen_initial = true) ∧ e = some .assertion_failed)) := by
  unfold pass at h
  cases hoffsets : offsets w spin p env cycle startpass siz fuel 0
      { st with seen_initial := false } with
  | none => rw [hoffsets] at h; cases h
  | some r =>
    obtain ⟨st₁, e₁⟩ := r
    rw [hoffsets] at h
    cases e₁ with
    | some x =>
      cases h
      exact Or.inl ⟨x, rfl, rfl⟩
    | none =>
      simp only at h
      split at h
      · next hassert =>
        cases h
        exact Or.inr ⟨rfl, Or.inl ⟨hassert, rfl⟩⟩
      · next hassert =>
        cases h
        exact Or.inr ⟨rfl, Or.inr ⟨hassert, rfl⟩⟩

/-- The first of some passes cuts them short, or they go on. -/
theorem passes_cases
    (h : passes w spin fuel p env cycle startpass siz (count + 1) st = some (st', e)) :
    (∃ x, pass w spin fuel p env cycle startpass siz st = some (st', some x) ∧ e = some x) ∨
    (∃ st₁, pass w spin fuel p env cycle startpass siz st = some (st₁, none) ∧
      passes w spin fuel p env cycle startpass siz count st₁ = some (st', e)) := by
  unfold passes at h
  cases hpass : pass w spin fuel p env cycle startpass siz st with
  | none => rw [hpass] at h; cases h
  | some r =>
    obtain ⟨st₁, e₁⟩ := r
    rw [hpass] at h
    cases e₁ with
    | some x =>
      cases h
      exact Or.inl ⟨x, rfl, rfl⟩
    | none => exact Or.inr ⟨st₁, rfl, h⟩

/-- The loop over `cycle` is over, is cut short in a cycle, or goes on. -/
theorem cycles_cases (h : cycles w spin fuel p env (rounds + 1) cycle st = some (st', e)) :
    (¬cycle < 2 * p.num_periods ∧ st' = st ∧ e = none) ∨
    (cycle < 2 * p.num_periods ∧ ∃ st₁ x, passes w spin fuel p env cycle (env.clock st.clocks)
        (p.siz cycle) p.passes_per_cycle (st.begin_cycle env cycle) = some (st₁, some x) ∧
      st' = st₁.keep_randomizer cycle ∧ e = some x) ∨
    (cycle < 2 * p.num_periods ∧ ∃ st₁, passes w spin fuel p env cycle (env.clock st.clocks)
        (p.siz cycle) p.passes_per_cycle (st.begin_cycle env cycle) = some (st₁, none) ∧
      cycles w spin fuel p env rounds (if p.infinite_duration then cycle else cycle + 1)
        ((st₁.keep_randomizer cycle).end_cycle p env (env.clock st.clocks)) = some (st', e)) := by
  unfold cycles at h
  by_cases hgo : cycle < 2 * p.num_periods
  · right
    rw [if_pos hgo] at h
    simp only at h
    cases hpasses : passes w spin fuel p env cycle (env.clock st.clocks) (p.siz cycle)
        p.passes_per_cycle (st.begin_cycle env cycle) with
    | none => rw [hpasses] at h; cases h
    | some r =>
      obtain ⟨st₁, e₁⟩ := r
      rw [hpasses] at h
      cases e₁ with
      | some x =>
        cases h
        exact Or.inl ⟨hgo, st₁, x, rfl, rfl, rfl⟩
      | none => exact Or.inr ⟨hgo, st₁, rfl, h⟩
  · left
    rw [if_neg hgo] at h
    cases h
    exact ⟨hgo, rfl, rfl⟩

end turns

end SquareEvictions
