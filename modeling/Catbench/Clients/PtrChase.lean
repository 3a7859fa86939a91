import Mathlib.Data.List.Chain
import Mathlib.Data.List.Perm.Subperm
import Mathlib.Data.List.Range
import Mathlib.Logic.Function.Basic

/-! # The pointer chase of `lockserver-ng`

    For every packet the server follows pointers through an array until it is
    back at the first element.  `ptrchase_setup` lays these pointers: from the
    current element it draws indices until one is neither the current element
    nor already written, stores the pointer, and moves there; the last element
    is closed onto the first.

    Theorem: whenever the rejection loops exit, the pointers form a single
    cycle through the whole array, the chase loop reads every element once, and
    neither build of the function trips an assertion.
-/

namespace PtrChase

/-! ## Section 1: Model -/

/-- The mapping that holds the array.  Addresses are natural numbers: a mapping
    does not wrap around the address space. -/
structure Region where
  /-- The value of `arr`. -/
  base : ℕ
  nonnull : 0 < base
  aligned : 8 ∣ base

/-- `arr + i`, for an array of `uintptr_t`. -/
def Region.addr (r : Region) (i : ℕ) : ℕ := r.base + 8 * i

/-- `p - arr`. -/
def Region.index (r : Region) (p : ℕ) : ℕ := (p - r.base) / 8

/-- The words of the array, by index. -/
abbrev Words := ℕ → ℕ

/-- `while((tgt = rand() % len) == idx || arr[tgt]);` from position `pos` of the
    stream: the index drawn and the position after it. -/
def pick (rand : ℕ → ℕ) (len : ℕ) (arr : Words) (idx : ℕ) : ℕ → ℕ → Option (ℕ × ℕ)
  | 0, _ => none
  | fuel + 1, pos =>
    let tgt := rand pos % len
    if tgt = idx ∨ arr tgt ≠ 0 then pick rand len arr idx fuel (pos + 1)
    else some (tgt, pos + 1)

/-- The variables of `ptrchase_setup`. -/
structure Setup where
  arr : Words
  /-- An address. -/
  curr : ℕ
  /-- How often `rand()` was called. -/
  pos : ℕ

/-- One iteration of the loop over `count`. -/
def step (r : Region) (rand : ℕ → ℕ) (fuel len : ℕ) (s : Setup) : Option Setup := do
  let idx := r.index s.curr
  let (tgt, pos) ← pick rand len s.arr idx fuel s.pos
  some { arr := Function.update s.arr idx (r.addr tgt), curr := r.addr tgt, pos }

/-- The first `n` iterations of the loop over `count`. -/
def picks (r : Region) (rand : ℕ → ℕ) (fuel len : ℕ) : ℕ → Setup → Option Setup
  | 0, s => some s
  | n + 1, s => do
    let s ← picks r rand fuel len n s
    step r rand fuel len s

/-- The variables at the loop's start. -/
def start (r : Region) (arr : Words) : Setup := { arr, curr := r.addr 0, pos := 0 }

/-- The chain of pointers after `count` dereferences. -/
def walk (r : Region) (arr : Words) : ℕ → ℕ → ℕ
  | 0, cur => cur
  | count + 1, cur => walk r arr count (arr (r.index cur))

/-- The assertions that the debug build makes after the pointers are laid. -/
def checks (r : Region) (arr : Words) (len : ℕ) : Bool :=
  (List.range len).all (fun idx =>
    arr idx &&& 0x1 = 0 ∧ r.addr 0 ≤ arr idx ∧ arr idx < r.addr len ∧ arr idx ≠ r.addr idx) &&
  (List.range (len - 1)).all (fun count => walk r arr (count + 1) (r.addr 0) ≠ r.addr 0) &&
  arr (r.index (walk r arr (len - 1) (r.addr 0))) = r.addr 0

/-- How a call that ends does so. -/
inductive Result where
  | returned (arr : Words)
  | assertion_failed

/-- The function; `ndebug` says whether the assertions are compiled out, and
    `fuel` bounds each rejection loop. -/
def ptrchase_setup (ndebug : Bool) (r : Region) (rand : ℕ → ℕ) (fuel : ℕ) (arr : Words)
    (len : ℕ) : Option Result :=
  if len = 1 then some (.returned (Function.update arr 0 (r.addr 0)))
  else if !ndebug && !(List.range len).all (fun idx => arr idx = 0) then some .assertion_failed
  else do
    let s ← picks r rand fuel len (len - 1) (start r arr)
    let arr := Function.update s.arr (r.index s.curr) (r.addr 0)
    if !ndebug && !checks r arr len then some .assertion_failed
    else some (.returned arr)

/-- `while((cur = (uintptr_t *) *cur) != arr);` from `cur`: the elements read, in
    order. -/
def chase (r : Region) (arr : Words) : ℕ → ℕ → Option (List ℕ)
  | 0, _ => none
  | fuel + 1, cur =>
    let next := arr (r.index cur)
    if next = r.addr 0 then some [r.index cur]
    else do
      let rest ← chase r arr fuel next
      some (r.index cur :: rest)

/-! ## Section 2: Specifications -/

/-- The rejection loop leaves with `tgt`. -/
def Accepts (len : ℕ) (arr : Words) (idx tgt : ℕ) : Prop :=
  tgt < len ∧ tgt ≠ idx ∧ arr tgt = 0

/-- The pointers of `arr` lead through `path` and from its end back to the first
    element. -/
structure Ring (r : Region) (arr : Words) (len : ℕ) (path : List ℕ) : Prop where
  /-- Every element is on the path, exactly once. -/
  perm : path.Perm (List.range len)
  first : path.head? = some 0
  linked : path.IsChain (fun i j => arr i = r.addr j)
  closed : ∀ i ∈ path.getLast?, arr i = r.addr 0

/-- What holds between two iterations: the pointers written so far lead through
    `pre` to the current element `c`, which is not written yet. -/
structure Laid (r : Region) (len : ℕ) (s : Setup) (pre : List ℕ) (c : ℕ) : Prop where
  curr : s.curr = r.addr c
  nodup : (pre ++ [c]).Nodup
  lt : ∀ i ∈ pre ++ [c], i < len
  first : (pre ++ [c]).head? = some 0
  linked : (pre ++ [c]).IsChain (fun i j => s.arr i = r.addr j)
  written : ∀ i < len, s.arr i ≠ 0 ↔ i ∈ pre

/-! ## Section 3: Addresses -/

variable {r : Region} {rand : ℕ → ℕ} {fuel len : ℕ}

@[simp] theorem index_addr (r : Region) (i : ℕ) : r.index (r.addr i) = i := by
  simp [Region.index, Region.addr]

@[simp] theorem addr_inj {i j : ℕ} : r.addr i = r.addr j ↔ i = j := by
  simp only [Region.addr]
  omega

@[simp] theorem addr_ne_zero (r : Region) (i : ℕ) : r.addr i ≠ 0 := by
  have := r.nonnull
  simp only [Region.addr]
  omega

theorem addr_even (r : Region) (i : ℕ) : r.addr i &&& 0x1 = 0 := by
  obtain ⟨k, hk⟩ := r.aligned
  rw [Nat.and_one_is_mod, Region.addr, hk]
  omega

theorem addr_lt {i j : ℕ} : r.addr i < r.addr j ↔ i < j := by
  simp only [Region.addr]
  omega

/-! ## Section 4: Laying the pointers -/

/-- The rejection loop only leaves with an index it accepts. -/
theorem pick_spec {arr : Words} {idx pos tgt pos' : ℕ} (hlen : 0 < len)
    (h : pick rand len arr idx fuel pos = some (tgt, pos')) : Accepts len arr idx tgt := by
  induction fuel generalizing pos with
  | zero => simp [pick] at h
  | succ fuel ih =>
    unfold pick at h
    by_cases hrej : rand pos % len = idx ∨ arr (rand pos % len) ≠ 0
    · rw [if_pos hrej] at h
      exact ih h
    · rw [if_neg hrej] at h
      push Not at hrej
      obtain ⟨rfl, rfl⟩ := Prod.mk.inj (Option.some.inj h)
      exact ⟨Nat.mod_lt _ hlen, hrej.1, hrej.2⟩

/-- Everything an iteration can do. -/
theorem step_cases {s s' : Setup} (hlen : 0 < len) (h : step r rand fuel len s = some s') :
    ∃ tgt, Accepts len s.arr (r.index s.curr) tgt ∧
      s'.arr = Function.update s.arr (r.index s.curr) (r.addr tgt) ∧ s'.curr = r.addr tgt := by
  unfold step at h
  obtain ⟨⟨tgt, pos⟩, hpick, heq⟩ := Option.bind_eq_some_iff.mp h
  obtain rfl := Option.some.inj heq
  exact ⟨tgt, pick_spec hlen hpick, rfl, rfl⟩

namespace Laid

variable {s s' : Setup} {pre : List ℕ} {c : ℕ}

/-- As long as the path is short of an element there is an index to accept. -/
theorem exists_accepts (hl : Laid r len s pre c) (hlen : pre.length + 1 < len) :
    ∃ tgt, Accepts len s.arr (r.index s.curr) tgt := by
  by_contra hnone
  push Not at hnone
  -- Otherwise every index is the current one or written, hence on the path.
  have hsub : List.range len ⊆ pre ++ [c] := by
    intro i hi
    have hi : i < len := List.mem_range.mp hi
    by_contra hout
    simp only [List.mem_append, List.mem_singleton, not_or] at hout
    refine hnone i ⟨hi, ?_, ?_⟩
    · rw [hl.curr, index_addr]; exact hout.2
    · by_contra hw; exact hout.1 ((hl.written i hi).mp hw)
  have hle := (List.nodup_range.subperm hsub).length_le
  simp only [List.length_range, List.length_append, List.length_singleton] at hle
  omega

/-- Writing the current word leaves the links of the path before it alone. -/
theorem linked_update (hl : Laid r len s pre c) (w : ℕ) :
    (pre ++ [c]).IsChain (fun i j => Function.update s.arr c w i = r.addr j) := by
  have hc : ∀ i ∈ pre, i ≠ c := fun i hi =>
    (List.nodup_append.mp hl.nodup).2.2 i hi c (by simp)
  have hlink := hl.linked
  rw [List.isChain_append] at hlink ⊢
  refine ⟨?_, List.isChain_singleton _, ?_⟩
  · refine hlink.1.imp_of_mem_imp fun i j hi _ hij => ?_
    rw [Function.update_of_ne (hc i hi)]
    exact hij
  · intro i hi j hj
    rw [Function.update_of_ne (hc i (List.mem_of_getLast? hi))]
    exact hlink.2.2 i hi j hj

/-- One iteration extends the path by the accepted index. -/
theorem step (hl : Laid r len s pre c) (h : PtrChase.step r rand fuel len s = some s') :
    ∃ tgt, Laid r len s' (pre ++ [c]) tgt := by
  have hlen : 0 < len := Nat.lt_of_le_of_lt (Nat.zero_le _) (hl.lt c (by simp))
  obtain ⟨tgt, ⟨htlt, htc, htz⟩, harr, hcurr⟩ := step_cases hlen h
  rw [hl.curr, index_addr] at htc harr
  have htpre : tgt ∉ pre := fun hmem => (hl.written tgt htlt).mpr hmem htz
  refine ⟨tgt, hcurr, ?_, ?_, ?_, ?_, ?_⟩
  · refine List.nodup_append.mpr ⟨hl.nodup, by simp, ?_⟩
    rintro i hi j hj rfl
    obtain rfl := List.mem_singleton.mp hj
    rcases List.mem_append.mp hi with hi | hi
    · exact htpre hi
    · exact htc (List.mem_singleton.mp hi)
  · intro i hi
    rcases List.mem_append.mp hi with hi | hi
    · exact hl.lt i hi
    · rw [List.mem_singleton.mp hi]; exact htlt
  · rw [List.head?_append, hl.first]
    rfl
  · rw [harr, List.isChain_append]
    refine ⟨hl.linked_update _, List.isChain_singleton _, ?_⟩
    simp
  · intro i hi
    rw [harr, List.mem_append, List.mem_singleton, ← hl.written i hi]
    by_cases hic : i = c
    · subst hic
      simp
    · simp [hic]

end Laid

/-- Nothing is written before the loop. -/
theorem laid_start {arr : Words} (hlen : 1 ≤ len) (hzero : ∀ i < len, arr i = 0) :
    Laid r len (start r arr) [] 0 where
  curr := rfl
  nodup := by simp
  lt := by simpa using Nat.lt_of_lt_of_le Nat.zero_lt_one hlen
  first := rfl
  linked := List.isChain_singleton _
  written := by
    intro i hi
    simp [start, hzero i hi]

/-- After `n` iterations the path has `n` links. -/
theorem picks_laid {arr : Words} (hlen : 1 ≤ len) (hzero : ∀ i < len, arr i = 0) {n : ℕ}
    {s : Setup} (h : picks r rand fuel len n (start r arr) = some s) :
    ∃ pre c, Laid r len s pre c ∧ pre.length = n := by
  induction n generalizing s with
  | zero =>
    obtain rfl := Option.some.inj h
    exact ⟨[], 0, laid_start hlen hzero, rfl⟩
  | succ n ih =>
    unfold picks at h
    obtain ⟨s₁, hpicks, hstep⟩ := Option.bind_eq_some_iff.mp h
    obtain ⟨pre, c, hl, hn⟩ := ih hpicks
    obtain ⟨tgt, hl'⟩ := hl.step hstep
    exact ⟨pre ++ [c], tgt, hl', by simp [hn]⟩

/-- Closing a path through all elements gives a ring. -/
theorem Laid.ring {s : Setup} {pre : List ℕ} {c : ℕ} (hl : Laid r len s pre c)
    (hn : pre.length + 1 = len) :
    Ring r (Function.update s.arr (r.index s.curr) (r.addr 0)) len (pre ++ [c]) := by
  rw [hl.curr, index_addr]
  refine ⟨?_, hl.first, hl.linked_update _, ?_⟩
  · have hsub : pre ++ [c] ⊆ List.range len := fun i hi => List.mem_range.mpr (hl.lt i hi)
    exact (hl.nodup.subperm hsub).perm_of_length_le (by simp [hn])
  · simp

/-! ## Section 5: Following the pointers -/

/-- The chase from inside a ring reads the rest of it. -/
theorem chase_chain {arr : Words} {i : ℕ} {rest : List ℕ}
    (hlink : (i :: rest).IsChain (fun i j => arr i = r.addr j))
    (hclose : ∀ k ∈ (i :: rest).getLast?, arr k = r.addr 0) (hfirst : 0 ∉ rest)
    (hfuel : rest.length < fuel) : chase r arr fuel (r.addr i) = some (i :: rest) := by
  induction rest generalizing i fuel with
  | nil =>
    obtain ⟨fuel, rfl⟩ : ∃ k, fuel = k + 1 := ⟨fuel - 1, by simp at hfuel; omega⟩
    have : arr i = r.addr 0 := hclose i (by simp)
    simp [chase, this]
  | cons j rest ih =>
    obtain ⟨fuel, rfl⟩ : ∃ k, fuel = k + 1 := ⟨fuel - 1, by omega⟩
    rw [List.isChain_cons_cons] at hlink
    have hj : j ≠ 0 := fun h => hfirst (by simp [h])
    have hrest := ih hlink.2 (by simpa using hclose) (fun h => hfirst (by simp [h]))
      (by simpa using hfuel)
    simp [chase, hlink.1, hj, hrest]

/-- Dereferencing `count` times leads to the element at position `count`. -/
theorem walk_chain {arr : Words} {i : ℕ} {rest : List ℕ}
    (hlink : (i :: rest).IsChain (fun i j => arr i = r.addr j)) {count : ℕ}
    (hcount : count < (i :: rest).length) :
    walk r arr count (r.addr i) = r.addr ((i :: rest).get ⟨count, hcount⟩) := by
  induction rest generalizing i count with
  | nil =>
    obtain rfl : count = 0 := by simpa using hcount
    rfl
  | cons j rest ih =>
    cases count with
    | zero => rfl
    | succ count =>
      rw [List.isChain_cons_cons] at hlink
      simpa [walk, hlink.1] using ih hlink.2 (by simpa using hcount)

namespace Ring

variable {arr : Words} {path : List ℕ}

theorem nodup (hr : Ring r arr len path) : path.Nodup := hr.perm.nodup_iff.mpr List.nodup_range

theorem length_eq (hr : Ring r arr len path) : path.length = len := by
  simpa using hr.perm.length_eq

/-- The path begins at the first element and does not come back to it. -/
theorem exists_tail (hr : Ring r arr len path) : ∃ rest, path = 0 :: rest ∧ 0 ∉ rest := by
  obtain ⟨rest, rfl⟩ := List.head?_eq_some_iff.mp hr.first
  exact ⟨rest, rfl, (List.nodup_cons.mp hr.nodup).1⟩

/-- Every element points into the array, and only the only one to itself. -/
theorem next (hr : Ring r arr len path) {i : ℕ} (hi : i < len) :
    ∃ j < len, arr i = r.addr j ∧ (1 < len → j ≠ i) := by
  have hlt : ∀ j ∈ path, j < len := fun j hj => List.mem_range.mp (hr.perm.mem_iff.mp hj)
  obtain ⟨front, back, rfl⟩ :=
    List.append_of_mem (hr.perm.mem_iff.mpr (List.mem_range.mpr hi))
  have hnd := List.nodup_append.mp hr.nodup
  cases back with
  | nil =>
    -- The last element points to the first, which lies before it.
    refine ⟨0, by omega, hr.closed i (by simp), fun hlen h0 => ?_⟩
    have hfirst := hr.first
    have hlength := hr.length_eq
    cases front with
    | nil => simp at hlength; omega
    | cons a front =>
      obtain rfl : a = 0 := by simpa using hfirst
      exact hnd.2.2 0 (by simp) i (by simp) h0
  | cons j back =>
    have hlink := hr.linked
    rw [List.isChain_append_cons_cons] at hlink
    refine ⟨j, hlt j (by simp), hlink.2.1, fun _ hji => ?_⟩
    subst hji
    simp at hnd

/-- The chase loop reads the path. -/
theorem chase_eq (hr : Ring r arr len path) (hfuel : len ≤ fuel) :
    chase r arr fuel (r.addr 0) = some path := by
  have hlength := hr.length_eq
  obtain ⟨rest, rfl, hrest⟩ := hr.exists_tail
  refine chase_chain hr.linked hr.closed hrest ?_
  simp at hlength
  omega

/-- The assertions of the debug build hold on a ring. -/
theorem checks (hr : Ring r arr len path) (hlen : 1 < len) : PtrChase.checks r arr len = true := by
  have hlength := hr.length_eq
  obtain ⟨rest, rfl, hrest⟩ := hr.exists_tail
  simp only [PtrChase.checks, Bool.and_eq_true, List.all_eq_true, List.mem_range,
    decide_eq_true_eq]
  refine ⟨⟨?_, ?_⟩, ?_⟩
  · intro i hi
    obtain ⟨j, hj, hij, hne⟩ := hr.next hi
    rw [hij]
    refine ⟨addr_even r j, ?_, addr_lt.mpr hj, fun h => hne hlen (addr_inj.mp h)⟩
    simp [Region.addr]
  · intro count hcount
    rw [walk_chain hr.linked (show count + 1 < (0 :: rest).length by omega), Ne, addr_inj]
    intro h
    exact hrest (h ▸ List.get_mem rest ⟨count, by simp at hlength; omega⟩)
  · rw [walk_chain hr.linked (show len - 1 < (0 :: rest).length by omega), index_addr]
    refine hr.closed _ ?_
    rw [List.getLast?_eq_getElem?]
    simp [hlength]

end Ring

/-! ## Section 6: Main theorems -/

/-- A single element points to itself. -/
theorem ring_single (r : Region) (arr : Words) :
    Ring r (Function.update arr 0 (r.addr 0)) 1 [0] where
  perm := by simp
  first := rfl
  linked := List.isChain_singleton _
  closed := by simp

/-- A call on a cleared array that ends does so by returning a ring. -/
theorem setup_ring {ndebug : Bool} {arr : Words} {res : Result} (hlen : 1 ≤ len)
    (hzero : ∀ i < len, arr i = 0)
    (h : ptrchase_setup ndebug r rand fuel arr len = some res) :
    ∃ arr' path, res = .returned arr' ∧ Ring r arr' len path := by
  unfold ptrchase_setup at h
  by_cases hone : len = 1
  · rw [if_pos hone] at h
    subst hone
    exact ⟨_, [0], (Option.some.inj h).symm, ring_single r arr⟩
  have hcleared : (List.range len).all (fun idx => decide (arr idx = 0)) = true := by
    simpa using hzero
  rw [if_neg hone, hcleared, if_neg (by simp)] at h
  obtain ⟨s, hpicks, h⟩ := Option.bind_eq_some_iff.mp h
  obtain ⟨pre, c, hl, hn⟩ := picks_laid hlen hzero hpicks
  have hring := hl.ring (by omega)
  simp only [hring.checks (by omega), Bool.not_true, Bool.and_false, Bool.false_eq_true,
    if_false, Option.some.injEq] at h
  exact ⟨_, _, h.symm, hring⟩

/-- On a cleared array, whatever the stream: before each pick there is an index
    that the rejection loop accepts, and a call whose rejection loops exit lays
    one cycle through the array, which the chase loop reads from end to end. -/
theorem setup_single_cycle (ndebug : Bool) (r : Region) (rand : ℕ → ℕ) (fuel len : ℕ)
    (arr : Words) (hlen : 1 ≤ len) (hzero : ∀ i < len, arr i = 0) :
    (∀ n < len - 1, ∀ s, picks r rand fuel len n (start r arr) = some s →
      ∃ tgt, Accepts len s.arr (r.index s.curr) tgt) ∧
    ∀ res, ptrchase_setup ndebug r rand fuel arr len = some res →
      ∃ arr' path, res = .returned arr' ∧ Ring r arr' len path ∧
        (1 < len → ∀ i < len, arr' i ≠ r.addr i) ∧
        ∀ steps, len ≤ steps → chase r arr' steps (r.addr 0) = some path := by
  refine ⟨?_, ?_⟩
  · intro n hn s hs
    obtain ⟨pre, c, hl, hpre⟩ := picks_laid hlen hzero hs
    exact hl.exists_accepts (by omega)
  · intro res hres
    obtain ⟨arr', path, rfl, hring⟩ := setup_ring hlen hzero hres
    refine ⟨arr', path, rfl, hring, ?_, fun steps hsteps => hring.chase_eq hsteps⟩
    intro hgt i hi
    obtain ⟨j, _, hij, hne⟩ := hring.next hi
    rw [hij, Ne, addr_inj]
    exact hne hgt

/-- The pointers of a region at 0x1000 laid by the stream 0, 1, 2, ... -/
theorem setup_single_cycle_four : ∃ arr' path,
    ptrchase_setup false ⟨0x1000, by decide, by decide⟩ id 4 (fun _ => 0) 4 =
      some (.returned arr') ∧
    Ring ⟨0x1000, by decide, by decide⟩ arr' 4 path ∧
    chase ⟨0x1000, by decide, by decide⟩ arr' 4 0x1000 = some path := by
  obtain ⟨res, hres⟩ := Option.isSome_iff_exists.mp (show (ptrchase_setup false
    ⟨0x1000, by decide, by decide⟩ id 4 (fun _ => 0) 4).isSome = true by decide +kernel)
  obtain ⟨arr', path, rfl, hring, -, hchase⟩ :=
    (setup_single_cycle false _ id 4 4 _ (by decide) (fun _ _ => rfl)).2 res hres
  exact ⟨arr', path, hres, hring, hchase 4 (Nat.le_refl 4)⟩

/-! ## Section 7: Termination

    The rejection loops exit on every stream that keeps producing every
    residue, so the theorem above speaks about calls of every length. -/

section termination

/-- An index that is accepted and comes up ends the rejection loop. -/
theorem pick_exits {arr : Words} {idx tgt k pos : ℕ} (hacc : Accepts len arr idx tgt)
    (hk : rand (pos + k) % len = tgt) : ∃ x, pick rand len arr idx (k + 1) pos = some x := by
  induction k generalizing pos with
  | zero =>
    have hrej : ¬(rand pos % len = idx ∨ arr (rand pos % len) ≠ 0) := by
      rw [show rand pos % len = tgt from hk]
      simp [hacc.2.1, hacc.2.2]
    exact ⟨_, if_neg hrej⟩
  | succ k ih =>
    by_cases hrej : rand pos % len = idx ∨ arr (rand pos % len) ≠ 0
    · have hk' : rand (pos + 1 + k) % len = tgt := by
        rw [← hk, show pos + 1 + k = pos + (k + 1) from by omega]
      obtain ⟨x, hx⟩ := ih hk'
      exact ⟨x, by rw [pick, if_pos hrej, hx]⟩
    · exact ⟨_, if_neg hrej⟩

theorem pick_mono {arr : Words} {idx pos fuel' : ℕ} {x : ℕ × ℕ} (hle : fuel ≤ fuel')
    (h : pick rand len arr idx fuel pos = some x) :
    pick rand len arr idx fuel' pos = some x := by
  induction fuel generalizing pos fuel' with
  | zero => simp [pick] at h
  | succ fuel ih =>
    obtain ⟨fuel', rfl⟩ : ∃ k, fuel' = k + 1 := ⟨fuel' - 1, by omega⟩
    unfold pick at h ⊢
    by_cases hrej : rand pos % len = idx ∨ arr (rand pos % len) ≠ 0
    · rw [if_pos hrej] at h ⊢
      exact ih (by omega) h
    · rw [if_neg hrej] at h ⊢
      exact h

theorem step_mono {s s' : Setup} {fuel' : ℕ} (hle : fuel ≤ fuel')
    (h : step r rand fuel len s = some s') : step r rand fuel' len s = some s' := by
  unfold step at h ⊢
  obtain ⟨x, hpick, heq⟩ := Option.bind_eq_some_iff.mp h
  exact Option.bind_eq_some_iff.mpr ⟨x, pick_mono hle hpick, heq⟩

theorem picks_mono {s s' : Setup} {n fuel' : ℕ} (hle : fuel ≤ fuel')
    (h : picks r rand fuel len n s = some s') : picks r rand fuel' len n s = some s' := by
  induction n generalizing s' with
  | zero => exact h
  | succ n ih =>
    unfold picks at h ⊢
    obtain ⟨s₁, hpicks, hstep⟩ := Option.bind_eq_some_iff.mp h
    exact Option.bind_eq_some_iff.mpr ⟨s₁, ih hpicks, step_mono hle hstep⟩

variable {arr : Words} (hlen : 1 ≤ len) (hzero : ∀ i < len, arr i = 0)
  (hfair : ∀ pos, ∀ tgt < len, ∃ k, rand (pos + k) % len = tgt)
include hlen hzero hfair

theorem picks_exit {n : ℕ} (hn : n ≤ len - 1) :
    ∃ fuel s, picks r rand fuel len n (start r arr) = some s := by
  induction n with
  | zero => exact ⟨0, _, rfl⟩
  | succ n ih =>
    obtain ⟨fuel, s, hs⟩ := ih (by omega)
    obtain ⟨pre, c, hl, hpre⟩ := picks_laid hlen hzero hs
    obtain ⟨tgt, hacc⟩ := hl.exists_accepts (by omega)
    obtain ⟨k, hk⟩ := hfair s.pos tgt hacc.1
    obtain ⟨x, hx⟩ := pick_exits hacc hk
    have hpicks := picks_mono (Nat.le_max_left fuel (k + 1)) hs
    have hpick := pick_mono (Nat.le_max_right fuel (k + 1)) hx
    exact ⟨max fuel (k + 1), _, by rw [picks, hpicks]; simp [step, hpick]; rfl⟩

/-- With a stream that produces every residue again and again, the function
    returns. -/
theorem setup_returns (ndebug : Bool) :
    ∃ fuel arr', ptrchase_setup ndebug r rand fuel arr len = some (.returned arr') := by
  obtain ⟨fuel, s, hs⟩ := picks_exit (r := r) hlen hzero hfair (Nat.le_refl (len - 1))
  have hsome : ∃ res, ptrchase_setup ndebug r rand fuel arr len = some res := by
    unfold ptrchase_setup
    rw [hs]
    split
    · exact ⟨_, rfl⟩
    · split
      · exact ⟨_, rfl⟩
      · simp only [Option.bind_eq_bind, Option.bind_some]
        split <;> exact ⟨_, rfl⟩
  obtain ⟨res, hres⟩ := hsome
  obtain ⟨arr', path, rfl, -⟩ := setup_ring hlen hzero hres
  exact ⟨fuel, arr', hres⟩

end termination

end PtrChase
