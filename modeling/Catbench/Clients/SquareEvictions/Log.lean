import Catbench.Framework.Memory
import Mathlib.Algebra.Group.Nat.Defs

/-! # The performance log of `square_evictions.c`

    The log is a mapped buffer that begins with its own size and occupancy; the
    occupancy counts these two words.  An entry that no longer fits makes the
    buffer grow to twice its size, and `mremap` may move it.

    * **Model**: every access is checked against what is mapped.
    * **Invariant**: what the buffer holds after some calls of `bufappend`.
    * **Export**: the loop of `main` finds the entries in their order.

    Pointers do not wrap around; values of type `size_t` do.
-/

open Memory

namespace SquareEvictions

/-! ## Section 1: `bufappend` -/

/-- `perf_log_buffer_entry_t`. -/
structure Entry where
  realtime : ℕ
  cputime : ℕ
  instrs : ℕ
  bandwidth : ℕ
  deriving DecidableEq, Repr

/-- `sizeof *(*buf)->log`. -/
def entry_size : ℕ := 32

/-- `PERF_LOG_BUFFER_INIT_SIZE`. -/
def init_size : ℕ := 5 * 1024 * 1024

/-- `PERF_LOG_BUFFER_GROW_FACT`. -/
def grow_fact : ℕ := 2

/-- What a call of `bufappend` meets: the address that `mremap` gives for a
    size, unless it fails, and what is to be recorded. -/
structure Append where
  mremap : ℕ → Option ℕ
  refuses : ∀ size, 2 ^ 63 ≤ size → mremap size = none
  entry : Entry

/-- The pointer to the log, and what is mapped. -/
structure Log where
  buf : ℕ
  region : Region

/-- `movntq4`. -/
def movntq4 (m : Region) (dest a b c d : ℕ) : Option Region := do
  let m ← m.store dest a
  let m ← m.store (dest + 8) b
  let m ← m.store (dest + 16) c
  m.store (dest + 24) d

/-- `(*buf)->siz`. -/
def Log.siz (s : Log) : Option ℕ := s.region.load s.buf

/-- `(*buf)->occ`. -/
def Log.occ (s : Log) : Option ℕ := s.region.load (s.buf + 8)

/-- The buffer after a successful `mremap`. -/
def grow (s : Log) (newloc : ℕ) : Option Log := do
  let siz ← s.siz
  let m ← s.region.remap s.buf siz (grow_fact * siz % 2 ^ 64) newloc
  let siz ← m.load newloc
  let m ← m.store newloc (siz * grow_fact % 2 ^ 64)
  some ⟨newloc, m⟩

/-- The second half of `bufappend`. -/
def record (s : Log) (e : Entry) : Option Log := do
  let occ ← s.occ
  let m ← movntq4 s.region (s.buf + occ) e.realtime e.cputime e.instrs e.bandwidth
  let occ ← m.load (s.buf + 8)
  let m ← m.store (s.buf + 8) ((occ + entry_size) % 2 ^ 64)
  some ⟨s.buf, m⟩

/-- `bufappend`, with its result; a fault is `none`. -/
def bufappend (c : Append) (s : Log) : Option (Bool × Log) := do
  let occ ← s.occ
  let siz ← s.siz
  if (occ + entry_size) % 2 ^ 64 > siz then
    match c.mremap (grow_fact * siz % 2 ^ 64) with
    | none => some (false, s)
    | some newloc =>
      let s ← grow s newloc
      let s ← record s c.entry
      some (true, s)
  else
    let s ← record s c.entry
    some (true, s)

/-- The buffer that `main` maps. -/
def init_log (loc : ℕ) : Option Log := do
  let m := Region.fresh loc init_size
  let m ← m.store loc init_size
  let m ← m.store (loc + 8) (loc + 16 - loc)
  some ⟨loc, m⟩

/-- Some calls of `bufappend`, with their results. -/
def appends : List Append → Log → Option (List Bool × Log)
  | [], s => some ([], s)
  | c :: cs, s => do
    let (ok, s) ← bufappend c s
    let (oks, s) ← appends cs s
    some (ok :: oks, s)

/-- The entries of the calls that succeed. -/
def recorded : List Append → List Bool → List Entry
  | c :: cs, true :: oks => c.entry :: recorded cs oks
  | _ :: cs, false :: oks => recorded cs oks
  | _, _ => []

/-- `*entry`. -/
def load_entry (m : Region) (entry : ℕ) : Option Entry := do
  let realtime ← m.load entry
  let cputime ← m.load (entry + 8)
  let instrs ← m.load (entry + 16)
  let bandwidth ← m.load (entry + 24)
  some ⟨realtime, cputime, instrs, bandwidth⟩

/-- The loop of `main` over the log, from an entry on; each one is printed. -/
def export_from (s : Log) : ℕ → ℕ → Option (List Entry)
  | 0, _ => none
  | fuel + 1, entry => do
    let occ ← s.occ
    if entry < s.buf + occ then
      let e ← load_entry s.region entry
      let rest ← export_from s fuel (entry + entry_size)
      some (e :: rest)
    else some []

/-- The loop over the whole log. -/
def export_log (fuel : ℕ) (s : Log) : Option (List Entry) := export_from s fuel (s.buf + 16)

/-! ## Section 2: Words of the buffer -/

theorem movntq4_word {m : Region} {dest i : ℕ} (hdest : dest = m.base + 8 * i)
    (h : 8 * i + 32 ≤ m.size) (a b c d : ℕ) :
    movntq4 m dest a b c d =
      some ((((m.set i a).set (i + 1) b).set (i + 2) c).set (i + 3) d) := by
  have h₀ : m.store dest a = some (m.set i a) := Region.store_word hdest (by omega)
  have h₁ : (m.set i a).store (dest + 8) b = some ((m.set i a).set (i + 1) b) := by
    apply Region.store_word <;> simp only [Region.set_base, Region.set_size] <;> omega
  have h₂ : ((m.set i a).set (i + 1) b).store (dest + 16) c =
      some (((m.set i a).set (i + 1) b).set (i + 2) c) := by
    apply Region.store_word <;> simp only [Region.set_base, Region.set_size] <;> omega
  have h₃ : (((m.set i a).set (i + 1) b).set (i + 2) c).store (dest + 24) d =
      some ((((m.set i a).set (i + 1) b).set (i + 2) c).set (i + 3) d) := by
    apply Region.store_word <;> simp only [Region.set_base, Region.set_size] <;> omega
  simp only [movntq4, h₀, h₁, h₂, h₃, Option.bind_eq_bind, Option.bind_some]

/-- The entry with the given number. -/
def entry_at (m : Region) (i : ℕ) : Entry :=
  ⟨m.word (2 + 4 * i), m.word (3 + 4 * i), m.word (4 + 4 * i), m.word (5 + 4 * i)⟩

theorem load_entry_at {m : Region} {addr i : ℕ} (haddr : addr = m.base + 16 + 32 * i)
    (h : 48 + 32 * i ≤ m.size) : load_entry m addr = some (entry_at m i) := by
  have h₀ : m.load addr = some (m.word (2 + 4 * i)) :=
    Region.load_word (by omega) (by omega)
  have h₁ : m.load (addr + 8) = some (m.word (3 + 4 * i)) :=
    Region.load_word (by omega) (by omega)
  have h₂ : m.load (addr + 16) = some (m.word (4 + 4 * i)) :=
    Region.load_word (by omega) (by omega)
  have h₃ : m.load (addr + 24) = some (m.word (5 + 4 * i)) :=
    Region.load_word (by omega) (by omega)
  simp only [load_entry, h₀, h₁, h₂, h₃, Option.bind_eq_bind, Option.bind_some, entry_at]

/-- Other words do not matter to an entry. -/
theorem entry_at_set {m : Region} {i j value : ℕ} (h : j < 2 + 4 * i ∨ 5 + 4 * i < j) :
    entry_at (m.set j value) i = entry_at m i := by
  unfold entry_at
  rw [Region.set_word_of_ne (by omega), Region.set_word_of_ne (by omega),
    Region.set_word_of_ne (by omega), Region.set_word_of_ne (by omega)]

theorem entry_at_written {m : Region} {i a b c d : ℕ} :
    entry_at ((((m.set (2 + 4 * i) a).set (2 + 4 * i + 1) b).set (2 + 4 * i + 2) c).set
      (2 + 4 * i + 3) d) i = ⟨a, b, c, d⟩ := by
  rw [entry_at, show 3 + 4 * i = 2 + 4 * i + 1 by omega, show 4 + 4 * i = 2 + 4 * i + 2 by omega,
    show 5 + 4 * i = 2 + 4 * i + 3 by omega]
  congr 1
  · rw [Region.set_word_of_ne (by omega), Region.set_word_of_ne (by omega),
      Region.set_word_of_ne (by omega), Region.set_word_self]
  · rw [Region.set_word_of_ne (by omega), Region.set_word_of_ne (by omega), Region.set_word_self]
  · rw [Region.set_word_of_ne (by omega), Region.set_word_self]
  · exact Region.set_word_self

/-! ## Section 3: What the buffer holds -/

/-- The buffer holds some entries. -/
structure Holds (s : Log) (entries : List Entry) : Prop where
  at_base : s.buf = s.region.base
  siz : s.region.word 0 = s.region.size
  occ : s.region.word 1 = 16 + 32 * entries.length
  fits : 16 + 32 * entries.length ≤ s.region.size
  room : 48 ≤ s.region.size
  bounded : s.region.size < 2 ^ 63
  entry : ∀ i (h : i < entries.length), entry_at s.region i = entries[i]

namespace Holds

variable {s : Log} {entries : List Entry}

theorem load_siz (h : Holds s entries) : s.siz = some s.region.size := by
  have hroom := h.room
  rw [Log.siz, h.at_base, ← h.siz]
  exact Region.load_word (by omega) (by omega)

theorem load_occ (h : Holds s entries) : s.occ = some (16 + 32 * entries.length) := by
  have hroom := h.room
  rw [Log.occ, h.at_base, ← h.occ]
  exact Region.load_word (by omega) (by omega)

/-- Growing keeps the entries. -/
theorem grow (h : Holds s entries) (newloc : ℕ) (hsize : 2 * s.region.size < 2 ^ 63) :
    ∃ s', SquareEvictions.grow s newloc = some s' ∧ Holds s' entries ∧
      s'.region.size = 2 * s.region.size := by
  have hroom := h.room
  have hfits := h.fits
  have hnew : grow_fact * s.region.size % 2 ^ 64 = 2 * s.region.size := by
    rw [grow_fact]
    omega
  have hnew' : s.region.size * grow_fact % 2 ^ 64 = 2 * s.region.size := by
    rw [Nat.mul_comm, hnew]
  -- the region at its new place, before its size is corrected
  let m := s.region.resized newloc (2 * s.region.size)
  have hsize' : m.size = 2 * s.region.size := rfl
  have hword : ∀ i, 8 * i + 8 ≤ s.region.size → m.word i = s.region.word i :=
    fun i hi => Region.resized_word hi
  have hremap : s.region.remap s.buf s.region.size (2 * s.region.size) newloc = some m :=
    if_pos ⟨h.at_base, rfl⟩
  have hload : m.load newloc = some s.region.size := by
    rw [← h.siz, ← hword 0 (by omega)]
    exact Region.load_word rfl (by omega)
  have hstore : m.store newloc (2 * s.region.size) = some (m.set 0 (2 * s.region.size)) :=
    Region.store_word rfl (by omega)
  refine ⟨⟨newloc, m.set 0 (2 * s.region.size)⟩, ?_, ?_, rfl⟩
  · simp only [SquareEvictions.grow, h.load_siz, Option.bind_eq_bind, Option.bind_some, hnew,
      hremap, hload, hnew', hstore]
  · constructor
    · rfl
    · exact Region.set_word_self
    · rw [Region.set_word_of_ne (by decide), hword 1 (by omega), h.occ]
    · rw [Region.set_size]
      omega
    · rw [Region.set_size]
      omega
    · rw [Region.set_size]
      exact hsize
    · intro i hi
      rw [← h.entry i hi, entry_at_set (.inl (by omega))]
      unfold entry_at
      rw [hword _ (by omega), hword _ (by omega), hword _ (by omega), hword _ (by omega)]

/-- An entry that fits is recorded behind the others. -/
theorem record (h : Holds s entries) (e : Entry) (hfits : 48 + 32 * entries.length ≤ s.region.size) :
    ∃ s', SquareEvictions.record s e = some s' ∧ Holds s' (entries ++ [e]) := by
  have hbounded := h.bounded
  let i := 2 + 4 * entries.length
  let m := (((s.region.set i e.realtime).set (i + 1) e.cputime).set (i + 2) e.instrs).set (i + 3)
    e.bandwidth
  have hwrite : movntq4 s.region (s.buf + (16 + 32 * entries.length)) e.realtime e.cputime e.instrs
      e.bandwidth = some m :=
    movntq4_word (by rw [h.at_base]; omega) (by omega) _ _ _ _
  have hother : ∀ j, j < 2 → m.word j = s.region.word j := by
    intro j hj
    rw [Region.set_word_of_ne (by omega), Region.set_word_of_ne (by omega),
      Region.set_word_of_ne (by omega), Region.set_word_of_ne (by omega)]
  have hload : m.load (s.buf + 8) = some (16 + 32 * entries.length) := by
    rw [← h.occ, ← hother 1 (by decide)]
    exact Region.load_word (by rw [h.at_base]; rfl) (by
      show 8 * 1 + 8 ≤ s.region.size
      omega)
  have hsum : (16 + 32 * entries.length + entry_size) % 2 ^ 64 = 48 + 32 * entries.length := by
    rw [entry_size]
    omega
  have hstore : m.store (s.buf + 8) (48 + 32 * entries.length) =
      some (m.set 1 (48 + 32 * entries.length)) :=
    Region.store_word (by rw [h.at_base]; rfl) (by
      show 8 * 1 + 8 ≤ s.region.size
      omega)
  refine ⟨⟨s.buf, m.set 1 (48 + 32 * entries.length)⟩, ?_, ?_⟩
  · simp only [SquareEvictions.record, h.load_occ, Option.bind_eq_bind, Option.bind_some, hwrite,
      hload, hsum, hstore]
  · constructor
    · exact h.at_base
    · rw [Region.set_word_of_ne (by decide), hother 0 (by decide), h.siz]
      rfl
    · rw [Region.set_word_self, List.length_append, List.length_singleton]
      omega
    · rw [List.length_append, List.length_singleton]
      show 16 + 32 * (entries.length + 1) ≤ s.region.size
      omega
    · exact h.room
    · exact h.bounded
    · intro j hj
      rw [entry_at_set (.inl (by omega))]
      rw [List.length_append, List.length_singleton] at hj
      by_cases hlast : j = entries.length
      · subst hlast
        rw [List.getElem_concat_length rfl]
        exact entry_at_written
      · rw [List.getElem_append_left (by omega), ← h.entry j (by omega), entry_at_set (.inr (by omega)),
          entry_at_set (.inr (by omega)), entry_at_set (.inr (by omega)), entry_at_set (.inr (by omega))]

/-- **Step**: a call never faults.  It fails, and changes nothing, only if the
    buffer is full and `mremap` fails; otherwise the entry is behind the others. -/
theorem bufappend (h : Holds s entries) (c : Append) :
    (SquareEvictions.bufappend c s = some (false, s) ∧
      s.region.size < 48 + 32 * entries.length ∧ c.mremap (2 * s.region.size) = none) ∨
    ∃ s', SquareEvictions.bufappend c s = some (true, s') ∧ Holds s' (entries ++ [c.entry]) := by
  have hbounded := h.bounded
  have hfits := h.fits
  have hroom := h.room
  have hsum : (16 + 32 * entries.length + entry_size) % 2 ^ 64 = 48 + 32 * entries.length := by
    rw [entry_size]
    omega
  have hdouble : grow_fact * s.region.size % 2 ^ 64 = 2 * s.region.size := by
    rw [grow_fact]
    omega
  have hrun : SquareEvictions.bufappend c s =
      if 48 + 32 * entries.length > s.region.size then
        match c.mremap (2 * s.region.size) with
        | none => some (false, s)
        | some newloc => (SquareEvictions.grow s newloc).bind fun s' =>
          (SquareEvictions.record s' c.entry).bind fun s'' => some (true, s'')
      else (SquareEvictions.record s c.entry).bind fun s' => some (true, s') := by
    simp only [SquareEvictions.bufappend, h.load_occ, h.load_siz, Option.bind_eq_bind,
      Option.bind_some, hsum, hdouble]
  rw [hrun]
  by_cases hfull : 48 + 32 * entries.length > s.region.size
  · rw [if_pos hfull]
    cases hmremap : c.mremap (2 * s.region.size) with
    | none => exact .inl ⟨rfl, hfull, rfl⟩
    | some newloc =>
      -- a size of `2 ^ 63` bytes or more would have been refused
      have hsize : 2 * s.region.size < 2 ^ 63 := by
        by_contra hlarge
        rw [c.refuses _ (Nat.le_of_not_lt hlarge)] at hmremap
        cases hmremap
      obtain ⟨s', hgrow, hs', hgrown⟩ := h.grow newloc hsize
      obtain ⟨s'', hrecord, hs''⟩ := hs'.record c.entry (by omega)
      refine .inr ⟨s'', ?_, hs''⟩
      simp only [hgrow, hrecord, Option.bind_some]
  · rw [if_neg hfull]
    obtain ⟨s', hrecord, hs'⟩ := h.record c.entry (Nat.le_of_not_lt hfull)
    refine .inr ⟨s', ?_, hs'⟩
    rw [hrecord, Option.bind_some]

/-- The loop of `main` over the rest of the log. -/
theorem export_from (h : Holds s entries) {fuel i : ℕ} (hi : i ≤ entries.length)
    (hfuel : entries.length - i < fuel) :
    SquareEvictions.export_from s fuel (s.buf + 16 + 32 * i) = some (entries.drop i) := by
  have hfits := h.fits
  induction fuel generalizing i with
  | zero => omega
  | succ fuel ih =>
    rw [SquareEvictions.export_from, h.load_occ]
    show (if s.buf + 16 + 32 * i < s.buf + (16 + 32 * entries.length) then _ else _) = _
    by_cases hlt : i < entries.length
    · have hload : load_entry s.region (s.buf + 16 + 32 * i) = some entries[i] := by
        rw [← h.entry i hlt, h.at_base]
        exact load_entry_at rfl (by omega)
      have hnext : s.buf + 16 + 32 * i + entry_size = s.buf + 16 + 32 * (i + 1) := by
        rw [entry_size]
        omega
      rw [if_pos (by omega), hload, List.drop_eq_getElem_cons hlt]
      show (SquareEvictions.export_from s fuel (s.buf + 16 + 32 * i + entry_size)).bind _ = _
      rw [hnext, ih (by omega) (by omega)]
      rfl
    · rw [if_neg (by omega), List.drop_eq_nil_of_le (by omega)]

end Holds

/-! ## Section 4: Runs -/

/-- The buffer of `main` holds nothing. -/
theorem init_log_holds (loc : ℕ) : ∃ s, init_log loc = some s ∧ Holds s [] := by
  have hsiz : (Region.fresh loc init_size).store loc init_size =
      some ((Region.fresh loc init_size).set 0 init_size) :=
    Region.store_word rfl (by
      show 8 * 0 + 8 ≤ init_size
      decide)
  have hocc : ((Region.fresh loc init_size).set 0 init_size).store (loc + 8) (loc + 16 - loc) =
      some (((Region.fresh loc init_size).set 0 init_size).set 1 (loc + 16 - loc)) :=
    Region.store_word rfl (by
      show 8 * 1 + 8 ≤ init_size
      decide)
  refine ⟨⟨loc, ((Region.fresh loc init_size).set 0 init_size).set 1 (loc + 16 - loc)⟩, ?_, ?_⟩
  · simp only [init_log, hsiz, hocc, Option.bind_eq_bind, Option.bind_some]
  · constructor
    · rfl
    · rw [Region.set_word_of_ne (by decide), Region.set_word_self]
      rfl
    · rw [Region.set_word_self, Nat.add_sub_cancel_left]
      rfl
    · show 16 ≤ init_size
      decide
    · show 48 ≤ init_size
      decide
    · show init_size < 2 ^ 63
      decide
    · intro i hi
      cases hi

/-- **Run**: no call of a run faults, and the buffer holds the entries of the
    calls that succeed. -/
theorem appends_holds {s : Log} {entries : List Entry} (h : Holds s entries) (cs : List Append) :
    ∃ oks s', appends cs s = some (oks, s') ∧ Holds s' (entries ++ recorded cs oks) ∧
      (recorded cs oks).length = oks.count true := by
  induction cs generalizing s entries with
  | nil =>
    refine ⟨[], s, rfl, ?_, rfl⟩
    show Holds s (entries ++ [])
    rw [List.append_nil]
    exact h
  | cons c cs ih =>
    rcases h.bufappend c with ⟨hcall, -, -⟩ | ⟨s₁, hcall, hs₁⟩
    · obtain ⟨oks, s', hrest, hs', hlen⟩ := ih h
      refine ⟨false :: oks, s', ?_, hs', ?_⟩
      · simp only [appends, hcall, hrest, Option.bind_eq_bind, Option.bind_some]
      · rw [recorded, hlen, List.count_cons_of_ne (by decide)]
    · obtain ⟨oks, s', hrest, hs', hlen⟩ := ih hs₁
      refine ⟨true :: oks, s', ?_, ?_, ?_⟩
      · simp only [appends, hcall, hrest, Option.bind_eq_bind, Option.bind_some]
      · rw [recorded, List.append_cons]
        exact hs'
      · rw [recorded, List.length_cons, hlen, List.count_cons_self]

/-- **No entry is lost**: after any calls, of which `k` have succeeded, the
    occupancy is `16 + 32 * k` and within the bytes that are mapped, the loop of
    `main` finds the `k` entries in their order, and a further call does not
    fault; if it fails, `mremap` has failed and nothing has changed. -/
theorem perf_log_lossless (loc : ℕ) (cs : List Append) :
    ∃ s₀ oks s, init_log loc = some s₀ ∧ appends cs s₀ = some (oks, s) ∧
      s.occ = some (16 + 32 * oks.count true) ∧ s.siz = some s.region.size ∧
      16 + 32 * oks.count true ≤ s.region.size ∧
      (recorded cs oks).length = oks.count true ∧
      (∃ fuel, export_log fuel s = some (recorded cs oks)) ∧
      ∀ c, ∃ ok s', bufappend c s = some (ok, s') ∧
        (ok = false → s' = s ∧ c.mremap (2 * s.region.size) = none) := by
  obtain ⟨s₀, hinit, h₀⟩ := init_log_holds loc
  obtain ⟨oks, s, hrun, hs, hlen⟩ := appends_holds h₀ cs
  rw [List.nil_append] at hs
  refine ⟨s₀, oks, s, hinit, hrun, ?_, hs.load_siz, ?_, hlen, ⟨oks.count true + 1, ?_⟩, ?_⟩
  · rw [hs.load_occ, hlen]
  · rw [← hlen]
    exact hs.fits
  · exact hs.export_from (Nat.zero_le _) (by omega)
  · intro c
    rcases hs.bufappend c with ⟨hcall, -, hmremap⟩ | ⟨s', hcall, -⟩
    · exact ⟨false, s, hcall, fun _ => ⟨rfl, hmremap⟩⟩
    · exact ⟨true, s', hcall, fun h => by cases h⟩

end SquareEvictions
