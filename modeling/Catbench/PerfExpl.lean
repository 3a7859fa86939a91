import Mathlib.Algebra.BigOperators.Group.List.Basic
import Mathlib.Data.Int.ModEq
import Catbench.Framework.Recursion

/-! # The report of `perfexpl`

    `perfexpl.c` maps the buffer into which the kernel puts samples of a counter,
    and prints for each record of its data area the difference to the record before
    it.  The loop has two bases and two units: it starts `data_offset` behind the
    buffer and ends `data_size` behind the buffer, and a step of `next_sample` adds
    the size of a record in bytes to a pointer to records.

    Theorem: it walks the area record by record iff there is a single record that
    begins in the first 32 bytes of the buffer, and the `int64_t` that is printed
    holds its value.  Otherwise it visits every 32nd record, and leaves out as many
    bytes at the end as the area is away from the buffer.

    Addresses do not wrap: no mapping comes near the end of the address space.
-/

open Recursion

namespace PerfExpl

/-! ## Section 1: Model -/

/-- The memory of the process, by bytes. -/
abbrev Mem := ℕ → UInt8

/-- A little-endian word of so many bytes. -/
def load (mem : Mem) (p : ℕ) : ℕ → ℕ
  | 0 => 0
  | bytes + 1 => (mem p).toNat + 256 * load mem (p + 1) bytes

structure perf_record_sample_t where
  /-- `header.size`, the rest of the header is not looked at. -/
  size : ℕ
  time : ℕ
  cpu : ℕ
  value : ℕ

/-- `sizeof(perf_record_sample_t)`: a header of 8 bytes and three words of 8 bytes. -/
def sizeof : ℕ := 32

/-- What a pointer to a record points to. -/
def deref (mem : Mem) (p : ℕ) : perf_record_sample_t :=
  { -- behind the type and `misc`
    size := load mem (p + 6) 2
    time := load mem (p + 8) 8
    cpu := load mem (p + 16) 4
    -- behind `res`
    value := load mem (p + 24) 8 }

/-- The fields of the control page at the start of the buffer. -/
structure perf_event_mmap_page where
  ptr : ℕ
  data_offset : ℕ
  data_size : ℕ

def first_sample (buf : perf_event_mmap_page) : ℕ := buf.ptr + buf.data_offset

/-- The size counts bytes, and is added to a pointer to records. -/
def next_sample (mem : Mem) (ptr : ℕ) : ℕ := ptr + (deref mem ptr).size * sizeof

/-- A line of the report; words are printed as signed integers. -/
structure Line where
  time : ℤ
  misses : ℤ
  cpu : ℤ
  deriving DecidableEq, Repr

def line (each : perf_record_sample_t) (last_misses : ℕ) : Line :=
  { time := Int.bmod each.time (2 ^ 64)
    -- the difference of two words wraps, as does the signed integer it is printed as
    misses := Int.bmod (each.value - last_misses) (2 ^ 64)
    cpu := Int.bmod each.cpu (2 ^ 32) }

theorem line_misses (each : perf_record_sample_t) (last_misses : ℕ) :
    (line each last_misses).misses = Int.bmod (each.value - last_misses) (2 ^ 64) := rfl

/-- The variables of the loop, the addresses it has visited and what it has printed. -/
structure Loop where
  each : ℕ
  last_misses : ℕ
  visited : List ℕ
  printed : List Line
  deriving DecidableEq, Repr

def start (buf : perf_event_mmap_page) : Loop :=
  { each := first_sample buf, last_misses := 0, visited := [], printed := [] }

def turn (mem : Mem) (s : Loop) : Loop :=
  { each := next_sample mem s.each
    last_misses := (deref mem s.each).value
    visited := s.visited ++ [s.each]
    printed := s.printed ++ [line (deref mem s.each) s.last_misses] }

/-- The bound has the buffer as its base, not the first record. -/
def goes_on (buf : perf_event_mmap_page) (s : Loop) : Bool := s.each < buf.ptr + buf.data_size

def report_loop (mem : Mem) (buf : perf_event_mmap_page) (fuel : ℕ) : Option Loop :=
  whileLoop (goes_on buf) (turn mem) fuel (start buf)

/-- The report on a test program that has ended; it begins with an assertion. -/
def report (mem : Mem) (buf : perf_event_mmap_page) (fuel : ℕ) : Option (Option Loop) :=
  if (deref mem (first_sample buf)).size = sizeof then (report_loop mem buf fuel).map some
  else some none

/-! ## Section 2: What is expected of the report -/

/-- A buffer whose data area is filled by `k` records. -/
structure Area where
  mem : Mem
  buf : perf_event_mmap_page
  k : ℕ
  pos : 1 ≤ k
  fills : buf.data_size = k * sizeof
  sizes : ∀ i, i < k → (deref mem (first_sample buf + i * sizeof)).size = sizeof

namespace Area

/-- The `i`-th record. -/
def record (a : Area) (i : ℕ) : perf_record_sample_t :=
  deref a.mem (first_sample a.buf + i * sizeof)

/-- Where the records begin. -/
def starts (a : Area) : List ℕ := (List.range a.k).map fun i => first_sample a.buf + i * sizeof

/-- A record at this address lies in the area. -/
def Inside (a : Area) (p : ℕ) : Prop :=
  first_sample a.buf ≤ p ∧ p + sizeof ≤ first_sample a.buf + a.buf.data_size

/-- The report goes through the area record by record. -/
def Walks (a : Area) : Prop :=
  ∃ fuel s, report a.mem a.buf fuel = some (some s) ∧ s.visited = a.starts ∧
    (∀ p ∈ s.visited, a.Inside p) ∧
    (s.printed.map Line.misses).sum = (a.record (a.k - 1)).value

end Area

/-! ## Section 3: Turns of the loop -/

section turns
variable {mem : Mem} {buf : perf_event_mmap_page} {s : Loop}

/-- The lines add up to the last value, as words. -/
def Telescopes (s : Loop) : Prop :=
  (s.printed.map Line.misses).sum ≡ s.last_misses [ZMOD 2 ^ 64]

theorem telescopes_turn (h : Telescopes s) : Telescopes (turn mem s) := by
  show ((s.printed ++ [line (deref mem s.each) s.last_misses]).map Line.misses).sum ≡
    (deref mem s.each).value [ZMOD 2 ^ 64]
  rw [List.map_append, List.sum_append, List.map_singleton, List.sum_singleton]
  have hline : (line (deref mem s.each) s.last_misses).misses ≡
      (deref mem s.each).value - s.last_misses [ZMOD 2 ^ 64] := by
    rw [line_misses]
    exact Int.bmod_emod
  have hsum := h.add hline
  rwa [add_sub_cancel] at hsum

theorem telescopes_iterate (mem : Mem) (buf : perf_event_mmap_page) (n : ℕ) :
    Telescopes ((turn mem)^[n] (start buf)) := by
  induction n with
  | zero => exact Int.ModEq.refl 0
  | succ n ih =>
    rw [Function.iterate_succ_apply']
    exact telescopes_turn ih

/-- The bytes of a step. -/
def stride : ℕ := sizeof * sizeof

/-- As long as there are records of that size where the loop gets, it goes on by equal
    steps. -/
theorem iterate_turn {n : ℕ}
    (h : ∀ i, i < n → (deref mem (first_sample buf + i * stride)).size = sizeof) :
    ((turn mem)^[n] (start buf)).each = first_sample buf + n * stride ∧
      ((turn mem)^[n] (start buf)).visited =
        (List.range n).map fun i => first_sample buf + i * stride := by
  induction n with
  | zero => exact ⟨by simp [start], rfl⟩
  | succ n ih =>
    obtain ⟨heach, hvisited⟩ := ih fun i hi => h i (by omega)
    rw [Function.iterate_succ_apply']
    constructor
    · show next_sample mem ((turn mem)^[n] (start buf)).each = _
      rw [next_sample, heach, h n (Nat.lt_succ_self n), Nat.succ_mul, ← Nat.add_assoc, stride]
    · show ((turn mem)^[n] (start buf)).visited ++ [((turn mem)^[n] (start buf)).each] = _
      rw [heach, hvisited, List.range_succ, List.map_append, List.map_singleton]

end turns

/-! ## Section 4: The area -/

namespace Area
variable {a : Area} {s : Loop}

/-- The turns of the loop: one for each step that begins before `data_size`, counted
    from the buffer. -/
def turns (a : Area) : ℕ := (a.buf.data_size - a.buf.data_offset + (stride - 1)) / stride

theorem lt_turns_iff (a : Area) (i : ℕ) :
    i < a.turns ↔ first_sample a.buf + i * stride < a.buf.ptr + a.buf.data_size := by
  rw [turns, first_sample]
  simp only [stride, sizeof]
  omega

/-- Where the loop gets there is a record, with 31 records between it and the one
    before. -/
theorem step_lt {i : ℕ} (h : i < a.turns) : i * sizeof < a.k := by
  rw [lt_turns_iff, a.fills, first_sample] at h
  simp only [stride, sizeof] at h ⊢
  omega

theorem size_of_step {i : ℕ} (h : i < a.turns) :
    (deref a.mem (first_sample a.buf + i * stride)).size = sizeof := by
  have hsize := a.sizes (i * sizeof) (step_lt h)
  rwa [Nat.mul_assoc] at hsize

/-- The loop ends, and makes these turns. -/
theorem exists_report_iff (a : Area) (s : Loop) :
    (∃ fuel, report a.mem a.buf fuel = some (some s)) ↔
      s = (turn a.mem)^[a.turns] (start a.buf) := by
  -- the test holds as long as there are turns left
  have hgoes : ∀ n, n ≤ a.turns →
      goes_on a.buf ((turn a.mem)^[n] (start a.buf)) = decide (n < a.turns) := by
    intro n hn
    have hsizes : ∀ i, i < n → (deref a.mem (first_sample a.buf + i * stride)).size = sizeof :=
      fun i hi => size_of_step (by omega)
    rw [goes_on, (iterate_turn hsizes).1, decide_eq_decide, ← lt_turns_iff]
  have hstop : goes_on a.buf ((turn a.mem)^[a.turns] (start a.buf)) = false := by
    rw [hgoes _ (Nat.le_refl _), decide_eq_false_iff_not]
    exact Nat.lt_irrefl _
  have hgo : ∀ m, m < a.turns → goes_on a.buf ((turn a.mem)^[m] (start a.buf)) = true := by
    intro m hm
    rw [hgoes m (Nat.le_of_lt hm), decide_eq_true_iff]
    exact hm
  have hfirst : (deref a.mem (first_sample a.buf)).size = sizeof := by
    have := a.sizes 0 a.pos
    rwa [Nat.zero_mul, Nat.add_zero] at this
  rw [← exists_whileLoop_iff hstop hgo]
  unfold report report_loop
  simp [hfirst]

/-- **Report**: the loop visits every 32nd record of the area, as many as there are up to
    `data_size` behind the buffer, and nothing else; as words, what it prints adds up to
    the last value it has read. -/
theorem report_visits (h : ∃ fuel, report a.mem a.buf fuel = some (some s)) :
    s.visited = (List.range a.turns).map (fun i => first_sample a.buf + i * stride) ∧
      (∀ p ∈ s.visited, a.Inside p) ∧ Telescopes s := by
  rw [exists_report_iff] at h
  have hvisited : s.visited =
      (List.range a.turns).map fun i => first_sample a.buf + i * stride := by
    rw [h]
    exact (iterate_turn fun i hi => size_of_step hi).2
  refine ⟨hvisited, fun p hp => ?_, ?_⟩
  · -- every step of the loop is a record, and the records fill the area
    rw [hvisited] at hp
    obtain ⟨i, hi, rfl⟩ := List.mem_map.mp hp
    have hlt := step_lt (List.mem_range.mp hi)
    rw [Inside, a.fills]
    simp only [stride, sizeof] at hlt ⊢
    omega
  · rw [h]
    exact telescopes_iterate _ _ _

/-- There are as many turns as records only for a record at the start of the buffer. -/
theorem turns_eq_iff (a : Area) : a.turns = a.k ↔ a.k = 1 ∧ a.buf.data_offset < sizeof := by
  have hpos := a.pos
  rw [turns, a.fills]
  simp only [stride, sizeof]
  omega

theorem turns_of_walks (h : a.Walks) : a.turns = a.k := by
  obtain ⟨fuel, s, hs, hstarts, -⟩ := h
  rw [(report_visits ⟨fuel, hs⟩).1, starts] at hstarts
  simpa using congrArg List.length hstarts

/-- A word is printed as it is, if the sign bit is not set. -/
theorem bmod_eq_self_iff (n : ℕ) : Int.bmod n (2 ^ 64) = n ↔ n < 2 ^ 63 := by
  constructor
  · intro h
    have := Int.bmod_lt (x := n) (m := 2 ^ 64) (by decide)
    omega
  · intro h
    exact Int.bmod_eq_of_le_mul_two (by omega) (by omega)

/-- With a single turn there is a single line, which has the value itself. -/
theorem misses_of_one_turn (h : a.turns = 1) :
    (((turn a.mem)^[a.turns] (start a.buf)).printed.map Line.misses).sum =
      Int.bmod (a.record 0).value (2 ^ 64) := by
  have hprinted : ((turn a.mem)^[1] (start a.buf)).printed =
      [line (deref a.mem (first_sample a.buf)) 0] := rfl
  rw [h, hprinted, List.map_singleton, List.sum_singleton, record, Nat.zero_mul, Nat.add_zero]
  rw [line_misses, Nat.cast_zero, sub_zero]

/-- **Walk**: the report goes through the area record by record iff that is a single
    record, which begins in the first 32 bytes of the buffer and has a value that fits. -/
theorem walks_iff (a : Area) :
    a.Walks ↔ a.k = 1 ∧ a.buf.data_offset < sizeof ∧ (a.record 0).value < 2 ^ 63 := by
  constructor
  · intro h
    have hturns := turns_of_walks h
    obtain ⟨hk, hoffset⟩ := (turns_eq_iff a).mp hturns
    refine ⟨hk, hoffset, ?_⟩
    obtain ⟨fuel, s, hs, -, -, hsum⟩ := h
    rw [(exists_report_iff a s).mp ⟨fuel, hs⟩, misses_of_one_turn (hturns.trans hk), hk] at hsum
    exact (bmod_eq_self_iff _).mp hsum
  · intro h
    obtain ⟨hk, hoffset, hvalue⟩ := h
    have hturns : a.turns = 1 := ((turns_eq_iff a).mpr ⟨hk, hoffset⟩).trans hk
    obtain ⟨fuel, hfuel⟩ := (exists_report_iff a _).mpr rfl
    obtain ⟨hvisited, hinside, -⟩ := report_visits ⟨fuel, hfuel⟩
    refine ⟨fuel, _, hfuel, ?_, hinside, ?_⟩
    · rw [hvisited, starts, hturns, hk]
      simp
    · rw [misses_of_one_turn hturns, hk]
      exact (bmod_eq_self_iff _).mpr hvalue

end Area

/-! ## Section 5: The buffer of `perfexpl` -/

def PERF_BUFFER_NUM_PAGES : ℕ := 1 + (1 <<< 5)

/-- Pages of 4096 bytes, of which the first is the control page; all counts are 0. -/
def perf_buffer : Area where
  mem := fun p => if p % sizeof = 6 then 32 else 0
  buf := { ptr := 2 ^ 20, data_offset := 4096, data_size := (PERF_BUFFER_NUM_PAGES - 1) * 4096 }
  k := 4096
  pos := by decide
  fills := rfl
  sizes := by
    intro i _
    have hsize : (1052672 + i * 32 + 6) % 32 = 6 := by omega
    have hzero : (1052672 + i * 32 + 6 + 1) % 32 ≠ 6 := by omega
    simp [deref, load, first_sample, sizeof, hsize, hzero]

/-- Of the 4096 records 124 are visited. -/
theorem perf_buffer_not_walked : perf_buffer.turns = 124 ∧ ¬perf_buffer.Walks := by
  have hturns : perf_buffer.turns = 124 := by decide
  refine ⟨hturns, fun h => ?_⟩
  have := Area.turns_of_walks h
  rw [hturns] at this
  cases this

end PerfExpl
