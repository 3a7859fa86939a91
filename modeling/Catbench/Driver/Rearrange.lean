import Catbench.Clients.SquareEvictions.Options
import Mathlib.Data.Finset.Insert

/-! # Moving all processes to some cores (`prep_system.c`, `proc_manip.c`)

    `proc_manip_rebalance_system` makes one pass over the processes that `ps`
    lists, and sets the affinity mask of those that have another one.  The
    processes change meanwhile, so `rearrange_processes` makes passes until one
    has nothing to set.

    What the system calls do is given with every line of every pass.  The count
    of a pass is exact: no list has 2^31 processes.
-/

open Getopt (Text)
open SquareEvictionsOptions (isspace leading_number)

namespace Rearrange

/-! ## Section 1: `proc_manip_rebalance_system` -/

/-- A `cpu_set_t`. -/
abbrev Cores := Finset ℕ

def CPU_SETSIZE : ℕ := 1024

/-- A core that does not fit is left out. -/
def CPU_SET (cpu : ℕ) (mask : Cores) : Cores := if cpu < CPU_SETSIZE then insert cpu mask else mask

/-- The values of `errno` that are told apart. -/
inductive Errno where
  | zero
  | EPERM
  | ESRCH
  | EFAULT
  | EINVAL
  | other
  deriving DecidableEq, Repr

/-- What `sched_getaffinity` leaves behind.  If it failed, `curr_cores` is what
    the variable had before. -/
structure Affinity where
  failed : Bool
  curr_cores : Cores

/-- A line of the list, and the system calls at the time when it is read. -/
structure Entry where
  line : Text
  sched_getaffinity : ℤ → Affinity
  sched_setaffinity : ℤ → Cores → Errno
  /-- `getline` reads at least a newline. -/
  line_ne_nil : line ≠ []

/-- The list of one pass, and `errno` when no line is left. -/
structure Listing where
  entries : List Entry
  errno : Errno

def PROC_MANIP_ERR_PARSE_PID : UInt8 := 0x1
def PROC_MANIP_ERR_READ_MASK : UInt8 := 0x2
def PROC_MANIP_ERR_INSF_PRIV : UInt8 := 0x4
def PROC_MANIP_ERR_UNK_FAULT : UInt8 := 0x8

/-- The messages about the lines. -/
inductive Msg where
  | no_characters (line : Text)
  | out_of_range (line : Text)
  | unreadable (id : ℤ)
  | already_migrated (id : ℤ)
  | unable_to_migrate (id : ℤ)
  | access_denied
  | finished (id : ℤ)
  | migrated (id : ℤ)
  deriving DecidableEq, Repr

/-- The variables of a pass, and what it has logged. -/
structure Pass where
  updated : ℕ
  err : UInt8
  log : List Msg
  deriving DecidableEq, Repr

def Pass.note (p : Pass) (m : Msg) : Pass := { p with log := p.log ++ [m] }

def Pass.fail (p : Pass) (flag : UInt8) : Pass := { p with err := p.err ||| flag }

/-- `strtol` to the base 10: the number and whether it is out of range, or
    nothing when no character is parsed. -/
def strtol (line : Text) : Option (ℤ × Bool) :=
  let inRange (n : ℤ) : ℤ × Bool :=
    (max (-2 ^ 63) (min (2 ^ 63 - 1) n), decide (n < -2 ^ 63 ∨ 2 ^ 63 - 1 < n))
  match line.dropWhile isspace with
  | '-' :: t => (leading_number t).map fun n => inRange (-n)
  | '+' :: t => (leading_number t).map inRange
  | t => (leading_number t).map inRange

/-- The conversion from `long`. -/
def pid_t (n : ℤ) : ℤ := Int.bmod n (2 ^ 32)

def trunc_newline (victim : Text) : Text := victim.takeWhile (· ≠ '\n')

/-- How the loop goes on after a line. -/
inductive Turn where
  | next (p : Pass)
  | cleanup (p : Pass)
  | abort
  deriving DecidableEq, Repr

section pass
variable (NDEBUG : Bool) (cores : Cores)

/-- The affinity of process `id` is read. -/
def read_mask (id : ℤ) (a : Affinity) (p : Pass) : Pass :=
  if a.failed then (p.note (.unreadable id)).fail PROC_MANIP_ERR_READ_MASK else p

/-- The `switch` over `errno` after `sched_setaffinity`. -/
def switch (id : ℤ) (p : Pass) : Errno → Turn
  | .EFAULT => if NDEBUG then .cleanup (p.fail PROC_MANIP_ERR_UNK_FAULT) else .abort
  | .EINVAL => .next (p.note (.unable_to_migrate id))
  | .EPERM => .cleanup ((p.note .access_denied).fail PROC_MANIP_ERR_INSF_PRIV)
  | .ESRCH => .next (p.note (.finished id))
  | .zero | .other => .next { p.note (.migrated id) with updated := p.updated + 1 }

/-- The body of the loop, from the number on. -/
def each_pid (e : Entry) (id : ℤ) (p : Pass) : Turn :=
  let a := e.sched_getaffinity id
  let p := read_mask id a p
  if cores = a.curr_cores then .next (p.note (.already_migrated id))
  else switch NDEBUG id p (e.sched_setaffinity id cores)

def each_line (e : Entry) (p : Pass) : Turn :=
  if e.line.length = 0 then .next p
  else
    match strtol e.line with
    | none => .next ((p.note (.no_characters (trunc_newline e.line))).fail PROC_MANIP_ERR_PARSE_PID)
    | some (n, errnot) =>
      if errnot then
        .next ((p.note (.out_of_range (trunc_newline e.line))).fail PROC_MANIP_ERR_PARSE_PID)
      else each_pid NDEBUG cores e (pid_t n) p

/-- The loop, with the assertion after it; `none` when an assertion fails. -/
def loop (errno : Errno) : List Entry → Pass → Option Pass
  | [], p => if errno = .zero ∨ NDEBUG then some p else none
  | e :: es, p =>
    match each_line NDEBUG cores e p with
    | .next p => loop errno es p
    | .cleanup p => some p
    | .abort => none

def proc_manip_rebalance_system (pids : Listing) : Option Pass :=
  loop NDEBUG cores pids.errno pids.entries ⟨0, 0x0, []⟩

end pass

/-! ## Section 2: `rearrange_processes` -/

def REARRANGE_RETRIES : ℕ := 3

/-- The remainder is unsigned, so it is not negative as long as there are fewer
    than 2^31 cores, and the loop after it has nothing to do. -/
def pick_core (num_cores : ℕ) (procs_go_where : ℤ) : ℕ :=
  (procs_go_where % 2 ^ 32).toNat % num_cores

def requested_mask (multicore : Bool) (procs_go_where : ℤ) (num_cores : ℕ) : Cores :=
  if multicore then (List.range num_cores).foldl (fun mask cpu => CPU_SET cpu mask) ∅
  else CPU_SET (pick_core num_cores procs_go_where) ∅

/-- The loop over the attempts, of which at most so many are left: the variable
    `attempts` at its end and all passes that were made. -/
def attempt (rebalance : ℕ → Option Pass) : ℕ → ℕ → List Pass → Option (ℕ × List Pass)
  | 0, attempts, made => some (attempts, made)
  | left + 1, attempts, made =>
    match rebalance attempts with
    | none => none
    | some p =>
      if p.updated = 0 then some (attempts, made ++ [p])
      else attempt rebalance left (attempts + 1) (made ++ [p])

/-- The passes that were made, and the result. -/
structure Run where
  made : List Pass
  success : Bool
  deriving DecidableEq, Repr

/-- The result for the lists `pids 1`, `pids 2` and so on. -/
def rearrange_processes (NDEBUG multicore : Bool) (procs_go_where : ℤ) (num_cores : ℕ)
    (pids : ℕ → Listing) : Option Run :=
  let mask := requested_mask multicore procs_go_where num_cores
  (attempt (fun n => proc_manip_rebalance_system NDEBUG mask (pids n)) REARRANGE_RETRIES 1 []).map
    fun (attempts, made) => {
      made := made
      success :=
        if attempts > REARRANGE_RETRIES then false
        else if made.getLast?.any (·.err ≠ 0) then false
        else true }

/-! ## Section 3: One pass -/

/-- The message is about a line that is not parsed, a mask that is not read, or
    a denied access. -/
def Msg.bad : Msg → Bool
  | .no_characters _ | .out_of_range _ | .unreadable _ | .access_denied => true
  | _ => false

def Msg.moved : Msg → Bool
  | .migrated _ => true
  | _ => false

/-- The process of the line is known, and has the mask or cannot get it. -/
def Settled (cores : Cores) (e : Entry) : Prop :=
  ∃ n, strtol e.line = some (n, false) ∧
    (e.sched_getaffinity (pid_t n)).failed = false ∧
    ((e.sched_getaffinity (pid_t n)).curr_cores = cores ∨
      e.sched_setaffinity (pid_t n) cores = .ESRCH ∨
      e.sched_setaffinity (pid_t n) cores = .EINVAL)

/-- A pass without an error or an update has no message about one. -/
structure Counted (p : Pass) : Prop where
  err : p.err = 0 → ∀ m ∈ p.log, m.bad = false
  updated : p.updated = 0 → ∀ m ∈ p.log, m.moved = false

/-- A pass has counted nothing. -/
def Pass.quiet (p : Pass) : Prop := p.err = 0 ∧ p.updated = 0

/-- What one line of the list does to a pass. -/
inductive Does (NDEBUG : Bool) (cores : Cores) (e : Entry) (p : Pass) : Turn → Prop where
  | next (q : Pass) : Counted q → (q.quiet → p.quiet ∧ Settled cores e) →
      Does NDEBUG cores e p (.next q)
  | cleanup (q : Pass) : Counted q → q.err ≠ 0 → Does NDEBUG cores e p (.cleanup q)
  | abort (id : ℤ) : NDEBUG = false → e.sched_setaffinity id cores = .EFAULT →
      Does NDEBUG cores e p .abort

section pass
variable {NDEBUG : Bool} {cores : Cores} {errno : Errno} {e : Entry} {es : List Entry}
  {p q : Pass} {id n : ℤ} {a : Affinity} {m : Msg} {flag : UInt8}

theorem Counted.start : Counted ⟨0, 0x0, []⟩ := ⟨by simp, by simp⟩

theorem Counted.note (h : Counted p) (hbad : m.bad = false) (hmoved : m.moved = false) :
    Counted (p.note m) where
  err := by simpa [Pass.note, or_imp, forall_and, hbad] using h.err
  updated := by simpa [Pass.note, or_imp, forall_and, hmoved] using h.updated

theorem fail_err_ne_zero (hflag : flag ≠ 0) : (p.fail flag).err ≠ 0 := by
  intro hzero
  exact hflag (UInt8.or_eq_zero_iff.mp hzero).2

theorem Counted.fail (h : Counted p) (hflag : flag ≠ 0) : Counted (p.fail flag) where
  err := fun hzero => absurd hzero (fail_err_ne_zero hflag)
  updated := h.updated

/-- The error is counted with the message. -/
theorem Counted.note_fail (h : Counted p) (hflag : flag ≠ 0) (hmoved : m.moved = false) :
    Counted ((p.note m).fail flag) where
  err := fun hzero => absurd hzero (fail_err_ne_zero hflag)
  updated := by simpa [Pass.note, Pass.fail, or_imp, forall_and, hmoved] using h.updated

/-- The update is counted with the message. -/
theorem Counted.note_updated (h : Counted p) (hbad : m.bad = false) :
    Counted { p.note m with updated := p.updated + 1 } where
  err := by simpa [Pass.note, or_imp, forall_and, hbad] using h.err
  updated := fun hzero => absurd hzero (Nat.succ_ne_zero p.updated)

theorem Counted.read_mask (h : Counted p) : Counted (read_mask id a p) := by
  unfold Rearrange.read_mask
  split
  · exact h.note_fail (by decide) rfl
  · exact h

theorem quiet_of_read_mask (h : (read_mask id a p).quiet) : a.failed = false ∧ p.quiet := by
  unfold read_mask at h
  split at h
  · exact absurd h.1 (fail_err_ne_zero (by decide))
  · rename_i hfailed
    exact ⟨by simpa using hfailed, h⟩

/-- A line with a parse error. -/
theorem Does.unparsed (hp : Counted p) (hmoved : m.moved = false) :
    Does NDEBUG cores e p (.next ((p.note m).fail PROC_MANIP_ERR_PARSE_PID)) :=
  .next _ (hp.note_fail (by decide) hmoved)
    fun hquiet => absurd hquiet.1 (fail_err_ne_zero (by decide))

theorem switch_does (hp : Counted p) (hn : strtol e.line = some (n, false))
    (hq : q = read_mask (pid_t n) (e.sched_getaffinity (pid_t n)) p) :
    Does NDEBUG cores e p
      (switch NDEBUG (pid_t n) q (e.sched_setaffinity (pid_t n) cores)) := by
  have hcounted : Counted q := hq ▸ hp.read_mask
  -- a refusal settles the line if its mask was read
  have hrefused : (e.sched_setaffinity (pid_t n) cores = .ESRCH ∨
      e.sched_setaffinity (pid_t n) cores = .EINVAL) → q.quiet →
      p.quiet ∧ Settled cores e := by
    intro hr hquiet
    obtain ⟨hread, hquiet⟩ := quiet_of_read_mask (hq ▸ hquiet)
    exact ⟨hquiet, n, hn, hread, .inr hr⟩
  -- a migration is never quiet
  have hmigrated (m : Msg) : ({ q.note m with updated := q.updated + 1 } : Pass).quiet →
      p.quiet ∧ Settled cores e := fun hquiet => absurd hquiet.2 (Nat.succ_ne_zero q.updated)
  cases hr : e.sched_setaffinity (pid_t n) cores with
  | zero => exact .next _ (hcounted.note_updated rfl) (hmigrated _)
  | other => exact .next _ (hcounted.note_updated rfl) (hmigrated _)
  | EPERM => exact .cleanup _ (hcounted.note_fail (by decide) rfl) (fail_err_ne_zero (by decide))
  | ESRCH => exact .next _ (hcounted.note rfl rfl) (hrefused (.inl hr))
  | EINVAL => exact .next _ (hcounted.note rfl rfl) (hrefused (.inr hr))
  | EFAULT =>
    cases NDEBUG with
    | true => exact .cleanup _ (hcounted.fail (by decide)) (fail_err_ne_zero (by decide))
    | false => exact .abort (pid_t n) rfl hr

theorem each_line_does (hp : Counted p) :
    Does NDEBUG cores e p (each_line NDEBUG cores e p) := by
  have hline : e.line.length ≠ 0 := fun hzero => e.line_ne_nil (List.length_eq_zero_iff.mp hzero)
  unfold each_line
  rw [if_neg hline]
  cases hn : strtol e.line with
  | none => exact .unparsed hp rfl
  | some parsed =>
    obtain ⟨n, errnot⟩ := parsed
    cases errnot with
    | true => exact .unparsed hp rfl
    | false =>
      show Does NDEBUG cores e p (each_pid NDEBUG cores e (pid_t n) p)
      unfold each_pid
      dsimp only
      split
      · rename_i heq
        refine .next _ (hp.read_mask.note rfl rfl) fun hquiet => ?_
        obtain ⟨hread, hquiet⟩ := quiet_of_read_mask hquiet
        exact ⟨hquiet, n, hn, hread, .inl heq.symm⟩
      · exact switch_does hp hn rfl

/-- A pass that has counted nothing found every line settled. -/
theorem loop_spec (hp : Counted p) (h : loop NDEBUG cores errno es p = some q) :
    Counted q ∧ (q.quiet → p.quiet ∧ ∀ e ∈ es, Settled cores e) := by
  induction es generalizing p with
  | nil =>
    unfold loop at h
    split at h
    · cases h
      exact ⟨hp, fun hquiet => ⟨hquiet, by simp⟩⟩
    · cases h
  | cons e es ih =>
    have hdoes : Does NDEBUG cores e p (each_line NDEBUG cores e p) := each_line_does hp
    unfold loop at h
    cases hdoes' : each_line NDEBUG cores e p with
    | abort => simp [hdoes'] at h
    | cleanup r =>
      rw [hdoes'] at h hdoes
      cases h
      cases hdoes with
      | cleanup _ hcounted herr => exact ⟨hcounted, fun hquiet => absurd hquiet.1 herr⟩
    | next r =>
      rw [hdoes'] at h hdoes
      cases hdoes with
      | next _ hcounted hsettled =>
        obtain ⟨hq, hrest⟩ := ih hcounted h
        refine ⟨hq, fun hquiet => ?_⟩
        obtain ⟨hr, hes⟩ := hrest hquiet
        exact ⟨(hsettled hr).1, List.forall_mem_cons.mpr ⟨(hsettled hr).2, hes⟩⟩

/-- Only an assertion keeps a pass from its end. -/
theorem loop_eq_none (hp : Counted p) (h : loop NDEBUG cores errno es p = none) :
    NDEBUG = false ∧
      (errno ≠ .zero ∨ ∃ e ∈ es, ∃ id, e.sched_setaffinity id cores = .EFAULT) := by
  induction es generalizing p with
  | nil =>
    unfold loop at h
    split at h
    · cases h
    · rename_i herrno
      rw [not_or] at herrno
      exact ⟨by simpa using herrno.2, .inl herrno.1⟩
  | cons e es ih =>
    have hdoes : Does NDEBUG cores e p (each_line NDEBUG cores e p) := each_line_does hp
    unfold loop at h
    cases hdoes' : each_line NDEBUG cores e p with
    | abort =>
      rw [hdoes'] at hdoes
      cases hdoes with
      | abort id hdebug hfault => exact ⟨hdebug, .inr ⟨e, List.mem_cons_self, id, hfault⟩⟩
    | cleanup r => simp [hdoes'] at h
    | next r =>
      rw [hdoes'] at h hdoes
      cases hdoes with
      | next _ hcounted _ =>
        obtain ⟨hdebug, hwhy⟩ := ih hcounted h
        refine ⟨hdebug, hwhy.imp_right ?_⟩
        rintro ⟨d, hd, hfault⟩
        exact ⟨d, List.mem_cons_of_mem e hd, hfault⟩

end pass

/-! ## Section 4: All passes -/

section run
variable {NDEBUG multicore : Bool} {procs_go_where : ℤ} {num_cores : ℕ} {pids : ℕ → Listing}
  {rebalance : ℕ → Option Pass} {left attempts attempts' : ℕ} {made made' : List Pass} {p : Pass}

/-- The loop ends with a pass that has updated nothing, or after all attempts
    that are left, none of which had nothing to update. -/
theorem attempt_spec (h : attempt rebalance left attempts made = some (attempts', made'))
    (hleft : 0 < left) :
    ∃ p, made'.getLast? = some p ∧ made.length < made'.length ∧
      rebalance (attempts + (made'.length - made.length) - 1) = some p ∧
      ((p.updated = 0 ∧ attempts' < attempts + left ∧
          made'.length - made.length ≤ left) ∨
        (p.updated ≠ 0 ∧ attempts' = attempts + left ∧
          made'.length - made.length = left)) := by
  induction left generalizing attempts made with
  | zero => omega
  | succ left ih =>
    unfold attempt at h
    cases hp : rebalance attempts with
    | none => simp [hp] at h
    | some p =>
      rw [hp] at h
      dsimp only at h
      split at h
      · rename_i hzero
        cases h
        exact ⟨p, by simp, by simp, by simpa using hp, .inl ⟨hzero, by omega, by simp⟩⟩
      · rename_i hmoved
        rcases Nat.eq_zero_or_pos left with rfl | hpos
        · cases h
          exact ⟨p, by simp, by simp, by simpa using hp, .inr ⟨hmoved, rfl, by simp⟩⟩
        · obtain ⟨q, hlast, hlt, hq, hend⟩ := ih h hpos
          rw [List.length_append, List.length_singleton] at hlt hq hend
          refine ⟨q, hlast, by omega, ?_, ?_⟩
          · rw [← hq]
            congr 1
            omega
          · omega

/-- The loop ends unless one of the attempts does not. -/
theorem attempt_eq_none (h : attempt rebalance left attempts made = none) :
    ∃ k, attempts ≤ k ∧ k < attempts + left ∧ rebalance k = none := by
  induction left generalizing attempts made with
  | zero => cases h
  | succ left ih =>
    unfold attempt at h
    cases hp : rebalance attempts with
    | none => exact ⟨attempts, le_refl attempts, by omega, hp⟩
    | some p =>
      rw [hp] at h
      dsimp only at h
      split at h
      · cases h
      · obtain ⟨k, hle, hlt, hk⟩ := ih h
        exact ⟨k, by omega, by omega, hk⟩

/-- A run is successful only if its last pass found all processes settled. -/
structure Sound (NDEBUG : Bool) (mask : Cores) (pids : ℕ → Listing) (r : Run) : Prop where
  passes : r.made.length ≤ REARRANGE_RETRIES
  last : ∃ last, r.made.getLast? = some last ∧
    proc_manip_rebalance_system NDEBUG mask (pids r.made.length) = some last ∧
    (r.success = true → (∀ e ∈ (pids r.made.length).entries, Settled mask e) ∧
      ∀ m ∈ last.log, m.moved = false) ∧
    ((∃ m ∈ last.log, m.bad = true) → r.success = false) ∧
    (r.made.length = REARRANGE_RETRIES → (∃ m ∈ last.log, m.moved = true) → r.success = false)

/-- An assertion fails in one of the passes. -/
def Asserts (NDEBUG : Bool) (mask : Cores) (pids : ℕ → Listing) : Prop :=
  NDEBUG = false ∧ ∃ k, 1 ≤ k ∧ k ≤ REARRANGE_RETRIES ∧
    ((pids k).errno ≠ .zero ∨
      ∃ e ∈ (pids k).entries, ∃ id, e.sched_setaffinity id mask = .EFAULT)

/-- The result is sound when it is returned, and it is returned unless an
    assertion fails. -/
theorem rearrange_processes_sound (NDEBUG multicore : Bool) (procs_go_where : ℤ) (num_cores : ℕ)
    (pids : ℕ → Listing) :
    (∃ r, rearrange_processes NDEBUG multicore procs_go_where num_cores pids = some r ∧
      Sound NDEBUG (requested_mask multicore procs_go_where num_cores) pids r) ∨
    (rearrange_processes NDEBUG multicore procs_go_where num_cores pids = none ∧
      Asserts NDEBUG (requested_mask multicore procs_go_where num_cores) pids) := by
  unfold rearrange_processes
  dsimp only
  generalize requested_mask multicore procs_go_where num_cores = mask
  cases h : attempt (fun n => proc_manip_rebalance_system NDEBUG mask (pids n))
      REARRANGE_RETRIES 1 [] with
  | none =>
    obtain ⟨k, hpos, hle, hk⟩ := attempt_eq_none h
    obtain ⟨hdebug, hwhy⟩ := loop_eq_none Counted.start hk
    exact .inr ⟨rfl, hdebug, k, hpos, by omega, hwhy⟩
  | some run =>
    obtain ⟨attempts, made⟩ := run
    obtain ⟨p, hlast, hpos, hp, hend⟩ := attempt_spec h (by decide)
    rw [List.length_nil, Nat.sub_zero] at hp hend
    rw [Nat.add_sub_cancel_left] at hp
    obtain ⟨hcounted, hsettled⟩ := loop_spec Counted.start hp
    have hsuccess : (if attempts > REARRANGE_RETRIES then false
        else if made.getLast?.any (·.err ≠ 0) then false else true) = true ↔
          attempts ≤ REARRANGE_RETRIES ∧ p.err = 0 := by
      rw [hlast]
      simp
    refine .inl ⟨_, rfl, ⟨by dsimp only; omega, p, hlast, hp, ?_, ?_, ?_⟩⟩
    · intro hok
      obtain ⟨hattempts, herr⟩ := hsuccess.mp hok
      have hupdated : p.updated = 0 := by omega
      exact ⟨(hsettled ⟨herr, hupdated⟩).2, hcounted.updated hupdated⟩
    · rintro ⟨m, hm, hbad⟩
      rw [← Bool.not_eq_true, hsuccess]
      rintro ⟨_, herr⟩
      exact absurd (hcounted.err herr m hm) (by simp [hbad])
    · rintro hlength ⟨m, hm, hmoved⟩
      have hupdated : p.updated ≠ 0 := fun hzero =>
        absurd (hcounted.updated hzero m hm) (by simp [hmoved])
      rw [← Bool.not_eq_true, hsuccess]
      rintro ⟨hattempts, _⟩
      omega

end run

end Rearrange
