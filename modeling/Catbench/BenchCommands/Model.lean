import Catbench.Framework.LTS
import Catbench.Framework.Signal
import Mathlib.Logic.Function.Basic

/-! # The processes of `run_benchmarks`

    `run_benchmarks` forks one child per test program.  A child pins itself to
    its core, reports up to the parent by a signal, and waits for a signal
    before it executes its program; the parent waits for each child's report
    before it forks the next one, and releases all children at the end.
    `SIG_CHILD_PROC_UP` and `SIG_EXEC_TEST_PROG` are the same signal number, so
    one pending bit per process serves both directions.

    One step is one call to the outside, by the parent or by any child, in any
    order; its label says who moves and whether the call succeeds.  Every error
    branch of the source jumps to `cleanup`, also in a child, and so returns
    from the function.  A process that returned, or that executes its test
    program, takes no further step here.
-/

open Signal LTS

namespace BenchCommands

/-! ## Section 1: State -/

structure test_prog_t where
  cmdline : List String
  target_cpu : ℤ
  deriving DecidableEq, Repr

/-- The arguments of the call and the machine it runs on. -/
structure Config where
  test_progs : List test_prog_t
  /-- `get_nprocs_conf()`. -/
  num_cpus : ℤ

def Config.num_test_progs (cfg : Config) : ℕ := cfg.test_progs.length

/-- Who sent a signal. -/
inductive Sender where
  | parent
  | child (prog : ℕ)
  deriving DecidableEq, Repr

/-- Where the parent is; `prog` is the counter of the loop it is in. -/
inductive ParentPc where
  /-- Before `malloc`. -/
  | malloc
  /-- At the test of the loop that forks. -/
  | launch (prog : ℕ)
  | fork (prog : ℕ)
  /-- In `await_signal(SIG_CHILD_PROC_UP)`, before and in `sigwait`. -/
  | await_block (prog pid : ℕ)
  | await (prog pid : ℕ)
  /-- At `childpids[prog].pid = pid`. -/
  | record (prog pid : ℕ)
  /-- At the test of the loop that sends `SIG_EXEC_TEST_PROG`. -/
  | signal (prog : ℕ)
  | returned (ret : Bool)
  deriving DecidableEq, Repr

/-- Where a child is. -/
inductive ChildPc where
  | cpu_alloc
  | cpu_alloc_size
  /-- At the test of `target_cpu`. -/
  | check_cpu
  | setaffinity
  /-- At `kill(getppid(), SIG_CHILD_PROC_UP)`. -/
  | report
  /-- In `await_signal(SIG_EXEC_TEST_PROG)`, before and in `sigwait`. -/
  | await_block
  | await
  | exec
  | executing
  | returned (ret : Bool)
  deriving DecidableEq, Repr

structure Child where
  pid : ℕ
  pc : ChildPc
  proc : Process Sender
  /-- The command lines it executed. -/
  executed : List (List String)

structure State where
  pc : ParentPc
  proc : Process Sender
  /-- `none` is `NULL`; the entries past the ones assigned hold whatever
      `malloc` left there. -/
  childpids : Option (ℕ → ℕ)
  num_childpids : ℕ
  /-- The children forked in this call, by the `prog` of their iteration. -/
  children : ℕ → Option Child

/-! ## Section 2: Steps -/

inductive ParentAct where
  /-- The outcome of `malloc`, and what it left in the memory. -/
  | malloc (ok : Bool) (memory : ℕ → ℕ)
  /-- `block_signal(SIG_CHILD_PROC_UP)`, inside the loop or in `await_signal`. -/
  | block
  /-- The child's pid, or `none` for -1. -/
  | fork (res : Option ℕ)
  | sigwait
  | record
  /-- Leave the loop. -/
  | leave
  | kill (ok : Bool)

inductive ChildAct where
  | cpu_alloc (ok : Bool)
  | cpu_alloc_size (ok : Bool)
  | check_cpu
  | setaffinity (ok : Bool)
  | kill (ok : Bool)
  | block
  | sigwait
  | exec (ok : Bool)
  deriving DecidableEq, Repr

inductive Label where
  | parent (act : ParentAct)
  | child (prog : ℕ) (act : ChildAct)

/-- `memset(childpids, 1, sizeof *childpids)`: the first entry only. -/
def memset_first (memory : ℕ → ℕ) : ℕ → ℕ := Function.update memory 0 0x01010101

/-- A child right after `fork` returned 0 in it. -/
def Child.forked (pid : ℕ) (parent : Process Sender) : Child :=
  { pid, pc := .cpu_alloc, proc := parent.fork, executed := [] }

/-- `kill(pid, SIG_EXEC_TEST_PROG)` by the parent. -/
def State.kill (s : State) (pid : ℕ) : State :=
  { s with children := fun prog => (s.children prog).map fun c =>
      if c.pid = pid then { c with proc := c.proc.kill .parent } else c }

def step_parent (cfg : Config) (s : State) (act : ParentAct) : Option State :=
  if s.proc.terminated then none
  else match s.pc, act with
  | .malloc, .malloc true memory =>
    some { s with
      pc := .launch 0
      childpids := some (memset_first memory)
      num_childpids := cfg.num_test_progs }
  | .malloc, .malloc false _ => some { s with pc := .returned true, childpids := none }
  | .launch prog, .block =>
    if prog < cfg.num_test_progs then some { s with pc := .fork prog, proc := s.proc.block }
    else none
  | .fork _, .fork none => some { s with pc := .returned false }
  | .fork prog, .fork (some pid) =>
    -- A child is not reaped during the call, so its pid is not given out again.
    if 0 < pid ∧ ∀ k < prog, ∀ c ∈ s.children k, c.pid ≠ pid then
      some { s with
        pc := .await_block prog pid
        children := Function.update s.children prog (some (.forked pid s.proc)) }
    else none
  | .await_block prog pid, .block => some { s with pc := .await prog pid, proc := s.proc.block }
  | .await prog pid, .sigwait => do
    let proc ← s.proc.sigwait
    some { s with pc := .record prog pid, proc }
  | .record prog pid, .record =>
    some { s with
      pc := .launch (prog + 1)
      childpids := s.childpids.map fun entries => Function.update entries prog pid }
  | .launch prog, .leave =>
    if prog < cfg.num_test_progs then none else some { s with pc := .signal 0 }
  | .signal prog, .kill true =>
    if prog < cfg.num_test_progs then
      s.childpids.map fun entries => { s.kill (entries prog) with pc := .signal (prog + 1) }
    else none
  | .signal prog, .kill false =>
    if prog < cfg.num_test_progs then some { s with pc := .returned false } else none
  | .signal prog, .leave =>
    if prog < cfg.num_test_progs then none else some { s with pc := .returned true }
  | _, _ => none

/-- What a child's own step does to it; reporting up is added in `step`. -/
def step_child (prog : test_prog_t) (num_cpus : ℤ) (c : Child) (act : ChildAct) : Option Child :=
  if c.proc.terminated then none
  else match c.pc, act with
  | .cpu_alloc, .cpu_alloc ok =>
    some { c with pc := if ok then .cpu_alloc_size else .returned false }
  | .cpu_alloc_size, .cpu_alloc_size ok =>
    some { c with pc := if ok then .check_cpu else .returned false }
  | .check_cpu, .check_cpu =>
    some { c with pc := if prog.target_cpu ≥ num_cpus then .returned false else .setaffinity }
  | .setaffinity, .setaffinity ok =>
    some { c with pc := if ok then .report else .returned false }
  -- The result of the `kill` is not looked at.
  | .report, .kill _ => some { c with pc := .await_block }
  | .await_block, .block => some { c with pc := .await, proc := c.proc.block }
  | .await, .sigwait => do
    let proc ← c.proc.sigwait
    some { c with pc := .exec, proc }
  | .exec, .exec true =>
    some { c with pc := .executing, executed := c.executed ++ [prog.cmdline] }
  | .exec, .exec false => some { c with pc := .returned false }
  | _, _ => none

def step (cfg : Config) (s : State) : Label → Option State
  | .parent act => step_parent cfg s act
  | .child prog act => do
    let c ← s.children prog
    let test_prog ← cfg.test_progs[prog]?
    let c ← step_child test_prog cfg.num_cpus c act
    let s := { s with children := Function.update s.children prog (some c) }
    if act = .kill true then some { s with proc := s.proc.kill (.child prog) } else some s

/-- At the call no child exists and no signal is on its way; the signal may
    already be blocked, and the static variables may be those of an earlier
    call. -/
structure Init (s : State) : Prop where
  pc : s.pc = .malloc
  proc : ∃ blocked, s.proc = .quiet blocked
  children : ∀ prog, s.children prog = none

def run_benchmarks (cfg : Config) : System State Label where
  init := Init
  step := step cfg

/-- The entries that `wait_benchmarks` waits for, in its order. -/
def State.awaited (s : State) : List ℕ :=
  match s.childpids with
  | none => []
  | some entries => (List.range s.num_childpids).map entries

/-! ## Section 3: Inversion

    Everything a step can do, guards included. -/

/-- The child has not reported up. -/
def ChildPc.early : ChildPc → Bool
  | .cpu_alloc | .cpu_alloc_size | .check_cpu | .setaffinity | .report => true
  | _ => false

/-- The call of a child's step succeeds.  The source ignores the result of its
    `kill`, which therefore counts as a success either way. -/
def ChildAct.Succeeds (prog : test_prog_t) (num_cpus : ℤ) : ChildAct → Prop
  | .cpu_alloc ok | .cpu_alloc_size ok | .setaffinity ok | .exec ok => ok = true
  | .check_cpu => prog.target_cpu < num_cpus
  | .kill _ | .block | .sigwait => True

/-- The steps of a child. -/
inductive ChildStep (prog : test_prog_t) (num_cpus : ℤ) (c : Child) : ChildAct → Child → Prop where
  | advance {act : ChildAct} {pc : ChildPc} (hpc : c.pc.early = true) (hpc' : pc.early = true)
      (hact : act ≠ .kill true) (hok : act.Succeeds prog num_cpus) :
      ChildStep prog num_cpus c act { c with pc }
  | fail {act : ChildAct} (hpc : c.pc.early = true ∨ c.pc = .exec) (hact : act ≠ .kill true)
      (hok : ¬act.Succeeds prog num_cpus) :
      ChildStep prog num_cpus c act { c with pc := .returned false }
  | report {ok : Bool} (hpc : c.pc = .report) :
      ChildStep prog num_cpus c (.kill ok) { c with pc := .await_block }
  | block (hpc : c.pc = .await_block) :
      ChildStep prog num_cpus c .block { c with pc := .await, proc := c.proc.block }
  | wake {proc : Process Sender} (hpc : c.pc = .await) (hproc : c.proc.sigwait = some proc) :
      ChildStep prog num_cpus c .sigwait { c with pc := .exec, proc }
  | exec (hpc : c.pc = .exec) :
      ChildStep prog num_cpus c (.exec true)
        { c with pc := .executing, executed := c.executed ++ [prog.cmdline] }

/-- The steps of the parent. -/
inductive ParentStep (cfg : Config) (s : State) : ParentAct → State → Prop where
  | allocated {memory : ℕ → ℕ} (hpc : s.pc = .malloc) :
      ParentStep cfg s (.malloc true memory) { s with
        pc := .launch 0
        childpids := some (memset_first memory)
        num_childpids := cfg.num_test_progs }
  | unallocated {memory : ℕ → ℕ} (hpc : s.pc = .malloc) :
      ParentStep cfg s (.malloc false memory) { s with pc := .returned true, childpids := none }
  | launch {prog : ℕ} (hpc : s.pc = .launch prog) (hprog : prog < cfg.num_test_progs) :
      ParentStep cfg s .block { s with pc := .fork prog, proc := s.proc.block }
  | unforked {prog : ℕ} (hpc : s.pc = .fork prog) :
      ParentStep cfg s (.fork none) { s with pc := .returned false }
  | forked {prog pid : ℕ} (hpc : s.pc = .fork prog)
      (hfresh : ∀ k < prog, ∀ c ∈ s.children k, c.pid ≠ pid) :
      ParentStep cfg s (.fork (some pid)) { s with
        pc := .await_block prog pid
        children := Function.update s.children prog (some (.forked pid s.proc)) }
  | block {prog pid : ℕ} (hpc : s.pc = .await_block prog pid) :
      ParentStep cfg s .block { s with pc := .await prog pid, proc := s.proc.block }
  | wake {prog pid : ℕ} {proc : Process Sender} (hpc : s.pc = .await prog pid)
      (hproc : s.proc.sigwait = some proc) :
      ParentStep cfg s .sigwait { s with pc := .record prog pid, proc }
  | record {prog pid : ℕ} (hpc : s.pc = .record prog pid) :
      ParentStep cfg s .record { s with
        pc := .launch (prog + 1)
        childpids := s.childpids.map fun entries => Function.update entries prog pid }
  | launched {prog : ℕ} (hpc : s.pc = .launch prog) (hprog : cfg.num_test_progs ≤ prog) :
      ParentStep cfg s .leave { s with pc := .signal 0 }
  | signal {prog : ℕ} {entries : ℕ → ℕ} (hpc : s.pc = .signal prog)
      (hprog : prog < cfg.num_test_progs) (hentries : s.childpids = some entries) :
      ParentStep cfg s (.kill true) { s.kill (entries prog) with pc := .signal (prog + 1) }
  | unsignalled {prog : ℕ} (hpc : s.pc = .signal prog) (hprog : prog < cfg.num_test_progs) :
      ParentStep cfg s (.kill false) { s with pc := .returned false }
  | signalled {prog : ℕ} (hpc : s.pc = .signal prog) (hprog : cfg.num_test_progs ≤ prog) :
      ParentStep cfg s .leave { s with pc := .returned true }

theorem childStep_of_step {prog : test_prog_t} {num_cpus : ℤ} {c c' : Child} {act : ChildAct}
    (h : step_child prog num_cpus c act = some c') : ChildStep prog num_cpus c act c' := by
  unfold step_child at h
  by_cases hdead : c.proc.terminated = true
  · rw [if_pos hdead] at h
    cases h
  rw [if_neg hdead] at h
  split at h
  case h_1 ok hpc | h_2 ok hpc | h_4 ok hpc =>
    obtain rfl := Option.some.inj h
    by_cases hok : ok = true
    · rw [if_pos hok]
      exact .advance (by simp [hpc, ChildPc.early]) rfl (by simp) hok
    · rw [if_neg hok]
      exact .fail (by simp [hpc, ChildPc.early]) (by simp) hok
  case h_3 hpc =>
    obtain rfl := Option.some.inj h
    by_cases hcpu : prog.target_cpu ≥ num_cpus
    · rw [if_pos hcpu]
      exact .fail (by simp [hpc, ChildPc.early]) (by simp) (Int.not_lt.mpr hcpu)
    · rw [if_neg hcpu]
      exact .advance (by simp [hpc, ChildPc.early]) rfl (by simp) (Int.not_le.mp hcpu)
  case h_5 hpc => obtain rfl := Option.some.inj h; exact .report hpc
  case h_6 hpc => obtain rfl := Option.some.inj h; exact .block hpc
  case h_7 hpc =>
    obtain ⟨proc, hproc, heq⟩ := Option.bind_eq_some_iff.mp h
    obtain rfl := Option.some.inj heq
    exact .wake hpc hproc
  case h_8 hpc => obtain rfl := Option.some.inj h; exact .exec hpc
  case h_9 hpc =>
    obtain rfl := Option.some.inj h
    exact .fail (.inr hpc) (by simp) (by simp [ChildAct.Succeeds])
  case h_10 => cases h

theorem parentStep_of_step {cfg : Config} {s s' : State} {act : ParentAct}
    (h : step_parent cfg s act = some s') : ParentStep cfg s act s' := by
  unfold step_parent at h
  by_cases hdead : s.proc.terminated = true
  · rw [if_pos hdead] at h
    cases h
  rw [if_neg hdead] at h
  split at h
  case h_1 hpc => obtain rfl := Option.some.inj h; exact .allocated hpc
  case h_2 hpc => obtain rfl := Option.some.inj h; exact .unallocated hpc
  case h_3 hpc =>
    obtain ⟨hprog, heq⟩ := Option.ite_none_right_eq_some.mp h
    obtain rfl := Option.some.inj heq
    exact .launch hpc hprog
  case h_4 hpc => obtain rfl := Option.some.inj h; exact .unforked hpc
  case h_5 hpc =>
    obtain ⟨hfresh, heq⟩ := Option.ite_none_right_eq_some.mp h
    obtain rfl := Option.some.inj heq
    exact .forked hpc hfresh.2
  case h_6 hpc => obtain rfl := Option.some.inj h; exact .block hpc
  case h_7 hpc =>
    obtain ⟨proc, hproc, heq⟩ := Option.bind_eq_some_iff.mp h
    obtain rfl := Option.some.inj heq
    exact .wake hpc hproc
  case h_8 hpc => obtain rfl := Option.some.inj h; exact .record hpc
  case h_9 hpc =>
    obtain ⟨hprog, heq⟩ := Option.ite_none_left_eq_some.mp h
    obtain rfl := Option.some.inj heq
    exact .launched hpc (Nat.not_lt.mp hprog)
  case h_10 hpc =>
    obtain ⟨hprog, heq⟩ := Option.ite_none_right_eq_some.mp h
    obtain ⟨entries, hentries, rfl⟩ := Option.map_eq_some_iff.mp heq
    exact .signal hpc hprog hentries
  case h_11 hpc =>
    obtain ⟨hprog, heq⟩ := Option.ite_none_right_eq_some.mp h
    obtain rfl := Option.some.inj heq
    exact .unsignalled hpc hprog
  case h_12 hpc =>
    obtain ⟨hprog, heq⟩ := Option.ite_none_left_eq_some.mp h
    obtain rfl := Option.some.inj heq
    exact .signalled hpc (Nat.not_lt.mp hprog)
  case h_13 => cases h

/-- A child's step changes the child, and its report reaches the parent. -/
theorem step_child_eq_some {cfg : Config} {s s' : State} {prog : ℕ} {act : ChildAct}
    (h : step cfg s (.child prog act) = some s') :
    ∃ c c' test_prog, s.children prog = some c ∧ cfg.test_progs[prog]? = some test_prog ∧
      ChildStep test_prog cfg.num_cpus c act c' ∧
      s' = { s with
        children := Function.update s.children prog (some c')
        proc := if act = .kill true then s.proc.kill (.child prog) else s.proc } := by
  unfold step at h
  obtain ⟨c, hc, h⟩ := Option.bind_eq_some_iff.mp h
  obtain ⟨test_prog, hprog, h⟩ := Option.bind_eq_some_iff.mp h
  obtain ⟨c', hc', h⟩ := Option.bind_eq_some_iff.mp h
  refine ⟨c, c', test_prog, hc, hprog, childStep_of_step hc', ?_⟩
  by_cases hact : act = .kill true
  · simp only [if_pos hact] at h ⊢
    exact (Option.some.inj h).symm
  · simp only [if_neg hact] at h ⊢
    exact (Option.some.inj h).symm

end BenchCommands
