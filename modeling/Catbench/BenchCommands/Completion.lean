import Catbench.BenchCommands.Failure
import Catbench.Framework.Work
import Mathlib.Algebra.BigOperators.Group.Finset.Basic
import Mathlib.Data.Finset.Lattice.Fold

/-! # A call of `run_benchmarks` comes to its end

    The start barrier says what a child may not do early.  Here is the other
    half: as long as no call fails, the parent and the children never wait for
    each other in a circle.  Each process has a fixed number of steps to do, and
    while one of them is not done, some process can move; so every interleaving
    takes the same number of steps, and ends with all test programs running and
    the parent returned.

    What `wait_benchmarks` waits for afterwards are the pids of these children,
    in the order in which they were forked.
-/

open Signal LTS

namespace BenchCommands

/-! ## Section 1: Work -/

/-- What the parent has left to do, for `n` test programs. -/
def ParentPc.work (n : ℕ) : ParentPc → ℕ
  | .malloc => 6 * n + 3
  | .launch prog => 5 * (n - prog) + n + 2
  | .fork prog => 5 * (n - prog) + n + 1
  | .await_block prog _ => 5 * (n - prog) + n
  | .await prog _ => 5 * (n - prog) + n - 1
  | .record prog _ => 5 * (n - prog) + n - 2
  | .signal prog => n - prog + 1
  | .returned _ => 0

/-- What a child has left to do. -/
def ChildPc.work : ChildPc → ℕ
  | .cpu_alloc => 8
  | .cpu_alloc_size => 7
  | .check_cpu => 6
  | .setaffinity => 5
  | .report => 4
  | .await_block => 3
  | .await => 2
  | .exec => 1
  | .executing | .returned _ => 0

/-- A child that is not there yet has everything to do. -/
def childWork : Option Child → ℕ
  | none => 8
  | some c => c.pc.work

/-- What the call has left to do. -/
def State.work (n : ℕ) (s : State) : ℕ :=
  s.pc.work n + ∑ prog ∈ Finset.range n, childWork (s.children prog)

/-- No call of the step fails, the `kill` of a child included. -/
def Label.Works (cfg : Config) : Label → Prop
  | .parent (.malloc ok _) => ok = true
  | .child prog act => (Label.child prog act).Succeeds cfg ∧ act ≠ .kill false
  | l => l.Succeeds cfg

/-- Where a call has done all its work. -/
structure Finished (cfg : Config) (s : State) : Prop where
  returned : s.pc = .returned true
  executing : ∀ prog test_prog, cfg.test_progs[prog]? = some test_prog →
    ∃ c, s.children prog = some c ∧ c.pc = .executing ∧ c.executed = [test_prog.cmdline]
  awaited : s.awaited.map some = (List.range cfg.num_test_progs).map s.pids

/-! ## Section 2: Invariant -/

/-- What holds as long as everything works. -/
structure Working (cfg : Config) (s : State) (forked taken released : ℕ) : Prop where
  orderly : Orderly cfg s forked taken released
  entries : s.pc ≠ .malloc → s.childpids ≠ none
  reported : ∀ prog c, s.children prog = some c → c.pc.early = false → .child prog ∈ s.proc.sent

section steps

variable {cfg : Config} {s s' : State} {forked taken released : ℕ}

theorem Label.Works.succeeds {l : Label} (h : l.Works cfg) : l.Succeeds cfg := by
  match l with
  | .parent (.malloc _ _) => trivial
  | .parent (.fork _) | .parent (.kill _) => exact h
  | .parent .block | .parent .sigwait | .parent .record | .parent .leave => trivial
  | .child _ _ => exact h.1

theorem working_init (h : Init s) : ∃ forked taken released,
    Working cfg s forked taken released := by
  obtain ⟨forked, taken, released, ho⟩ : ∃ forked taken released,
      Orderly cfg s forked taken released := orderly_init h
  exact ⟨forked, taken, released, ho, fun hne => absurd h.pc hne, by simp [h.children]⟩

/-- The parent keeps what was reported to it. -/
theorem ParentStep.sent {act : ParentAct} (h : ParentStep cfg s act s') :
    s'.proc.sent = s.proc.sent := by
  cases h with
  | wake hpc hproc =>
    obtain ⟨a, -, rfl⟩ := Process.sigwait_eq_some.mp hproc
    rfl
  | allocated | unallocated | launch | unforked | forked | block | record | launched | signal
  | unsignalled | signalled => rfl

theorem ParentStep.entries {act : ParentAct} (h : ParentStep cfg s act s')
    (hworks : (Label.parent act).Works cfg) (hentries : s.pc ≠ .malloc → s.childpids ≠ none) :
    s'.childpids ≠ none := by
  cases h with
  | allocated hpc => simp
  | unallocated hpc => cases hworks
  | launch hpc | unforked hpc | forked hpc | block hpc | wake hpc | launched hpc | signal hpc
  | unsignalled hpc | signalled hpc => exact hentries (by simp [hpc])
  | record hpc => simpa using hentries (by simp [hpc])

theorem Working.step_parent {act : ParentAct} (h : Working cfg s forked taken released)
    (hworks : (Label.parent act).Works cfg) (hstep : ParentStep cfg s act s') :
    ∃ forked' taken' released', Working cfg s' forked' taken' released' := by
  obtain ⟨forked', taken', released', ho⟩ := h.orderly.step_parent hworks.succeeds hstep
  refine ⟨forked', taken', released', ho, fun _ => hstep.entries hworks h.entries, ?_⟩
  intro prog d hd hpc
  -- a child that is new has not reported, and the others have not moved
  rw [hstep.sent]
  rcases hstep.child_pc hd with hnew | ⟨c, hc, hold⟩
  · rw [hnew] at hpc
    cases hpc
  · rw [hold] at hpc
    exact h.reported prog c hc hpc

/-- A child leaves its early steps by the report. -/
theorem ChildStep.report_of_early {test_prog : test_prog_t} {num_cpus : ℤ} {c c' : Child}
    {act : ChildAct} (h : ChildStep test_prog num_cpus c act c')
    (hok : act.Succeeds test_prog num_cpus) (hkill : act ≠ .kill false)
    (hearly : c.pc.early = true) : c'.pc.early = true ∨ act = .kill true := by
  cases h with
  | advance _ hpc' _ _ => exact .inl hpc'
  | fail _ _ hfail => exact absurd hok hfail
  | @report ok hpc =>
    cases ok with
    | true => exact .inr rfl
    | false => exact absurd rfl hkill
  | block hpc | wake hpc | exec hpc =>
    rw [hpc] at hearly
    cases hearly

theorem Working.step_child {prog : ℕ} {act : ChildAct} (h : Working cfg s forked taken released)
    (hworks : (Label.child prog act).Works cfg)
    (hstep : step cfg s (.child prog act) = some s') : Working cfg s' forked taken released := by
  have ho := h.orderly.step_child hworks.succeeds hstep
  obtain ⟨c, c', test_prog, hc, hprog, hcs, rfl⟩ := step_child_eq_some hstep
  refine ⟨ho, h.entries, ?_⟩
  -- the parent is only ever sent more
  have hsent : ∀ a ∈ s.proc.sent,
      a ∈ (if act = .kill true then s.proc.kill (.child prog) else s.proc).sent := by
    intro a ha
    split
    · simp [ha]
    · exact ha
  intro k d hd hpc
  show Sender.child k ∈ (if act = .kill true then s.proc.kill (.child prog) else s.proc).sent
  by_cases hk : k = prog
  · subst hk
    obtain rfl : c' = d := by simpa using hd
    cases hearly : c.pc.early with
    | false => exact hsent _ (h.reported k c hc hearly)
    | true =>
      rcases hcs.report_of_early (hworks.1 test_prog hprog) hworks.2 hearly with hstill | hact
      · rw [hstill] at hpc
        cases hpc
      · rw [if_pos hact]
        simp
  · have hd : s.children k = some d := by simpa [hk] using hd
    exact hsent _ (h.reported k d hd hpc)

theorem working_step {l : Label} (h : ∃ forked taken released, Working cfg s forked taken released)
    (hworks : l.Works cfg) (hstep : step cfg s l = some s') :
    ∃ forked taken released, Working cfg s' forked taken released := by
  obtain ⟨forked, taken, released, hw⟩ := h
  match l with
  | .parent act => exact hw.step_parent hworks (parentStep_of_step hstep)
  | .child prog act => exact ⟨forked, taken, released, hw.step_child hworks hstep⟩

end steps

/-! ## Section 3: Every step does one unit -/

section uses

variable {cfg : Config} {s s' : State} {forked taken released : ℕ}

theorem sum_childWork_update {n prog : ℕ} {children : ℕ → Option Child} {old : Option Child}
    (new : Option Child) (hprog : prog < n) (hold : children prog = old)
    (hone : childWork old = childWork new + 1) :
    ∑ k ∈ Finset.range n, childWork (children k) =
      ∑ k ∈ Finset.range n, childWork (Function.update children prog new k) + 1 := by
  have hmem : prog ∈ Finset.range n := Finset.mem_range.mpr hprog
  have hrest : ∑ k ∈ (Finset.range n).erase prog, childWork (Function.update children prog new k) =
      ∑ k ∈ (Finset.range n).erase prog, childWork (children k) := by
    apply Finset.sum_congr rfl
    intro k hk
    rw [Function.update_of_ne (Finset.ne_of_mem_erase hk)]
  rw [← Finset.add_sum_erase _ _ hmem, ← Finset.add_sum_erase (Finset.range n)
    (fun k => childWork (Function.update children prog new k)) hmem, hrest,
    Function.update_self, hold, hone]
  omega

/-- A step of a child that works does one unit. -/
theorem step_child_work {test_prog : test_prog_t} {num_cpus : ℤ} {c c' : Child} {act : ChildAct}
    (h : step_child test_prog num_cpus c act = some c') (hok : act.Succeeds test_prog num_cpus) :
    c.pc.work = c'.pc.work + 1 := by
  unfold step_child at h
  by_cases hdead : c.proc.terminated = true
  · rw [if_pos hdead] at h
    cases h
  rw [if_neg hdead] at h
  split at h
  case h_1 ok hpc | h_2 ok hpc | h_4 ok hpc =>
    obtain rfl := Option.some.inj h
    have hok : ok = true := hok
    simp [hpc, hok, ChildPc.work]
  case h_3 hpc =>
    obtain rfl := Option.some.inj h
    have hcpu : ¬test_prog.target_cpu ≥ num_cpus := Int.not_le.mpr hok
    simp [hpc, hcpu, ChildPc.work]
  case h_7 hpc =>
    obtain ⟨proc, -, heq⟩ := Option.bind_eq_some_iff.mp h
    obtain rfl := Option.some.inj heq
    simp [hpc, ChildPc.work]
  case h_5 hpc | h_6 hpc | h_8 hpc =>
    obtain rfl := Option.some.inj h
    simp [hpc, ChildPc.work]
  case h_9 hpc => exact absurd hok (by simp [ChildAct.Succeeds])
  case h_10 => cases h

/-- The counters of the parent, and where a fork finds no child. -/
theorem Progress.parent_work {act : ParentAct} (h : Progress cfg s forked taken released)
    (hworks : (Label.parent act).Works cfg) (hstep : ParentStep cfg s act s') :
    s.work cfg.num_test_progs = s'.work cfg.num_test_progs + 1 := by
  have hpcok := h.pc
  unfold State.work
  cases hstep with
  | allocated hpc =>
    simp [hpc, ParentPc.work]
    omega
  | unallocated hpc => cases hworks
  | unforked hpc => exact absurd rfl hworks
  | unsignalled hpc => cases hworks
  | @forked prog pid hpc hfresh =>
    simp only [hpc, PcOk] at hpcok
    obtain ⟨hlt, rfl, -⟩ := hpcok
    -- the parent's step, and no step of the child that it creates
    have hnone : s.children forked = none := by
      cases hc : s.children forked with
      | none => rfl
      | some c => exact absurd (h.child_lt hc) (Nat.lt_irrefl _)
    have hsum : ∑ k ∈ Finset.range cfg.num_test_progs, childWork (s.children k) =
        ∑ k ∈ Finset.range cfg.num_test_progs, childWork
          (Function.update s.children forked (some (.forked pid s.proc)) k) := by
      apply Finset.sum_congr rfl
      intro k _
      by_cases hk : k = forked
      · rw [hk, hnone, Function.update_self]
        rfl
      · rw [Function.update_of_ne hk]
    simp only [hpc, ParentPc.work, hsum]
    omega
  | @signal prog entries hpc hprog hentries =>
    simp only [hpc, PcOk] at hpcok
    -- a signal does not move the child that gets it
    have hsum : ∑ k ∈ Finset.range cfg.num_test_progs,
        childWork ((s.kill (entries prog)).children k) =
        ∑ k ∈ Finset.range cfg.num_test_progs, childWork (s.children k) := by
      apply Finset.sum_congr rfl
      intro k _
      show childWork ((s.children k).map _) = childWork (s.children k)
      cases s.children k with
      | none => rfl
      | some c =>
        show (if c.pid = entries prog then _ else c : Child).pc.work = c.pc.work
        split <;> rfl
    simp only [hpc, ParentPc.work, hsum]
    omega
  | launch hpc | block hpc | wake hpc | record hpc | launched hpc | signalled hpc =>
    simp only [hpc, PcOk] at hpcok
    simp only [hpc, ParentPc.work]
    omega

theorem Working.uses {l : Label} (h : Working cfg s forked taken released) (hworks : l.Works cfg)
    (hstep : step cfg s l = some s') :
    s.work cfg.num_test_progs = s'.work cfg.num_test_progs + 1 := by
  match l with
  | .parent act => exact h.orderly.progress.parent_work hworks (parentStep_of_step hstep)
  | .child prog act =>
    have hstep' := hstep
    unfold step at hstep'
    obtain ⟨c, hc, hstep'⟩ := Option.bind_eq_some_iff.mp hstep'
    obtain ⟨test_prog, hprog, hstep'⟩ := Option.bind_eq_some_iff.mp hstep'
    obtain ⟨c', hc', hstep'⟩ := Option.bind_eq_some_iff.mp hstep'
    have hone := step_child_work hc' (hworks.1 test_prog hprog)
    have hlt : prog < cfg.num_test_progs := (List.getElem?_eq_some_iff.mp hprog).1
    have hsum := sum_childWork_update (some c') hlt hc hone
    -- the parent does not move, whether or not it is sent the report
    have hs' : s'.pc = s.pc ∧ s'.children = Function.update s.children prog (some c') := by
      split at hstep' <;>
      · obtain rfl := Option.some.inj hstep'
        exact ⟨rfl, rfl⟩
    unfold State.work
    rw [hs'.1, hs'.2, hsum, Nat.add_assoc]

end uses

/-! ## Section 4: Some process can move -/

section enabled

variable {cfg : Config} {s : State} {forked taken released : ℕ}

/-- The step that a child is at. -/
def ChildPc.act : ChildPc → ChildAct
  | .cpu_alloc => .cpu_alloc true
  | .cpu_alloc_size => .cpu_alloc_size true
  | .check_cpu => .check_cpu
  | .setaffinity => .setaffinity true
  | .report => .kill true
  | .await_block => .block
  | .await => .sigwait
  | .exec | .executing | .returned _ => .exec true

/-- A child that has something to do moves, unless it waits for a signal that was
    not sent. -/
theorem child_moves (h : Progress cfg s forked taken released)
    (hcpus : ∀ test_prog ∈ cfg.test_progs, test_prog.target_cpu < cfg.num_cpus) {prog : ℕ}
    {c : Child} (hc : s.children prog = some c) (hwork : 0 < c.pc.work)
    (hsignal : c.pc = .await → c.proc.pending ≠ none) :
    ∃ l s', l.Works cfg ∧ step cfg s l = some s' := by
  have halive : c.proc.terminated = false := (h.children prog c hc).exact.alive
  have hlt : prog < cfg.num_test_progs := by
    have := h.child_lt hc
    have := h.counts
    omega
  have hprog : cfg.test_progs[prog]? = some cfg.test_progs[prog] := List.getElem?_eq_getElem hlt
  have hcpu := hcpus _ (List.getElem_mem hlt)
  -- its own step, at the place where it is
  obtain ⟨c', hc'⟩ : ∃ c', step_child cfg.test_progs[prog] cfg.num_cpus c c.pc.act = some c' := by
    unfold step_child
    rw [halive]
    cases hpc : c.pc with
    | await =>
      obtain ⟨a, ha⟩ := Option.ne_none_iff_exists'.mp (hsignal hpc)
      simp [ChildPc.act, Process.sigwait, ha]
    | executing | returned ret =>
      rw [hpc] at hwork
      exact absurd hwork (Nat.lt_irrefl 0)
    | cpu_alloc | cpu_alloc_size | check_cpu | setaffinity | report | await_block | exec =>
      simp [ChildPc.act]
  have hworks : (Label.child prog c.pc.act).Works cfg := by
    refine ⟨fun test_prog htest => ?_, ?_⟩
    · obtain rfl : cfg.test_progs[prog] = test_prog := Option.some.inj (hprog.symm.trans htest)
      cases c.pc <;> trivial
    · cases c.pc <;> simp [ChildPc.act]
  -- and so the step of the whole state, with or without the signal to the parent
  have hstep : (step cfg s (.child prog c.pc.act)).isSome = true := by
    simp only [step, hc, hprog, hc', Option.bind_eq_bind, Option.bind_some]
    split <;> rfl
  obtain ⟨s', hs'⟩ := Option.isSome_iff_exists.mp hstep
  exact ⟨.child prog c.pc.act, s', hworks, hs'⟩

/-- A pid that no child of this call has. -/
theorem exists_fresh (s : State) (prog : ℕ) :
    ∃ pid, 0 < pid ∧ ∀ k < prog, ∀ c ∈ s.children k, c.pid ≠ pid := by
  refine ⟨(Finset.range prog).sup (fun k => ((s.children k).map (·.pid)).getD 0) + 1,
    Nat.succ_pos _, ?_⟩
  intro k hk c hc heq
  have hle := Finset.le_sup (f := fun k => ((s.children k).map (·.pid)).getD 0)
    (Finset.mem_range.mpr hk)
  have hc : s.children k = some c := hc
  simp only [hc, Option.map_some, Option.getD_some] at hle
  omega

/-- While the parent has not returned, it moves, or the child whose report it
    waits for does. -/
theorem parent_moves (h : Working cfg s forked taken released)
    (hcpus : ∀ test_prog ∈ cfg.test_progs, test_prog.target_cpu < cfg.num_cpus)
    (hret : ∀ ret, s.pc ≠ .returned ret) : ∃ l s', l.Works cfg ∧ step cfg s l = some s' := by
  have hp := h.orderly.progress
  have hpcok := hp.pc
  have halive : s.proc.terminated = false := hp.exact.alive
  -- a step of the parent that is enabled
  have hmove : ∀ act s', (Label.parent act).Works cfg → step_parent cfg s act = some s' →
      ∃ l s', l.Works cfg ∧ step cfg s l = some s' :=
    fun act s' hworks hstep => ⟨.parent act, s', hworks, hstep⟩
  cases hpc : s.pc with
  | returned ret => exact absurd hpc (hret ret)
  | malloc =>
    exact hmove (.malloc true fun _ => 0) _ rfl (by simp only [step_parent, halive, hpc]; rfl)
  | launch prog =>
    by_cases hprog : prog < cfg.num_test_progs
    · exact hmove .block _ trivial (by simp only [step_parent, halive, hpc, if_pos hprog]; rfl)
    · exact hmove .leave _ trivial (by simp only [step_parent, halive, hpc, if_neg hprog]; rfl)
  | fork prog =>
    obtain ⟨pid, hfresh⟩ := exists_fresh s prog
    exact hmove (.fork (some pid)) _ (by simp [Label.Works, Label.Succeeds])
      (by simp only [step_parent, halive, hpc, if_pos hfresh]; rfl)
  | await_block prog pid =>
    exact hmove .block _ trivial (by simp only [step_parent, halive, hpc]; rfl)
  | record prog pid =>
    exact hmove .record _ trivial (by simp only [step_parent, halive, hpc]; rfl)
  | signal prog =>
    by_cases hprog : prog < cfg.num_test_progs
    · obtain ⟨entries, hentries⟩ := Option.ne_none_iff_exists'.mp (h.entries (by simp [hpc]))
      exact hmove (.kill true) _ rfl
        (by simp only [step_parent, halive, hpc, if_pos hprog, hentries]; rfl)
    · exact hmove .leave _ trivial (by simp only [step_parent, halive, hpc, if_neg hprog]; rfl)
  | await prog pid =>
    simp only [hpc, PcOk] at hpcok
    obtain ⟨hlt, hforked, htaken, -⟩ := hpcok
    cases hpend : s.proc.pending with
    | some a =>
      exact hmove .sigwait _ trivial
        (by simp only [step_parent, halive, hpc, Process.sigwait, hpend]; rfl)
    | none =>
      -- the report was not sent, so the child has yet to make it
      have hsome : (s.pids prog).isSome = true := (hp.pids.forked prog).mpr (by omega)
      obtain ⟨c, hc⟩ : ∃ c, s.children prog = some c := by
        simpa [State.pids, Option.isSome_iff_exists] using hsome
      have hearly : c.pc.early = true := by
        by_contra hlate
        have hsent := h.reported prog c hc (by simpa using hlate)
        rw [hp.exact.books, hp.reports, hpend] at hsent
        simp at hsent
        omega
      apply child_moves hp hcpus hc
      · cases hcpc : c.pc <;> simp_all [ChildPc.early, ChildPc.work]
      · intro hawait
        rw [hawait] at hearly
        cases hearly

/-- After the parent has returned, a child that is not executing moves. -/
theorem Working.child_released (h : Working cfg s forked taken released)
    (hret : s.pc = .returned true) :
    released = cfg.num_test_progs ∧ ∀ prog < cfg.num_test_progs, ∃ c, s.children prog = some c ∧
      c.pc.early = false ∧ (c.pc = .await → c.proc.pending ≠ none) := by
  have hp := h.orderly.progress
  have hreleased : released = cfg.num_test_progs := by
    rcases h.orderly.complete hret with hnone | hreleased
    · exact absurd hnone (h.entries (by simp [hret]))
    · exact hreleased
  refine ⟨hreleased, fun prog hprog => ?_⟩
  have hcounts := hp.counts
  have hsome : (s.pids prog).isSome = true := (hp.pids.forked prog).mpr (by omega)
  obtain ⟨c, hc⟩ : ∃ c, s.children prog = some c := by
    simpa [State.pids, Option.isSome_iff_exists] using hsome
  have hok := hp.children prog c hc
  refine ⟨c, hc, ?_, ?_⟩
  · -- its report was taken
    by_contra hearly
    apply hok.unreported (by simpa using hearly)
    rw [hp.exact.books, hp.reports]
    simp
    omega
  · intro hpc
    -- its release was sent, and it has taken nothing
    have hbooks := hok.exact.books
    rw [hok.sent, if_pos (by omega), hok.asleep (by simp [hpc, ChildPc.late])] at hbooks
    intro hnone
    rw [hnone] at hbooks
    cases hbooks

theorem Working.enabled (h : Working cfg s forked taken released)
    (hcpus : ∀ test_prog ∈ cfg.test_progs, test_prog.target_cpu < cfg.num_cpus)
    (hwork : 0 < s.work cfg.num_test_progs) : ∃ l s', l.Works cfg ∧ step cfg s l = some s' := by
  by_cases hret : ∀ ret, s.pc ≠ .returned ret
  · exact parent_moves h hcpus hret
  · push Not at hret
    obtain ⟨ret, hret⟩ := hret
    have hret : s.pc = .returned true := by
      cases ret with
      | true => exact hret
      | false => exact absurd hret h.orderly.not_false
    -- the parent is done, so some child is not
    have hsum : ∑ k ∈ Finset.range cfg.num_test_progs, childWork (s.children k) ≠ 0 := by
      unfold State.work at hwork
      rw [hret] at hwork
      simp only [ParentPc.work] at hwork
      omega
    obtain ⟨prog, hmem, hne⟩ := Finset.exists_ne_zero_of_sum_ne_zero hsum
    obtain ⟨c, hc, -, hsignal⟩ := (h.child_released hret).2 prog (Finset.mem_range.mp hmem)
    rw [hc] at hne
    exact child_moves h.orderly.progress hcpus hc (Nat.pos_of_ne_zero hne) hsignal

end enabled

/-! ## Section 5: Completion -/

theorem usesUp (cfg : Config)
    (hcpus : ∀ test_prog ∈ cfg.test_progs, test_prog.target_cpu < cfg.num_cpus) :
    UsesUp (run_benchmarks cfg) (Label.Works cfg)
      (fun s => ∃ forked taken released, Working cfg s forked taken released)
      (State.work cfg.num_test_progs) where
  keeps _ _ _ hs hworks hstep := working_step hs hworks hstep
  uses _ _ _ hs hworks hstep := by
    obtain ⟨forked, taken, released, hw⟩ := hs
    exact hw.uses hworks hstep
  enabled _ hs hwork := by
    obtain ⟨forked, taken, released, hw⟩ := hs
    exact hw.enabled hcpus hwork

theorem work_init {s : State} (h : Init s) (n : ℕ) : s.work n = 14 * n + 3 := by
  simp only [State.work, h.pc, ParentPc.work, h.children, childWork, Finset.sum_const,
    Finset.card_range, Nat.nsmul_eq_mul]
  omega

/-- Where nothing is left to do, everything was done. -/
theorem Working.finished {cfg : Config} {s : State} {forked taken released : ℕ}
    (h : Working cfg s forked taken released) (hzero : s.work cfg.num_test_progs = 0) :
    Finished cfg s := by
  have hp := h.orderly.progress
  unfold State.work at hzero
  have hpc : s.pc = .returned true := by
    have hpcok := hp.pc
    cases hs : s.pc with
    | returned ret =>
      cases ret with
      | true => rfl
      | false => exact absurd hs h.orderly.not_false
    | malloc | launch | fork | await_block | await | record | signal =>
      simp only [hs, PcOk] at hpcok
      simp only [hs, ParentPc.work] at hzero
      omega
  obtain ⟨hreleased, hchild⟩ := h.child_released hpc
  have hall : ∀ k ∈ Finset.range cfg.num_test_progs, childWork (s.children k) = 0 :=
    Finset.sum_eq_zero_iff.mp (by omega)
  refine ⟨hpc, ?_, ?_⟩
  · intro prog test_prog hprog
    have hlt : prog < cfg.num_test_progs := (List.getElem?_eq_some_iff.mp hprog).1
    obtain ⟨c, hc, -, -⟩ := hchild prog hlt
    have hexec : c.pc = .executing := by
      have hdone := hall prog (Finset.mem_range.mpr hlt)
      rw [hc] at hdone
      have hdone : c.pc.work = 0 := hdone
      cases hcpc : c.pc with
      | executing => rfl
      | returned ret => exact absurd hcpc (h.orderly.children prog c hc ret)
      | cpu_alloc | cpu_alloc_size | check_cpu | setaffinity | report | await_block | await
      | exec => simp [hcpc, ChildPc.work] at hdone
    refine ⟨c, hc, hexec, ?_⟩
    rw [(hp.children prog c hc).executed, if_pos hexec, hprog]
    rfl
  · -- the entries are the pids, up to the number of children
    obtain ⟨entries, hentries⟩ := Option.ne_none_iff_exists'.mp (h.entries (by simp [hpc]))
    obtain ⟨hnum, hrec⟩ := hp.pids.entries (by simp [hpc]) entries hentries
    have hcounts := hp.counts
    unfold State.awaited
    rw [hentries, hnum]
    simp only [List.map_map]
    apply List.map_congr_left
    intro k hk
    have hk : k < cfg.num_test_progs := List.mem_range.mp hk
    exact (hrec k (by simp only [hpc, ParentPc.recorded]; omega)).symm

/-- **Every call without failures ends with all test programs running.**  On a
    machine that has the cores, from the call on and in every interleaving in
    which no call fails, `n` programs take no more than `14 * n + 3` steps; the
    run can always be prolonged to just that many; and no process can move
    exactly if that many were made, and then the parent has returned, every child
    executes its own program, and the entries that `wait_benchmarks` waits for are
    the pids of the children, in order. -/
theorem run_benchmarks_completes (cfg : Config) (s₀ s : State) (labels : List Label)
    (hcpus : ∀ test_prog ∈ cfg.test_progs, test_prog.target_cpu < cfg.num_cpus)
    (hinit : Init s₀) (hworks : ∀ l ∈ labels, l.Works cfg)
    (hrun : (run_benchmarks cfg).run s₀ labels = some s) :
    labels.length ≤ 14 * cfg.num_test_progs + 3 ∧
    (∃ rest s', (∀ l ∈ rest, l.Works cfg) ∧ (run_benchmarks cfg).run s rest = some s' ∧
      labels.length + rest.length = 14 * cfg.num_test_progs + 3 ∧ Finished cfg s') ∧
    ((∀ l, l.Works cfg → step cfg s l = none) ↔
      labels.length = 14 * cfg.num_test_progs + 3) ∧
    (labels.length = 14 * cfg.num_test_progs + 3 → Finished cfg s) := by
  have huses := usesUp cfg hcpus
  obtain ⟨hs, hlen⟩ := huses.work_run (working_init hinit) hworks hrun
  rw [work_init hinit] at hlen
  refine ⟨by omega, ?_, ?_, ?_⟩
  · obtain ⟨rest, s', hall, hrest, hzero, hrestlen⟩ := huses.complete hs
    obtain ⟨forked, taken, released, hw⟩ := (huses.work_run hs hall hrest).1
    exact ⟨rest, s', hall, hrest, by omega, hw.finished hzero⟩
  · have hstuck := huses.stuck_iff hs
    show (∀ l, l.Works cfg → (run_benchmarks cfg).step s l = none) ↔ _
    rw [hstuck]
    omega
  · intro hfull
    obtain ⟨forked, taken, released, hw⟩ := hs
    exact hw.finished (by omega)

/-- Two programs on two cores, up to the report of the first child. -/
theorem run_benchmarks_completes_two : ∃ s,
    (run_benchmarks ⟨[⟨["a"], 0⟩, ⟨["b"], 1⟩], 2⟩).run State.fresh
      ([.parent (.malloc true fun _ => 7)] ++ launching 0 100) = some s ∧
    ∃ rest s', (∀ l ∈ rest, l.Works ⟨[⟨["a"], 0⟩, ⟨["b"], 1⟩], 2⟩) ∧
      (run_benchmarks ⟨[⟨["a"], 0⟩, ⟨["b"], 1⟩], 2⟩).run s rest = some s' ∧
      12 + rest.length = 31 ∧ Finished ⟨[⟨["a"], 0⟩, ⟨["b"], 1⟩], 2⟩ s' := by
  let cfg : Config := ⟨[⟨["a"], 0⟩, ⟨["b"], 1⟩], 2⟩
  let labels : List Label := [.parent (.malloc true fun _ => 7)] ++ launching 0 100
  have hsome : ((run_benchmarks cfg).run State.fresh labels).isSome = true := by rfl
  obtain ⟨s, hrun⟩ := Option.isSome_iff_exists.mp hsome
  have hworks : ∀ l ∈ labels, l.Works cfg := by
    simp [labels, launching, cfg, Label.Works, Label.Succeeds, ChildAct.Succeeds]
  exact ⟨s, hrun, (run_benchmarks_completes cfg State.fresh s labels (by simp [cfg]) init_fresh
    hworks hrun).2.1⟩

end BenchCommands
