import Catbench.BenchCommands.Barrier

/-! # The failure discipline of `run_benchmarks`

    The callers ignore the result of `run_benchmarks` and go on to
    `wait_benchmarks`, which waits for all `num_childpids` entries.  This is in
    order as long as only the calling process returns, and every entry is the
    pid of a child of this call that was released.

    Every failure but three breaks one of the two at once: a child that fails
    jumps to `cleanup` and returns as a second copy of the caller; a failed
    `fork` or a failed release leaves entries that are unassigned, or whose
    child still waits to be released.  The exceptions are a failed `malloc`,
    after which there are no entries, and a child's failed report, after which
    the parent never returns.
-/

open Signal LTS

namespace BenchCommands

/-! ## Section 1: Specification -/

/-- Only the parent returns, and whenever it did, every entry that
    `wait_benchmarks` will wait for is the pid of a child forked in this call
    that has been sent `SIG_EXEC_TEST_PROG`. -/
def Disciplined (s : State) : Prop :=
  (∀ prog c, s.children prog = some c → ∀ ret, c.pc ≠ .returned ret) ∧
  ∀ ret, s.pc = .returned ret → ∀ pid ∈ s.awaited,
    ∃ prog c, s.children prog = some c ∧ c.pid = pid ∧ .parent ∈ c.proc.sent

/-- None of the calls that lead to an error branch fails. -/
def Label.Succeeds (cfg : Config) : Label → Prop
  | .parent (.fork res) => res ≠ none
  | .parent (.kill ok) => ok = true
  | .parent _ => True
  | .child prog act => ∀ test_prog ∈ cfg.test_progs[prog]?, act.Succeeds test_prog cfg.num_cpus

/-- What holds as long as nothing failed. -/
structure Orderly (cfg : Config) (s : State) (forked taken released : ℕ) : Prop where
  progress : Progress cfg s forked taken released
  children : ∀ prog c, s.children prog = some c → ∀ ret, c.pc ≠ .returned ret
  allocated : s.pc ≠ .malloc → (∀ ret, s.pc ≠ .returned ret) → s.childpids ≠ none
  not_false : s.pc ≠ .returned false
  complete : s.pc = .returned true → s.childpids = none ∨ released = cfg.num_test_progs

/-! ## Section 2: Steps -/

section steps

variable {cfg : Config} {s s' : State} {forked taken released : ℕ}

/-- The parent's steps leave each child where it is, and start new ones. -/
theorem ParentStep.child_pc {act : ParentAct} (h : ParentStep cfg s act s') {prog : ℕ} {d : Child}
    (hd : s'.children prog = some d) :
    d.pc = .cpu_alloc ∨ ∃ c, s.children prog = some c ∧ d.pc = c.pc := by
  cases h with
  | @forked k pid hpc hfresh =>
    by_cases hk : prog = k
    · subst hk
      obtain rfl : Child.forked pid s.proc = d := by simpa using hd
      exact .inl rfl
    · exact .inr ⟨d, by simpa [hk] using hd, rfl⟩
  | signal hpc hprog hentries =>
    obtain ⟨c, hc, rfl⟩ := Option.map_eq_some_iff.mp hd
    refine .inr ⟨c, hc, ?_⟩
    split <;> rfl
  | allocated | unallocated | launch | unforked | block | wake | record | launched | unsignalled
  | signalled => exact .inr ⟨d, hd, rfl⟩

/-- A child returns exactly when its call fails. -/
theorem ChildStep.returned_iff {test_prog : test_prog_t} {num_cpus : ℤ} {c c' : Child}
    {act : ChildAct} (h : ChildStep test_prog num_cpus c act c') :
    (∃ ret, c'.pc = .returned ret) ↔ ¬act.Succeeds test_prog num_cpus := by
  cases h with
  | @advance act pc _ hpc' _ hok =>
    refine ⟨?_, fun hfail => absurd hok hfail⟩
    rintro ⟨ret, rfl⟩
    cases hpc'
  | fail _ _ hfail => exact ⟨fun _ => hfail, fun _ => ⟨false, rfl⟩⟩
  | report | block | wake | exec => simp [ChildAct.Succeeds]

theorem ParentStep.allocated_of {act : ParentAct} (h : ParentStep cfg s act s')
    (halloc : s.pc ≠ .malloc → (∀ ret, s.pc ≠ .returned ret) → s.childpids ≠ none) :
    s'.pc ≠ .malloc → (∀ ret, s'.pc ≠ .returned ret) → s'.childpids ≠ none := by
  intro _ hret
  cases h with
  | allocated hpc => simp
  | unallocated | unforked | unsignalled | signalled => simp at hret
  | launch hpc | forked hpc | block hpc | wake hpc | launched hpc | signal hpc =>
    exact halloc (by simp [hpc]) (by simp [hpc])
  | record hpc => simpa using halloc (by simp [hpc]) (by simp [hpc])

theorem orderly_init (h : Init s) : ∃ forked taken released,
    Orderly cfg s forked taken released := by
  obtain ⟨forked, taken, released, hp⟩ : Inv cfg s := inv_init h
  exact ⟨forked, taken, released, hp, by simp [h.children], fun hne => absurd h.pc hne,
    by simp [h.pc], by simp [h.pc]⟩

theorem Orderly.step_parent {act : ParentAct} (h : Orderly cfg s forked taken released)
    (hok : (Label.parent act).Succeeds cfg) (hstep : ParentStep cfg s act s') :
    ∃ forked' taken' released', Orderly cfg s' forked' taken' released' := by
  obtain ⟨forked', taken', released', hp, hcomplete⟩ := h.progress.step_parent hstep
  refine ⟨forked', taken', released', hp, ?_, hstep.allocated_of h.allocated, ?_, hcomplete⟩
  · intro prog d hd ret
    rcases hstep.child_pc hd with hpc | ⟨c, hc, hpc⟩
    · simp [hpc]
    · rw [hpc]; exact h.children prog c hc ret
  · cases hstep with
    | unforked | unsignalled => simp [Label.Succeeds] at hok
    | allocated | unallocated | launch | forked | block | wake | record | launched | signal
    | signalled => simp

theorem Orderly.step_child {prog : ℕ} {act : ChildAct} (h : Orderly cfg s forked taken released)
    (hok : (Label.child prog act).Succeeds cfg)
    (hstep : step cfg s (.child prog act) = some s') :
    Orderly cfg s' forked taken released := by
  have hp := h.progress.step_child hstep
  obtain ⟨c, c', test_prog, hc, hprog, hcs, rfl⟩ := step_child_eq_some hstep
  refine ⟨hp, ?_, h.allocated, h.not_false, h.complete⟩
  intro k d hd ret
  by_cases hk : k = prog
  · subst hk
    obtain rfl : c' = d := by simpa using hd
    exact fun hret => hcs.returned_iff.mp ⟨ret, hret⟩ (hok test_prog hprog)
  · exact h.children k d (by simpa [hk] using hd) ret

theorem orderly_step {l : Label} (h : ∃ forked taken released, Orderly cfg s forked taken released)
    (hok : l.Succeeds cfg) (hstep : step cfg s l = some s') :
    ∃ forked taken released, Orderly cfg s' forked taken released := by
  obtain ⟨forked, taken, released, ho⟩ := h
  match l with
  | .parent act => exact ho.step_parent hok (parentStep_of_step hstep)
  | .child prog act => exact ⟨forked, taken, released, ho.step_child hok hstep⟩

end steps

/-! ## Section 3: Safety, and what each failure does -/

section safety

variable {cfg : Config} {s s' : State} {forked taken released : ℕ}

/-- When the parent returned in order, everyone was released. -/
theorem Orderly.disciplined (h : Orderly cfg s forked taken released) : Disciplined s := by
  refine ⟨h.children, fun ret hpc pid hpid => ?_⟩
  obtain rfl : ret = true := by
    cases ret with
    | false => exact absurd hpc h.not_false
    | true => rfl
  unfold State.awaited at hpid
  cases hentries : s.childpids with
  | none => simp [hentries] at hpid
  | some entries =>
    rw [hentries] at hpid
    obtain ⟨prog, hprog, rfl⟩ := List.mem_map.mp hpid
    obtain ⟨hnum, hrec⟩ := h.progress.pids.entries (by simp [hpc]) entries hentries
    rw [List.mem_range, hnum] at hprog
    have hrel : released = cfg.num_test_progs := by
      rcases h.complete hpc with hnone | hrel
      · simp [hentries] at hnone
      · exact hrel
    have htaken := h.progress.counts.2.2.2.2 (by omega)
    have hentry := hrec prog (by simpa [hpc, ParentPc.recorded, htaken] using hprog)
    obtain ⟨c, hc, hcpid⟩ := Option.map_eq_some_iff.mp hentry
    refine ⟨prog, c, hc, hcpid, ?_⟩
    rw [(h.progress.children prog c hc).sent, if_pos (by omega)]
    simp

/-- A failed `fork` leaves the parent with entries of children it has not
    released, and with entries it has not assigned. -/
theorem Orderly.not_disciplined_of_fork (h : Orderly cfg s forked taken released) {prog : ℕ}
    (hpc : s.pc = .fork prog) : ¬Disciplined { s with pc := .returned false } := by
  intro hd
  have hpcok := h.progress.pc
  simp only [hpc, PcOk] at hpcok
  obtain ⟨hlt, -, -, hreleased⟩ := hpcok
  obtain ⟨entries, hentries⟩ :=
    Option.ne_none_iff_exists'.mp (h.allocated (by simp [hpc]) (by simp [hpc]))
  have hnum := (h.progress.pids.entries (by simp [hpc]) entries hentries).1
  obtain ⟨k, c, hc, -, hsent⟩ := hd.2 false rfl (entries 0) (by
    simp only [State.awaited, hentries]
    exact List.mem_map.mpr ⟨0, by simp [hnum]; omega, rfl⟩)
  rw [(h.progress.children k c hc).sent, hreleased] at hsent
  simp at hsent

/-- A failed release leaves an entry whose child was not released. -/
theorem Orderly.not_disciplined_of_kill (h : Orderly cfg s forked taken released) {prog : ℕ}
    (hpc : s.pc = .signal prog) (hprog : prog < cfg.num_test_progs) :
    ¬Disciplined { s with pc := .returned false } := by
  intro hd
  have hpcok := h.progress.pc
  simp only [hpc, PcOk] at hpcok
  obtain ⟨-, -, htaken, hreleased⟩ := hpcok
  obtain ⟨entries, hentries⟩ :=
    Option.ne_none_iff_exists'.mp (h.allocated (by simp [hpc]) (by simp [hpc]))
  obtain ⟨hnum, hrec⟩ := h.progress.pids.entries (by simp [hpc]) entries hentries
  have hentry := hrec prog (by simp [hpc, ParentPc.recorded]; omega)
  obtain ⟨k, c, hc, hcpid, hsent⟩ := hd.2 false rfl (entries prog) (by
    simp only [State.awaited, hentries]
    exact List.mem_map.mpr ⟨prog, by simp [hnum]; omega, rfl⟩)
  -- The pid belongs to the child of `prog` alone.
  obtain rfl : k = prog := by
    refine h.progress.pids.inj k prog (entries prog) ?_ hentry
    have hc : s.children k = some c := hc
    simp [State.pids, hc, hcpid]
  rw [(h.progress.children k c hc).sent, hreleased] at hsent
  simp at hsent

/-- Every failing call leads out of the discipline at once. -/
theorem not_disciplined_of_failure {l : Label}
    (h : ∃ forked taken released, Orderly cfg s forked taken released)
    (hfail : ¬l.Succeeds cfg) (hstep : step cfg s l = some s') : ¬Disciplined s' := by
  obtain ⟨forked, taken, released, ho⟩ := h
  match l with
  | .parent act =>
    cases parentStep_of_step hstep with
    | unforked hpc => exact ho.not_disciplined_of_fork hpc
    | unsignalled hpc hprog => exact ho.not_disciplined_of_kill hpc hprog
    | allocated | unallocated | launch | forked | block | wake | record | launched | signal
    | signalled => simp [Label.Succeeds] at hfail
  | .child prog act =>
    obtain ⟨c, c', test_prog, hc, hprog, hcs, rfl⟩ := step_child_eq_some hstep
    have hfail : ¬act.Succeeds test_prog cfg.num_cpus := by
      intro hok
      refine hfail fun q hq => ?_
      obtain rfl : test_prog = q := Option.some.inj (hprog.symm.trans hq)
      exact hok
    obtain ⟨ret, hret⟩ := hcs.returned_iff.mpr hfail
    exact fun hd => hd.1 prog c' (by simp) ret hret

end safety

/-! ## Section 4: Main theorem -/

/-- A run is disciplined in all its states exactly if no call that leads to an
    error branch fails in it. -/
theorem disciplined_iff (cfg : Config) (s₀ s : State) (labels : List Label) (hinit : Init s₀)
    (hrun : (run_benchmarks cfg).run s₀ labels = some s) :
    (∀ front, front <+: labels → ∀ t, (run_benchmarks cfg).run s₀ front = some t →
        Disciplined t) ↔
      ∀ l ∈ labels, l.Succeeds cfg :=
  run_safe_iff
    (fun _ _ _ ho hok hstep => orderly_step ho hok hstep)
    (fun _ ho => by obtain ⟨_, _, _, ho⟩ := ho; exact ho.disciplined)
    (fun _ _ _ ho hfail hstep => not_disciplined_of_failure ho hfail hstep)
    (orderly_init hinit) hrun

/-- One program, from the call to its execution. -/
def oneLaunch : List Label :=
  [.parent (.malloc true fun _ => 7)] ++ launching 0 100 ++
    [.parent .leave, .parent (.kill true), .parent .leave, .child 0 .sigwait,
      .child 0 (.exec true)]

theorem disciplined_one : ∃ s, (run_benchmarks ⟨[⟨["a"], 0⟩], 2⟩).run State.fresh oneLaunch = some s ∧
    ∀ front, front <+: oneLaunch →
      ∀ t, (run_benchmarks ⟨[⟨["a"], 0⟩], 2⟩).run State.fresh front = some t → Disciplined t := by
  have hsome : ((run_benchmarks ⟨[⟨["a"], 0⟩], 2⟩).run State.fresh oneLaunch).isSome = true := by rfl
  obtain ⟨s, hs⟩ := Option.isSome_iff_exists.mp hsome
  refine ⟨s, hs, (disciplined_iff _ _ s _ init_fresh hs).mpr ?_⟩
  simp [oneLaunch, launching, Label.Succeeds, ChildAct.Succeeds]

/-- A program meant for a core that the machine does not have: its child returns
    from the call as a second copy of the caller. -/
theorem disciplined_invalid_cpu :
    ¬∀ s, (run_benchmarks ⟨[⟨["a"], 8⟩], 4⟩).Reachable (fun _ => True) s → Disciplined s := by
  intro hall
  let labels : List Label := [.parent (.malloc true fun _ => 7), .parent .block,
    .parent (.fork (some 100)), .child 0 (.cpu_alloc true), .child 0 (.cpu_alloc_size true),
    .child 0 .check_cpu]
  have hpc : ((run_benchmarks ⟨[⟨["a"], 8⟩], 4⟩).run State.fresh labels).bind (fun s =>
      (s.children 0).map (·.pc)) = some (.returned false) := by rfl
  obtain ⟨s, hrun, hs⟩ := Option.bind_eq_some_iff.mp hpc
  obtain ⟨c, hc, hret⟩ := Option.map_eq_some_iff.mp hs
  exact (hall s ⟨State.fresh, labels, init_fresh, by simp, hrun⟩).1 0 c hc false hret

end BenchCommands
