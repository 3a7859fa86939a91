import Catbench.BenchCommands.Model

/-! # The start barrier of `run_benchmarks`

    The invariant counts: `forked` children exist, the reports of the first
    `taken` of them were consumed, the first `released` of them were sent
    `SIG_EXEC_TEST_PROG`.  The parent takes the report of each child before it
    forks the next, so at most one report is ever outstanding, and it releases
    nobody before it took all reports.

    Theorem: in every interleaving, and whatever calls fail, no child executes
    its program before every report was consumed, no child executes it twice,
    and no signal is merged, lost or consumed by another process.
-/

open Signal LTS

namespace BenchCommands

/-! ## Section 1: Invariant -/

/-- The child has consumed a signal, or given up. -/
def ChildPc.late : ChildPc → Bool
  | .exec | .executing | .returned _ => true
  | _ => false

/-- What holds of the child forked for `prog`. -/
structure ChildOk (cfg : Config) (parent : Process Sender) (released prog : ℕ) (c : Child) :
    Prop where
  blocked : c.proc.blocked = true
  exact : c.proc.Exact
  sent : c.proc.sent = if prog < released then [.parent] else []
  unreported : c.pc.early = true → .child prog ∉ parent.sent
  asleep : c.pc.late = false → c.proc.taken = []
  woken : c.pc = .exec ∨ c.pc = .executing → c.proc.taken = [.parent]
  executed : c.executed =
    if c.pc = .executing then (cfg.test_progs[prog]?.map (·.cmdline)).toList else []

/-- Where the parent is, by the three counts. -/
def PcOk (n : ℕ) : ParentPc → ℕ → ℕ → ℕ → Prop
  | .malloc, forked, taken, released => forked = 0 ∧ taken = 0 ∧ released = 0
  | .launch prog, forked, taken, released =>
    prog ≤ n ∧ forked = prog ∧ taken = prog ∧ released = 0
  | .fork prog, forked, taken, released =>
    prog < n ∧ forked = prog ∧ taken = prog ∧ released = 0
  | .await_block prog _, forked, taken, released | .await prog _, forked, taken, released =>
    prog < n ∧ forked = prog + 1 ∧ taken = prog ∧ released = 0
  | .record prog _, forked, taken, released =>
    prog < n ∧ forked = prog + 1 ∧ taken = prog + 1 ∧ released = 0
  | .signal prog, forked, taken, released =>
    prog ≤ n ∧ forked = n ∧ taken = n ∧ released = prog
  | .returned _, forked, taken, released =>
    taken ≤ forked ∧ forked ≤ taken + 1 ∧ forked ≤ n ∧ released ≤ n ∧ (0 < released → taken = n)

/-- How many entries of `childpids` are assigned. -/
def ParentPc.recorded (taken : ℕ) : ParentPc → ℕ
  | .record _ _ => taken - 1
  | _ => taken

/-- The pid that the parent holds in its local variable. -/
def ParentPc.current : ParentPc → Option (ℕ × ℕ)
  | .await_block prog pid | .await prog pid | .record prog pid => some (prog, pid)
  | _ => none

/-- The pids of the children forked in this call. -/
def State.pids (s : State) (prog : ℕ) : Option ℕ := (s.children prog).map (·.pid)

/-- What holds of the pids. -/
structure PidsOk (n : ℕ) (s : State) (forked taken : ℕ) : Prop where
  forked : ∀ prog, (s.pids prog).isSome = true ↔ prog < forked
  inj : ∀ i j pid, s.pids i = some pid → s.pids j = some pid → i = j
  current : ∀ x ∈ s.pc.current, s.pids x.1 = some x.2
  entries : s.pc ≠ .malloc → ∀ entries, s.childpids = some entries →
    s.num_childpids = n ∧ ∀ prog < s.pc.recorded taken, s.pids prog = some (entries prog)

/-- The invariant of `run_benchmarks`. -/
structure Progress (cfg : Config) (s : State) (forked taken released : ℕ) : Prop where
  pc : PcOk cfg.num_test_progs s.pc forked taken released
  pids : PidsOk cfg.num_test_progs s forked taken
  exact : s.proc.Exact
  blocked : s.proc.blocked = true ∨ (forked = 0 ∧ ∀ prog, s.pc ≠ .fork prog)
  reports : s.proc.taken = (List.range taken).map .child
  pending : ∀ a ∈ s.proc.pending, a = .child taken ∧ taken < forked
  children : ∀ prog c, s.children prog = some c → ChildOk cfg s.proc released prog c

def Inv (cfg : Config) (s : State) : Prop :=
  ∃ forked taken released, Progress cfg s forked taken released

/-! ## Section 2: Children -/

section children

variable {cfg : Config} {parent : Process Sender} {released prog : ℕ} {c c' : Child}
  {test_prog : test_prog_t} {num_cpus : ℤ} {act : ChildAct}

theorem ChildStep.pid_eq (h : ChildStep test_prog num_cpus c act c') : c'.pid = c.pid := by
  cases h <;> rfl

/-- A child that waits takes the parent's signal and no other. -/
theorem ChildOk.taken_of_sigwait {proc : Process Sender} (h : ChildOk cfg parent released prog c)
    (hpc : c.pc = .await) (hproc : c.proc.sigwait = some proc) : proc.taken = [.parent] := by
  obtain ⟨a, ha, rfl⟩ := Process.sigwait_eq_some.mp hproc
  have htaken := h.asleep (by simp [hpc, ChildPc.late])
  have hbooks := h.exact.books
  rw [h.sent, htaken, ha] at hbooks
  by_cases hrel : prog < released
  · simp [hrel] at hbooks
    simp [htaken, ← hbooks]
  · simp [hrel] at hbooks

theorem ChildOk.unexecuted (h : ChildOk cfg parent released prog c) (hpc : c.pc ≠ .executing) :
    c.executed = [] := by
  rw [h.executed, if_neg hpc]

theorem ChildPc.not_late_of_early {pc : ChildPc} (h : pc.early = true) :
    pc.late = false ∧ pc ≠ .exec ∧ pc ≠ .executing := by
  cases pc <;> simp_all [ChildPc.early, ChildPc.late]

/-- A child's own step. -/
theorem ChildOk.step (h : ChildOk cfg parent released prog c)
    (hprog : cfg.test_progs[prog]? = some test_prog)
    (hstep : ChildStep test_prog num_cpus c act c') :
    ChildOk cfg (if act = .kill true then parent.kill (.child prog) else parent) released prog
      c' := by
  cases hstep with
  | advance hpc hpc' hact hok =>
    rw [if_neg hact]
    have hexec := h.unexecuted (ChildPc.not_late_of_early hpc).2.2
    obtain ⟨-, hne⟩ := ChildPc.not_late_of_early hpc'
    exact ⟨h.blocked, h.exact, h.sent, fun _ => h.unreported hpc,
      fun _ => h.asleep (ChildPc.not_late_of_early hpc).1,
      fun hq => absurd hq (not_or.mpr hne), by simp [hexec, hne.2]⟩
  | fail hpc hact hok =>
    rw [if_neg hact]
    have hne : c.pc ≠ .executing := by
      rcases hpc with hpc | hpc
      · exact (ChildPc.not_late_of_early hpc).2.2
      · simp [hpc]
    exact ⟨h.blocked, h.exact, h.sent, by simp [ChildPc.early], by simp [ChildPc.late], by simp,
      by simp [h.unexecuted hne]⟩
  | report hpc =>
    exact ⟨h.blocked, h.exact, h.sent, by simp [ChildPc.early],
      fun _ => h.asleep (by simp [hpc, ChildPc.late]), by simp,
      by simp [h.unexecuted (by simp [hpc])]⟩
  | block hpc =>
    exact ⟨rfl, h.exact.block, h.sent, by simp [ChildPc.early],
      fun _ => h.asleep (by simp [hpc, ChildPc.late]), by simp,
      by simp [h.unexecuted (by simp [hpc])]⟩
  | wake hpc hproc =>
    have htaken := h.taken_of_sigwait hpc hproc
    have hexact := h.exact.sigwait hproc
    obtain ⟨a, ha, rfl⟩ := Process.sigwait_eq_some.mp hproc
    exact ⟨h.blocked, hexact, h.sent, by simp [ChildPc.early], by simp [ChildPc.late],
      fun _ => htaken, by simp [h.unexecuted (by simp [hpc])]⟩
  | exec hpc =>
    exact ⟨h.blocked, h.exact, h.sent, by simp [ChildPc.early], by simp [ChildPc.late],
      fun _ => h.woken (.inl hpc), by simp [h.unexecuted (by simp [hpc]), hprog]⟩

/-- Only the child's own report and the parent's release matter to it. -/
theorem ChildOk.congr {parent' : Process Sender} (h : ChildOk cfg parent released prog c)
    (hsent : .child prog ∈ parent'.sent → .child prog ∈ parent.sent) :
    ChildOk cfg parent' released prog c :=
  { h with unreported := fun hpc hmem => h.unreported hpc (hsent hmem) }

end children

/-! ## Section 3: Steps of the children -/

namespace Progress

variable {cfg : Config} {s s' : State} {forked taken released : ℕ}

/-- The counts never run ahead of each other by more than one. -/
theorem counts (h : Progress cfg s forked taken released) :
    taken ≤ forked ∧ forked ≤ taken + 1 ∧ forked ≤ cfg.num_test_progs ∧
      released ≤ cfg.num_test_progs ∧ (0 < released → taken = cfg.num_test_progs) := by
  have hpc := h.pc
  cases hs : s.pc <;> simp only [hs, PcOk] at hpc <;> omega

theorem child_lt (h : Progress cfg s forked taken released) {prog : ℕ} {c : Child}
    (hc : s.children prog = some c) : prog < forked :=
  (h.pids.forked prog).mp (by simp [State.pids, hc])

/-- A child that has yet to report is the one the parent waits for, and nothing
    is pending for the parent. -/
theorem outstanding (h : Progress cfg s forked taken released) {prog : ℕ} {c : Child}
    (hc : s.children prog = some c) (hpc : c.pc.early = true) :
    prog = taken ∧ s.proc.pending = none := by
  have hun := (h.children prog c hc).unreported hpc
  have hbooks := h.exact.books
  have hprog : prog = taken := by
    by_contra hne
    have hlt : prog < taken := by
      have := h.child_lt hc
      have := h.counts
      omega
    refine hun ?_
    rw [hbooks, h.reports]
    simp [hlt]
  refine ⟨hprog, ?_⟩
  by_contra hsome
  obtain ⟨a, ha⟩ := Option.ne_none_iff_exists'.mp hsome
  have hchild := (h.pending a ha).1
  refine hun ?_
  rw [hbooks, ha]
  simp [hchild, hprog]

theorem blocked_of_forked (h : Progress cfg s forked taken released) (hf : 0 < forked) :
    s.proc.blocked = true := by
  rcases h.blocked with hb | ⟨hzero, -⟩
  · exact hb
  · omega

theorem step_child (h : Progress cfg s forked taken released) {prog : ℕ} {act : ChildAct}
    (hstep : step cfg s (.child prog act) = some s') :
    Progress cfg s' forked taken released := by
  obtain ⟨c, c', test_prog, hc, hprog, hcs, rfl⟩ := step_child_eq_some hstep
  have hf := h.child_lt hc
  have hpids : ∀ (proc : Process Sender), State.pids { s with
      children := Function.update s.children prog (some c'), proc } = s.pids := by
    intro proc
    funext k
    by_cases hk : k = prog
    · subst hk; simp [State.pids, hc, hcs.pid_eq]
    · simp [State.pids, hk]
  have hok := (h.children prog c hc).step hprog hcs
  -- Only the report touches the parent's side.
  have hparent : ∀ proc : Process Sender, proc.Exact → proc.blocked = true →
      proc.taken = s.proc.taken → (∀ a ∈ proc.pending, a = .child taken ∧ taken < forked) →
      (∀ k ≠ prog, .child k ∈ proc.sent → .child k ∈ s.proc.sent) →
      ChildOk cfg proc released prog c' →
      Progress cfg { s with children := Function.update s.children prog (some c'), proc }
        forked taken released := by
    intro proc hexact hb htaken hpend hsent hok
    refine ⟨h.pc, ?_, hexact, .inl hb, htaken.trans h.reports, hpend, ?_⟩
    · have hp := h.pids
      exact ⟨by rw [hpids]; exact hp.forked, by rw [hpids]; exact hp.inj,
        by rw [hpids]; exact hp.current, by rw [hpids]; exact hp.entries⟩
    · intro k d hd
      by_cases hk : k = prog
      · subst hk
        obtain rfl : c' = d := by simpa using hd
        exact hok
      · have hd : s.children k = some d := by simpa [hk] using hd
        exact (h.children k d hd).congr (hsent k hk)
  have hb := h.blocked_of_forked (by omega)
  by_cases hact : act = .kill true
  · simp only [if_pos hact] at hok ⊢
    have hpc : c.pc = .report := by
      cases hcs with
      | advance _ _ hne _ => exact absurd hact hne
      | fail _ hne _ => exact absurd hact hne
      | report hpc => exact hpc
      | block | wake | exec => simp at hact
    obtain ⟨rfl, hnone⟩ := h.outstanding hc (by simp [hpc, ChildPc.early])
    refine hparent _ (h.exact.kill hb _ hnone) (by simpa using hb) (by simp) ?_ ?_ hok
    · rw [Process.Exact.kill_eq hb _ hnone]
      simpa using hf
    · intro k hk hmem
      simpa [hk] using hmem
  · simp only [if_neg hact] at hok ⊢
    exact hparent _ h.exact hb rfl h.pending (fun _ _ hmem => hmem) hok

end Progress

/-! ## Section 4: Steps of the parent -/

/-- A step that forks nobody and assigns no entry. -/
theorem PidsOk.move {n : ℕ} {s s' : State} {forked taken taken' : ℕ}
    (h : PidsOk n s forked taken) (hmalloc : s.pc ≠ .malloc) (hpids : s'.pids = s.pids)
    (hchildpids : s'.childpids = s.childpids) (hnum : s'.num_childpids = s.num_childpids)
    (hcurrent : ∀ x ∈ s'.pc.current, x ∈ s.pc.current)
    (hrecorded : s'.pc.recorded taken' ≤ s.pc.recorded taken) : PidsOk n s' forked taken' := by
  refine ⟨by rw [hpids]; exact h.forked, by rw [hpids]; exact h.inj, ?_, ?_⟩
  · intro x hx
    rw [hpids]
    exact h.current x (hcurrent x hx)
  · intro _ entries hentries
    obtain ⟨hn, hrec⟩ := h.entries hmalloc entries (hchildpids ▸ hentries)
    rw [hnum, hpids]
    exact ⟨hn, fun k hk => hrec k (by omega)⟩

/-- The child of the next iteration joins. -/
theorem PidsOk.fork {n : ℕ} {s : State} {prog pid : ℕ} {c : Child} (h : PidsOk n s prog prog)
    (hpc : s.pc = .fork prog) (hfresh : ∀ k < prog, ∀ c ∈ s.children k, c.pid ≠ pid)
    (hc : c.pid = pid) :
    PidsOk n { s with
      pc := .await_block prog pid
      children := Function.update s.children prog (some c) } (prog + 1) prog := by
  have hself : State.pids { s with
      pc := .await_block prog pid
      children := Function.update s.children prog (some c) } prog = some pid := by
    simp [State.pids, hc]
  have hother : ∀ k ≠ prog, State.pids { s with
      pc := .await_block prog pid
      children := Function.update s.children prog (some c) } k = s.pids k := by
    intro k hk
    simp [State.pids, hk]
  -- An older child cannot have the new pid.
  have hne : ∀ k, s.pids k ≠ some pid := by
    intro k hk
    have hlt : k < prog := (h.forked k).mp (by simp [hk])
    obtain ⟨d, hd, hdpid⟩ := Option.map_eq_some_iff.mp hk
    exact hfresh k hlt d hd hdpid
  refine ⟨?_, ?_, ?_, ?_⟩
  · intro k
    by_cases hk : k = prog
    · subst hk; simp [hself]
    · rw [hother k hk, h.forked k]; omega
  · intro i j p hi hj
    by_cases hip : i = prog
    · by_cases hjp : j = prog
      · omega
      · rw [hother j hjp] at hj
        rw [hip, hself] at hi
        exact absurd (hj.trans hi.symm) (hne j)
    · rw [hother i hip] at hi
      by_cases hjp : j = prog
      · rw [hjp, hself] at hj
        exact absurd (hi.trans hj.symm) (hne i)
      · rw [hother j hjp] at hj
        exact h.inj i j p hi hj
  · intro x hx
    obtain rfl : (prog, pid) = x := by simpa [ParentPc.current] using hx
    exact hself
  · intro _ entries hentries
    obtain ⟨hnum, hrec⟩ := h.entries (by simp [hpc]) entries hentries
    refine ⟨hnum, fun k hk => ?_⟩
    have hk : k < prog := hk
    rw [hother k (by omega)]
    exact hrec k (by simpa [hpc, ParentPc.recorded] using hk)

/-- Releasing a child leaves the pids alone. -/
theorem State.pids_kill (s : State) (pid : ℕ) : (s.kill pid).pids = s.pids := by
  funext k
  simp only [State.pids, State.kill, Option.map_map]
  congr 1
  funext c
  simp only [Function.comp]
  split <;> rfl

/-- The release reaches the child it is meant for, and no other. -/
theorem ChildOk.kill {cfg : Config} {parent : Process Sender} {released prog pid : ℕ} {c : Child}
    (h : ChildOk cfg parent released prog c) (hpid : c.pid = pid ↔ prog = released) :
    ChildOk cfg parent (released + 1) prog
      (if c.pid = pid then { c with proc := c.proc.kill .parent } else c) := by
  by_cases hp : c.pid = pid
  · rw [if_pos hp]
    have hprog := hpid.mp hp
    subst hprog
    have hsent : c.proc.sent = [] := by simpa using h.sent
    have hnone : c.proc.pending = none := by
      have hbooks := h.exact.books
      rw [hsent] at hbooks
      simpa using (List.append_eq_nil_iff.mp hbooks.symm).2
    exact ⟨by simpa using h.blocked, h.exact.kill h.blocked _ hnone, by simp [hsent],
      h.unreported, by simpa using h.asleep, by simpa using h.woken, h.executed⟩
  · rw [if_neg hp]
    have hne : prog ≠ released := fun heq => hp (hpid.mpr heq)
    refine { h with sent := ?_ }
    rw [h.sent]
    by_cases hlt : prog < released
    · rw [if_pos hlt, if_pos (by omega)]
    · rw [if_neg hlt, if_neg (by omega)]

namespace Progress

variable {cfg : Config} {s s' : State} {forked taken released : ℕ}

/-- A step of the parent that leaves the children as they are. -/
theorem move {taken' : ℕ} (h : Progress cfg s forked taken released)
    (hchildren : s'.children = s.children) (hsent : s'.proc.sent = s.proc.sent)
    (hpc : PcOk cfg.num_test_progs s'.pc forked taken' released)
    (hpids : PidsOk cfg.num_test_progs s' forked taken') (hexact : s'.proc.Exact)
    (hblocked : s'.proc.blocked = true ∨ (forked = 0 ∧ ∀ prog, s'.pc ≠ .fork prog))
    (hreports : s'.proc.taken = (List.range taken').map .child)
    (hpending : ∀ a ∈ s'.proc.pending, a = .child taken' ∧ taken' < forked) :
    Progress cfg s' forked taken' released := by
  refine ⟨hpc, hpids, hexact, hblocked, hreports, hpending, ?_⟩
  intro k c hc
  rw [hchildren] at hc
  exact (h.children k c hc).congr (by rw [hsent]; exact id)

/-- A step of the parent to `pc'` that leaves all else as it is. -/
theorem move_pc {pc' : ParentPc} (h : Progress cfg s forked taken released)
    (hmalloc : s.pc ≠ .malloc) (hfork : ∀ prog, pc' ≠ .fork prog)
    (hpc : PcOk cfg.num_test_progs pc' forked taken released)
    (hcurrent : pc'.current = none) (hrecorded : pc'.recorded taken ≤ s.pc.recorded taken) :
    Progress cfg { s with pc := pc' } forked taken released := by
  refine h.move rfl rfl hpc ?_ h.exact ?_ h.reports h.pending
  · exact h.pids.move hmalloc rfl rfl rfl (by simp [hcurrent]) hrecorded
  · exact h.blocked.imp_right fun hb => ⟨hb.1, hfork⟩

/-- No report is on its way while the parent is between two children. -/
theorem pending_none (h : Progress cfg s forked taken released) (hle : forked ≤ taken) :
    s.proc.pending = none := by
  by_contra hsome
  obtain ⟨a, ha⟩ := Option.ne_none_iff_exists'.mp hsome
  have := (h.pending a ha).2
  omega

/-- A child joins that has not reported yet. -/
theorem fork {prog pid : ℕ} (h : Progress cfg s forked taken released) (hpc : s.pc = .fork prog)
    (hfresh : ∀ k < prog, ∀ c ∈ s.children k, c.pid ≠ pid) :
    Progress cfg { s with
      pc := .await_block prog pid
      children := Function.update s.children prog (some (.forked pid s.proc)) }
      (forked + 1) taken released := by
  have hpcok := h.pc
  have hpids := h.pids
  simp only [hpc, PcOk] at hpcok
  obtain ⟨hlt, hforked, htaken, rfl⟩ := hpcok
  subst htaken
  obtain rfl := hforked
  have hb : s.proc.blocked = true := by
    rcases h.blocked with hb | hb
    · exact hb
    · exact absurd hpc (hb.2 _)
  have hnone := h.pending_none (Nat.le_refl _)
  refine ⟨by simp [PcOk, hlt], hpids.fork hpc hfresh rfl, h.exact, .inl hb, h.reports,
    by simp [hnone], ?_⟩
  intro k d hd
  by_cases hk : k = forked
  · subst hk
    obtain rfl : Child.forked pid s.proc = d := by simpa using hd
    refine ⟨hb, Process.exact_quiet _, rfl, fun _ => ?_, fun _ => rfl,
      by simp [Child.forked], rfl⟩
    -- The reports taken so far are those of the older children.
    show Sender.child k ∉ s.proc.sent
    rw [h.exact.books, h.reports, hnone]
    simp
  · have hd : s.children k = some d := by simpa [hk] using hd
    exact h.children k d hd

/-- The pid of the child that reported becomes an entry. -/
theorem record {prog pid : ℕ} (h : Progress cfg s forked taken released)
    (hpc : s.pc = .record prog pid) :
    Progress cfg { s with
      pc := .launch (prog + 1)
      childpids := s.childpids.map fun entries => Function.update entries prog pid }
      forked taken released := by
  have hpcok := h.pc
  have hpids := h.pids
  simp only [hpc, PcOk] at hpcok
  obtain ⟨hlt, rfl, rfl, rfl⟩ := hpcok
  refine h.move rfl rfl (by simp [PcOk]; omega) ⟨hpids.forked, hpids.inj,
    by simp [ParentPc.current], ?_⟩ h.exact (.inl (h.blocked_of_forked (by omega))) h.reports
    h.pending
  intro _ entries' hentries'
  obtain ⟨entries, hentries, rfl⟩ := Option.map_eq_some_iff.mp hentries'
  obtain ⟨hnum, hrec⟩ := hpids.entries (by simp [hpc]) entries hentries
  refine ⟨hnum, fun k hk => ?_⟩
  by_cases hkp : k = prog
  · subst hkp
    rw [Function.update_self]
    exact hpids.current (k, pid) (by simp [hpc, ParentPc.current])
  · have hk : k < prog + 1 := hk
    rw [Function.update_of_ne hkp]
    exact hrec k (by simp [hpc, ParentPc.recorded]; omega)

/-- The next entry is the pid of the next child to release. -/
theorem signal {prog : ℕ} {entries : ℕ → ℕ} (h : Progress cfg s forked taken released)
    (hpc : s.pc = .signal prog) (hprog : prog < cfg.num_test_progs)
    (hentries : s.childpids = some entries) :
    Progress cfg { s.kill (entries prog) with pc := .signal (prog + 1) }
      forked taken (released + 1) := by
  have hpcok := h.pc
  have hpids := h.pids
  simp only [hpc, PcOk] at hpcok
  obtain ⟨hle, hforked, htaken, hreleased⟩ := hpcok
  subst hreleased
  obtain ⟨hnum, hrec⟩ := hpids.entries (by simp [hpc]) entries hentries
  have hpid : s.pids released = some (entries released) :=
    hrec released (by simp [hpc, ParentPc.recorded]; omega)
  refine ⟨by simp [PcOk]; omega, ?_, h.exact, h.blocked.imp_right fun hb => ⟨hb.1, by simp⟩,
    h.reports, h.pending, ?_⟩
  · exact hpids.move (by simp [hpc]) (s.pids_kill _) rfl rfl (by simp [ParentPc.current])
      (by simp [hpc, ParentPc.recorded])
  · intro k d hd
    obtain ⟨c, hc, rfl⟩ := Option.map_eq_some_iff.mp hd
    have hck : s.pids k = some c.pid := by simp [State.pids, hc]
    refine (h.children k c hc).kill ⟨fun heq => ?_, fun heq => ?_⟩
    · exact hpids.inj k released (entries released) (heq ▸ hck) hpid
    · rw [heq] at hck
      exact Option.some.inj (hck.symm.trans hpid)

/-- A step of the parent, and when it returns true. -/
theorem step_parent (h : Progress cfg s forked taken released) {act : ParentAct}
    (hstep : ParentStep cfg s act s') :
    ∃ forked' taken' released', Progress cfg s' forked' taken' released' ∧
      (s'.pc = .returned true → s'.childpids = none ∨ released' = cfg.num_test_progs) := by
  have hpcok := h.pc
  have hpids := h.pids
  cases hstep with
  | allocated hpc =>
    simp only [hpc, PcOk] at hpcok
    obtain ⟨rfl, rfl, rfl⟩ := hpcok
    refine ⟨0, 0, 0, h.move rfl rfl (by simp [PcOk]) ⟨hpids.forked, hpids.inj,
      by simp [ParentPc.current], ?_⟩ h.exact ?_ h.reports h.pending, by simp⟩
    · intro _ entries _
      exact ⟨rfl, by simp [ParentPc.recorded]⟩
    · exact h.blocked.imp_right fun hb => ⟨rfl, by simp⟩
  | unallocated hpc =>
    simp only [hpc, PcOk] at hpcok
    obtain ⟨rfl, rfl, rfl⟩ := hpcok
    refine ⟨0, 0, 0, h.move rfl rfl (by simp [PcOk]) ⟨hpids.forked, hpids.inj,
      by simp [ParentPc.current], by simp⟩ h.exact ?_ h.reports h.pending, by simp⟩
    exact h.blocked.imp_right fun hb => ⟨rfl, by simp⟩
  | launch hpc hprog =>
    simp only [hpc, PcOk] at hpcok
    obtain ⟨-, rfl, rfl, rfl⟩ := hpcok
    refine ⟨_, _, 0, h.move rfl rfl (by simp [PcOk, hprog]) ?_ h.exact.block (.inl rfl) h.reports
      h.pending, by simp⟩
    exact hpids.move (by simp [hpc]) rfl rfl rfl (by simp [ParentPc.current])
      (by simp [hpc, ParentPc.recorded])
  | unforked hpc =>
    simp only [hpc, PcOk] at hpcok
    obtain ⟨hlt, rfl, rfl, rfl⟩ := hpcok
    exact ⟨_, _, 0, h.move_pc (by simp [hpc]) (by simp) (by simp [PcOk]; omega) rfl
      (by simp [hpc, ParentPc.recorded]), by simp⟩
  | @forked prog pid hpc hfresh =>
    exact ⟨_, _, _, h.fork hpc hfresh, by simp⟩
  | block hpc =>
    simp only [hpc, PcOk] at hpcok
    obtain ⟨hlt, rfl, rfl, rfl⟩ := hpcok
    refine ⟨_, _, 0, h.move rfl rfl (by simp [PcOk, hlt]) ?_ h.exact.block (.inl rfl) h.reports
      h.pending, by simp⟩
    exact hpids.move (by simp [hpc]) rfl rfl rfl (by simp [hpc, ParentPc.current])
      (by simp [hpc, ParentPc.recorded])
  | @wake prog pid proc hpc hproc =>
    simp only [hpc, PcOk] at hpcok
    obtain ⟨hlt, rfl, htaken, rfl⟩ := hpcok
    subst htaken
    have hexact := h.exact.sigwait hproc
    obtain ⟨a, ha, rfl⟩ := Process.sigwait_eq_some.mp hproc
    obtain ⟨rfl, -⟩ := h.pending a ha
    refine ⟨_, taken + 1, 0, h.move rfl rfl (by simp [PcOk, hlt]) ?_ hexact
      (.inl (h.blocked_of_forked (by omega))) (by simp [h.reports, List.range_succ]) (by simp),
      by simp⟩
    exact hpids.move (by simp [hpc]) rfl rfl rfl (by simp [hpc, ParentPc.current])
      (by simp [hpc, ParentPc.recorded])
  | record hpc =>
    exact ⟨_, _, _, h.record hpc, by simp⟩
  | @launched prog hpc hprog =>
    simp only [hpc, PcOk] at hpcok
    obtain ⟨hle, hforked, htaken, rfl⟩ := hpcok
    exact ⟨forked, taken, 0, h.move_pc (by simp [hpc]) (by simp) (by simp [PcOk]; omega) rfl
      (by simp [hpc, ParentPc.recorded]), by simp⟩
  | signal hpc hprog hentries =>
    exact ⟨_, _, _, h.signal hpc hprog hentries, by simp⟩
  | unsignalled hpc hprog =>
    simp only [hpc, PcOk] at hpcok
    exact ⟨forked, taken, released, h.move_pc (by simp [hpc]) (by simp) (by simp [PcOk]; omega) rfl
      (by simp [hpc, ParentPc.recorded]), by simp⟩
  | signalled hpc hprog =>
    simp only [hpc, PcOk] at hpcok
    exact ⟨forked, taken, released, h.move_pc (by simp [hpc]) (by simp) (by simp [PcOk]; omega) rfl
      (by simp [hpc, ParentPc.recorded]), fun _ => .inr (by omega)⟩

end Progress

/-! ## Section 5: Main theorem -/

theorem inv_init {cfg : Config} {s : State} (h : Init s) : Inv cfg s := by
  obtain ⟨blocked, hproc⟩ := h.proc
  have hpids : ∀ prog, s.pids prog = none := by simp [State.pids, h.children]
  refine ⟨0, 0, 0, by simp [h.pc, PcOk], ⟨by simp [hpids], by simp [hpids],
    by simp [h.pc, ParentPc.current], fun hne => absurd h.pc hne⟩, ?_, ?_, ?_, ?_, ?_⟩
  · rw [hproc]; exact Process.exact_quiet blocked
  · exact .inr ⟨rfl, by simp [h.pc]⟩
  · simp [hproc]
  · simp [hproc]
  · simp [h.children]

theorem inv_step {cfg : Config} {s s' : State} {l : Label} (h : Inv cfg s)
    (hstep : step cfg s l = some s') : Inv cfg s' := by
  obtain ⟨forked, taken, released, hp⟩ := h
  match l with
  | .parent act =>
    obtain ⟨forked', taken', released', hp', -⟩ := hp.step_parent (parentStep_of_step hstep)
    exact ⟨forked', taken', released', hp'⟩
  | .child prog act => exact ⟨forked, taken, released, hp.step_child hstep⟩

theorem inv_reachable {cfg : Config} {allowed : Label → Prop} {s : State}
    (h : (run_benchmarks cfg).Reachable allowed s) : Inv cfg s :=
  Reachable.invariant (fun _ hs => inv_init hs) (fun _ _ _ hs _ hstep => inv_step hs hstep) h

theorem ChildOk.executed_once {cfg : Config} {parent : Process Sender} {released prog : ℕ}
    {c : Child} (h : ChildOk cfg parent released prog c) :
    c.executed = [] ∨ ∃ test_prog, cfg.test_progs[prog]? = some test_prog ∧
      c.executed = [test_prog.cmdline] := by
  have hexec := h.executed
  by_cases hpc : c.pc = .executing
  · rw [if_pos hpc] at hexec
    cases hprog : cfg.test_progs[prog]? with
    | none => exact .inl (by simpa [hprog] using hexec)
    | some test_prog => exact .inr ⟨test_prog, rfl, by simpa [hprog] using hexec⟩
  · exact .inl (h.unexecuted hpc)

/-- Only a released child executes, and nobody is released before the last
    report. -/
theorem Progress.all_reported {cfg : Config} {s : State} {forked taken released prog : ℕ}
    {c : Child} (h : Progress cfg s forked taken released) (hc : s.children prog = some c)
    (hexec : c.executed ≠ []) : taken = cfg.num_test_progs := by
  have hok := h.children prog c hc
  have hpc : c.pc = .executing := by
    by_contra hne
    exact hexec (hok.unexecuted hne)
  have hsent : c.proc.sent ≠ [] := by
    rw [hok.exact.books, hok.woken (.inr hpc)]
    simp
  have hrel : prog < released := by
    by_contra hlt
    exact hsent (by rw [hok.sent, if_neg hlt])
  exact h.counts.2.2.2.2 (by omega)

/-- A process has lost no signal: the default action was not taken on it, and
    what was sent to it and not consumed by its own `sigwait` is pending. -/
def NoneLost (p : Process Sender) : Prop :=
  p.terminated = false ∧ p.sent = p.taken ++ p.pending.toList

/-- In every interleaving of a call, whatever calls fail:
    * a child that executes its program does so after every child reported up
      and the parent consumed the report, in the order of the forks;
    * a child executes at most once, and then its own command line;
    * no process has lost a signal, and one that waits in `sigwait` for a signal
      that was sent has it pending. -/
theorem start_barrier (cfg : Config) (s : State)
    (h : (run_benchmarks cfg).Reachable (fun _ => True) s) :
    (∀ prog c, s.children prog = some c → c.executed ≠ [] →
      s.proc.taken = (List.range cfg.num_test_progs).map .child ∧
      ∀ k < cfg.num_test_progs, (s.children k).isSome = true ∧ .child k ∈ s.proc.sent) ∧
    (∀ prog c, s.children prog = some c →
      c.executed = [] ∨ ∃ test_prog, cfg.test_progs[prog]? = some test_prog ∧
        c.executed = [test_prog.cmdline]) ∧
    (NoneLost s.proc ∧
      ∀ prog pid, s.pc = .await prog pid → .child prog ∈ s.proc.sent →
        s.proc.pending = some (.child prog)) ∧
    (∀ prog c, s.children prog = some c → NoneLost c.proc ∧
      (c.pc = .await → .parent ∈ c.proc.sent → c.proc.pending = some .parent)) := by
  obtain ⟨forked, taken, released, hp⟩ := inv_reachable h
  refine ⟨?_, ?_, ⟨⟨hp.exact.alive, hp.exact.books⟩, ?_⟩, ?_⟩
  · intro prog c hc hexec
    have hall := hp.all_reported hc hexec
    obtain ⟨hle, -, hfork, -⟩ := hp.counts
    refine ⟨by rw [hp.reports, hall], fun k hk => ⟨?_, ?_⟩⟩
    · have := (hp.pids.forked k).mpr (by omega)
      simpa [State.pids] using this
    · rw [hp.exact.books, hp.reports, hall]
      simp [hk]
  · intro prog c hc
    exact (hp.children prog c hc).executed_once
  · intro prog pid hpc hsent
    have hpcok := hp.pc
    simp only [hpc, PcOk] at hpcok
    rw [hp.exact.books, hp.reports] at hsent
    rcases List.mem_append.mp hsent with hmem | hmem
    · -- Its report is not among those taken: these are of older children.
      simp at hmem
      omega
    · simpa using hmem
  · intro prog c hc
    have hok := hp.children prog c hc
    refine ⟨⟨hok.exact.alive, hok.exact.books⟩, fun hpc hsent => ?_⟩
    rw [hok.exact.books, hok.asleep (by simp [hpc, ChildPc.late])] at hsent
    simpa using hsent

/-- The steps that launch the child of `prog`, when nothing fails. -/
def launching (prog pid : ℕ) : List Label :=
  [.parent .block, .parent (.fork (some pid)), .parent .block,
    .child prog (.cpu_alloc true), .child prog (.cpu_alloc_size true), .child prog .check_cpu,
    .child prog (.setaffinity true), .child prog (.kill true), .child prog .block,
    .parent .sigwait, .parent .record]

/-- A caller that forked nobody yet. -/
def State.fresh : State :=
  { pc := .malloc, proc := .quiet false, childpids := none, num_childpids := 0,
    children := fun _ => none }

theorem init_fresh : Init State.fresh := ⟨rfl, ⟨false, rfl⟩, fun _ => rfl⟩

/-- The second of two children executes, after both reports were consumed. -/
theorem start_barrier_two : ∃ s c,
    (run_benchmarks ⟨[⟨["a"], 0⟩, ⟨["b"], 1⟩], 2⟩).Reachable (fun _ => True) s ∧
    s.children 1 = some c ∧ c.executed = [["b"]] ∧
    s.proc.taken = [.child 0, .child 1] := by
  let cfg : Config := ⟨[⟨["a"], 0⟩, ⟨["b"], 1⟩], 2⟩
  let labels : List Label := [.parent (.malloc true fun _ => 7)] ++ launching 0 100 ++
    launching 1 101 ++ [.parent .leave, .parent (.kill true), .parent (.kill true),
      .child 1 .sigwait, .child 1 (.exec true)]
  have hexec : ((run_benchmarks cfg).run State.fresh labels).bind (fun s =>
      (s.children 1).map (·.executed)) = some [["b"]] := by rfl
  obtain ⟨s, hrun, hs⟩ := Option.bind_eq_some_iff.mp hexec
  obtain ⟨c, hc, hcexec⟩ := Option.map_eq_some_iff.mp hs
  have hreach : (run_benchmarks cfg).Reachable (fun _ => True) s :=
    ⟨State.fresh, labels, init_fresh, by simp, hrun⟩
  exact ⟨s, c, hreach, hc, hcexec,
    ((start_barrier cfg s hreach).1 1 c hc (by simp [hcexec])).1⟩

end BenchCommands
