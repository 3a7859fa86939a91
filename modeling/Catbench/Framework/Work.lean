import Catbench.Framework.LTS

/-! # Runs that use up a fixed amount of work

    A system of several processes may take its steps in any order, and still do
    the same steps in the end.  If every allowed step does one unit of what is
    left to do, and some allowed step is enabled as long as anything is left,
    then no run gets stuck early or goes on for ever: all runs that cannot be
    prolonged have the same length.

    * **Accounting**: `work_run`, what a run has used up.
    * **Completion**: `complete`, a run can be prolonged until nothing is left.
    * **Deadlock freedom**: `stuck_iff`, only a finished state is stuck.
-/

namespace LTS

variable {State Label : Type*} {sys : System State Label}

/-- Every allowed step does one unit of the work that is left in the states of an
    invariant, and while there is any, an allowed step is enabled. -/
structure UsesUp (sys : System State Label) (allowed : Label → Prop) (Inv : State → Prop)
    (work : State → ℕ) : Prop where
  keeps : ∀ s l s', Inv s → allowed l → sys.step s l = some s' → Inv s'
  uses : ∀ s l s', Inv s → allowed l → sys.step s l = some s' → work s = work s' + 1
  enabled : ∀ s, Inv s → 0 < work s → ∃ l s', allowed l ∧ sys.step s l = some s'

namespace UsesUp

variable {allowed : Label → Prop} {Inv : State → Prop} {work : State → ℕ} {s s' : State}
  {labels : List Label}

/-! ## Accounting -/

/-- A run has done as many units as it has steps. -/
theorem work_run (h : UsesUp sys allowed Inv work) (hs : Inv s) (hall : ∀ l ∈ labels, allowed l)
    (hrun : sys.run s labels = some s') : Inv s' ∧ work s = work s' + labels.length := by
  induction labels using List.reverseRecOn generalizing s' with
  | nil =>
    obtain rfl := Option.some.inj hrun
    exact ⟨hs, by simp⟩
  | append_singleton labels l ih =>
    obtain ⟨t, ht, hlast⟩ := (run_concat_eq_some sys).mp hrun
    obtain ⟨hInv, hwork⟩ := ih (fun l' hl' => hall l' (by simp [hl'])) ht
    have hl : allowed l := hall l (by simp)
    have hone := h.uses t l s' hInv hl hlast
    refine ⟨h.keeps t l s' hInv hl hlast, ?_⟩
    simp only [List.length_append, List.length_singleton]
    omega

/-! ## Completion -/

/-- From every state of the invariant some run does all that is left. -/
theorem complete (h : UsesUp sys allowed Inv work) (hs : Inv s) :
    ∃ labels s', (∀ l ∈ labels, allowed l) ∧ sys.run s labels = some s' ∧ work s' = 0 ∧
      labels.length = work s := by
  -- by the work that is left: one enabled step, and then the rest
  induction hn : work s generalizing s with
  | zero => exact ⟨[], s, by simp, rfl, hn, rfl⟩
  | succ n ih =>
    obtain ⟨l, t, hl, hstep⟩ := h.enabled s hs (by omega)
    have hone := h.uses s l t hs hl hstep
    obtain ⟨labels, s', hall, hrun, hzero, hlen⟩ :=
      ih (h.keeps s l t hs hl hstep) (by omega)
    refine ⟨l :: labels, s', by simpa [hl] using hall, ?_, hzero, by simp [hlen]⟩
    have hfirst : sys.run s [l] = some t := by simp [System.run, hstep]
    show sys.run s ([l] ++ labels) = some s'
    exact (run_append_eq_some sys).mpr ⟨t, hfirst, hrun⟩

/-! ## Deadlock freedom -/

/-- No allowed step is enabled exactly where nothing is left to do. -/
theorem stuck_iff (h : UsesUp sys allowed Inv work) (hs : Inv s) :
    (∀ l, allowed l → sys.step s l = none) ↔ work s = 0 := by
  constructor
  · intro hstuck
    by_contra hne
    obtain ⟨l, t, hl, hstep⟩ := h.enabled s hs (by omega)
    rw [hstuck l hl] at hstep
    cases hstep
  · intro hzero l hl
    by_contra hne
    obtain ⟨t, hstep⟩ := Option.ne_none_iff_exists'.mp hne
    have := h.uses s l t hs hl hstep
    omega

end UsesUp

end LTS
