import Mathlib.Data.List.Induction
import Mathlib.Data.List.Infix

/-! # Labelled transition systems

    A system whose steps are functions of the label: the label carries every
    choice that is not made by the state itself (which process moves, and how
    its call to the outside ends).  A run is a list of labels.

    * **Runs**: `run`, and how it splits at the last label.
    * **Invariant rule**: what holds initially and is kept by the allowed steps
      holds in every state reachable by them.
    * **Safety of a run**: when exactly the allowed labels keep a run safe.
-/

namespace LTS

/-- Initial states and a partial step function. -/
structure System (State : Type*) (Label : Type*) where
  init : State → Prop
  step : State → Label → Option State

variable {State Label : Type*} (sys : System State Label)

/-- The state after the given steps; `none` when one of them is not enabled. -/
def System.run (s : State) (labels : List Label) : Option State := labels.foldlM sys.step s

@[simp] theorem run_nil (s : State) : sys.run s [] = some s := rfl

theorem run_concat (s : State) (labels : List Label) (l : Label) :
    sys.run s (labels ++ [l]) = (sys.run s labels).bind fun s' => sys.step s' l := by
  simp [System.run, List.foldlM_append]

/-- The last step of a run. -/
theorem run_concat_eq_some {s s' : State} {labels : List Label} {l : Label} :
    sys.run s (labels ++ [l]) = some s' ↔
      ∃ t, sys.run s labels = some t ∧ sys.step t l = some s' := by
  rw [run_concat, Option.bind_eq_some_iff]

/-- A run passes through the state that its front leads to. -/
theorem run_append_eq_some {s s' : State} {front rest : List Label} :
    sys.run s (front ++ rest) = some s' ↔
      ∃ t, sys.run s front = some t ∧ sys.run t rest = some s' := by
  unfold System.run
  rw [List.foldlM_append]
  exact Option.bind_eq_some_iff

/-- A state that is reached by steps with allowed labels only. -/
def System.Reachable (allowed : Label → Prop) (s : State) : Prop :=
  ∃ s₀ labels, sys.init s₀ ∧ (∀ l ∈ labels, allowed l) ∧ sys.run s₀ labels = some s

variable {sys} {allowed : Label → Prop}

/-! ## Invariant rule -/

/-- What every step of a run keeps, as a property of the labels so far and of the state
    they have led to. -/
theorem run_history {Inv : List Label → State → Prop} {s₀ s : State} {labels : List Label}
    (hstep : ∀ done s l s', sys.run s₀ done = some s → Inv done s → sys.step s l = some s' →
      Inv (done ++ [l]) s')
    (h₀ : Inv [] s₀) (hrun : sys.run s₀ labels = some s) : Inv labels s := by
  induction labels using List.reverseRecOn generalizing s with
  | nil =>
    obtain rfl := Option.some.inj hrun
    exact h₀
  | append_singleton labels l ih =>
    obtain ⟨t, ht, hlast⟩ := (run_concat_eq_some sys).mp hrun
    exact hstep labels t l s ht (ih ht) hlast

/-- Whatever the allowed steps keep holds all along a run of them. -/
theorem run_invariant {Inv : State → Prop} {s₀ s : State} {labels : List Label}
    (hstep : ∀ s l s', Inv s → allowed l → sys.step s l = some s' → Inv s')
    (h₀ : Inv s₀) (hall : ∀ l ∈ labels, allowed l) (hrun : sys.run s₀ labels = some s) :
    Inv s := by
  have hkeeps : ∀ done s l s', sys.run s₀ done = some s → ((∀ l ∈ done, allowed l) → Inv s) →
      sys.step s l = some s' → (∀ l' ∈ done ++ [l], allowed l') → Inv s' := by
    intro done s l s' _ ih hlast hall
    have hs : Inv s := ih fun l' hl' => hall l' (by simp [hl'])
    exact hstep s l s' hs (hall l (by simp)) hlast
  exact run_history hkeeps (fun _ => h₀) hrun hall

theorem Reachable.invariant {Inv : State → Prop} {s : State}
    (hinit : ∀ s, sys.init s → Inv s)
    (hstep : ∀ s l s', Inv s → allowed l → sys.step s l = some s' → Inv s')
    (h : sys.Reachable allowed s) : Inv s := by
  obtain ⟨s₀, labels, h₀, hall, hrun⟩ := h
  exact run_invariant hstep (hinit s₀ h₀) hall hrun

/-! ## Safety of a run -/

/-- If the steps that are allowed in their states keep an invariant that gives safety,
    and every other step from the invariant is unsafe at once, then a run is safe in
    all its states exactly if all its steps are allowed where they are taken. -/
theorem run_safe_iff_at {Inv Safe : State → Prop} {allowed : State → Label → Prop} {s₀ s : State}
    {labels : List Label}
    (hstep : ∀ s l s', Inv s → allowed s l → sys.step s l = some s' → Inv s')
    (hsafe : ∀ s, Inv s → Safe s)
    (hbad : ∀ s l s', Inv s → ¬allowed s l → sys.step s l = some s' → ¬Safe s')
    (h₀ : Inv s₀) (hrun : sys.run s₀ labels = some s) :
    (∀ front, front <+: labels → ∀ t, sys.run s₀ front = some t → Safe t) ↔
      ∀ front l, front ++ [l] <+: labels → ∀ t, sys.run s₀ front = some t → allowed t l := by
  -- behind allowed steps the invariant holds, whichever side is given
  have hkeeps : ∀ done u l v, sys.run s₀ done = some u →
      ((∀ f l', f ++ [l'] <+: done → ∀ t, sys.run s₀ f = some t → allowed t l') → Inv u) →
      sys.step u l = some v →
      (∀ f l', f ++ [l'] <+: done ++ [l] → ∀ t, sys.run s₀ f = some t → allowed t l') → Inv v := by
    intro done u l v hu ih hlast hall
    have hInv : Inv u := ih fun f l' hf => hall f l' (hf.trans (List.prefix_append done [l]))
    exact hstep u l v hInv (hall done l List.prefix_rfl u hu) hlast
  constructor
  · intro hall
    -- the first step that is not allowed would lead out of the safe states
    induction labels using List.reverseRecOn generalizing s with
    | nil => simp
    | append_singleton labels l ih =>
      obtain ⟨t, ht, hlast⟩ := (run_concat_eq_some sys).mp hrun
      have hfront := ih ht fun front hpre =>
        hall front (hpre.trans (List.prefix_append labels [l]))
      have hInv : Inv t := run_history hkeeps (fun _ => h₀) ht hfront
      intro f l' hpre u hu
      rcases List.prefix_concat_iff.mp hpre with heq | hpre
      · obtain ⟨rfl, hl⟩ := List.append_inj' heq rfl
        obtain rfl := List.singleton_inj.mp hl
        obtain rfl := Option.some.inj (ht.symm.trans hu)
        by_contra hl
        exact hbad t l' s hInv hl hlast (hall _ List.prefix_rfl s hrun)
      · exact hfront f l' hpre u hu
  · intro hall front hpre t ht
    have hfront : ∀ f l, f ++ [l] <+: front → ∀ u, sys.run s₀ f = some u → allowed u l :=
      fun f l hf => hall f l (hf.trans hpre)
    exact hsafe t (run_history hkeeps (fun _ => h₀) ht hfront)

/-- For labels that are allowed in all states or in none. -/
theorem run_safe_iff {Inv Safe : State → Prop} {s₀ s : State} {labels : List Label}
    (hstep : ∀ s l s', Inv s → allowed l → sys.step s l = some s' → Inv s')
    (hsafe : ∀ s, Inv s → Safe s)
    (hbad : ∀ s l s', Inv s → ¬allowed l → sys.step s l = some s' → ¬Safe s')
    (h₀ : Inv s₀) (hrun : sys.run s₀ labels = some s) :
    (∀ front, front <+: labels → ∀ t, sys.run s₀ front = some t → Safe t) ↔
      ∀ l ∈ labels, allowed l := by
  rw [run_safe_iff_at hstep hsafe hbad h₀ hrun]
  constructor
  · intro hall l hl
    obtain ⟨front, rest, rfl⟩ := List.append_of_mem hl
    obtain ⟨t, ht, -⟩ := (run_append_eq_some sys).mp hrun
    exact hall front l ⟨rest, by simp⟩ t ht
  · intro hall front l hpre t _
    exact hall l (hpre.subset (by simp))

end LTS
