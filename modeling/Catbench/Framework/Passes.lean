import Mathlib.Data.List.Basic
import Mathlib.Tactic.Common

/-! # Passes over a state

    A pass may fail, and it may depend on the circumstances of the run.  Each
    pass brings the state into a form (`stable`) in which it has nothing left to
    do.  If no later pass spoils the form of an earlier one, making all passes
    again changes nothing.

    * **One pass**: what a pass owes to its own form (`Settles`) and to that of
      an earlier pass (`Keeps`).
    * **All passes**: every form holds at the end (`stable_runAll`), and on a
      state in which every form holds all passes are neutral (`runAll_neutral`).
-/

namespace Passes

variable {C S : Type*}

structure Pass (C S : Type*) where
  run : C → S → Option S
  stable : S → Prop

/-- One pass after the other. -/
def runAll (c : C) (ps : List (Pass C S)) (s : S) : Option S :=
  ps.foldlM (fun s p => p.run c s) s

@[simp] theorem runAll_nil (c : C) (s : S) : runAll c [] s = some s := rfl

@[simp] theorem runAll_cons (c : C) (p : Pass C S) (ps : List (Pass C S)) (s : S) :
    runAll c (p :: ps) s = (p.run c s).bind (runAll c ps) := rfl

/-! ## Section 1: One pass -/

/-- What holds of a pass on the states that are `ok`, up to the relation `same`
    (the new state on the left). -/
structure Settles (same : S → S → Prop) (ok : S → Prop) (p : Pass C S) : Prop where
  ok_run : ∀ {c s s'}, ok s → p.run c s = some s' → ok s'
  stable_run : ∀ {c s s'}, ok s → p.run c s = some s' → p.stable s'
  stable_same : ∀ {s s'}, ok s' → same s' s → p.stable s → p.stable s'
  neutral : ∀ {s} (c), ok s → p.stable s → ∃ s', p.run c s = some s' ∧ same s' s

/-- The later pass `q` does not spoil the form of `p`. -/
def Keeps (ok : S → Prop) (p q : Pass C S) : Prop :=
  ∀ {c s s'}, ok s → p.stable s → q.run c s = some s' → p.stable s'

/-! ## Section 2: All passes -/

section all
variable {same : S → S → Prop} {ok : S → Prop} {ps : List (Pass C S)} {c : C} {s s' : S}

theorem ok_runAll (hps : ∀ p ∈ ps, Settles same ok p) (hok : ok s)
    (h : runAll c ps s = some s') : ok s' := by
  induction ps generalizing s with
  | nil => exact Option.some.inj h ▸ hok
  | cons p ps ih =>
    obtain ⟨u, hu, h⟩ := Option.bind_eq_some_iff.mp h
    rw [List.forall_mem_cons] at hps
    exact ih hps.2 (hps.1.ok_run hok hu) h

/-- A form that no pass spoils is still there at the end. -/
theorem kept_runAll {p : Pass C S} (hps : ∀ q ∈ ps, Settles same ok q)
    (hkeeps : ∀ q ∈ ps, Keeps ok p q) (hok : ok s) (hstable : p.stable s)
    (h : runAll c ps s = some s') : p.stable s' := by
  induction ps generalizing s with
  | nil => exact Option.some.inj h ▸ hstable
  | cons q ps ih =>
    obtain ⟨u, hu, h⟩ := Option.bind_eq_some_iff.mp h
    rw [List.forall_mem_cons] at hps hkeeps
    exact ih hps.2 hkeeps.2 (hps.1.ok_run hok hu) (hkeeps.1 hok hstable hu) h

/-- Every pass has brought the state into its form, and the later ones keep it. -/
theorem stable_runAll (hps : ∀ p ∈ ps, Settles same ok p) (hkeeps : ps.Pairwise (Keeps ok))
    (hok : ok s) (h : runAll c ps s = some s') : ∀ p ∈ ps, p.stable s' := by
  induction ps generalizing s with
  | nil => simp
  | cons p ps ih =>
    obtain ⟨u, hu, h⟩ := Option.bind_eq_some_iff.mp h
    rw [List.forall_mem_cons] at hps
    rw [List.pairwise_cons] at hkeeps
    have hoku := hps.1.ok_run hok hu
    rw [List.forall_mem_cons]
    exact ⟨kept_runAll hps.2 hkeeps.1 hoku (hps.1.stable_run hok hu) h,
      ih hps.2 hkeeps.2 hoku h⟩

theorem runAll_neutral (hrefl : ∀ s, same s s)
    (htrans : ∀ {s t u : S}, same s t → same t u → same s u)
    (hps : ∀ p ∈ ps, Settles same ok p) (hstable : ∀ p ∈ ps, p.stable s) (hok : ok s) (c : C) :
    ∃ s', runAll c ps s = some s' ∧ same s' s := by
  induction ps generalizing s with
  | nil => exact ⟨s, rfl, hrefl s⟩
  | cons p ps ih =>
    rw [List.forall_mem_cons] at hps hstable
    obtain ⟨u, hu, hsame⟩ := hps.1.neutral c hok hstable.1
    have hoku := hps.1.ok_run hok hu
    -- The other forms only depend on the state up to `same`.
    have hstableu : ∀ q ∈ ps, q.stable u := fun q hq =>
      (hps.2 q hq).stable_same hoku hsame (hstable.2 q hq)
    obtain ⟨s', hs', hsame'⟩ := ih hps.2 hstableu hoku
    exact ⟨s', by rw [runAll_cons, hu, Option.bind_some, hs'], htrans hsame' hsame⟩

end all

end Passes
