import Mathlib.Data.List.Basic
import Mathlib.Logic.Function.Iterate
import Mathlib.Logic.Relation

/-! # Recursions that may not end

    A function that calls itself for finitely many other arguments is written
    with fuel, as the depth its calls may reach.  With enough fuel it has a
    value iff there is no infinite descent of calls.  A loop has as fuel the
    number of its tests.
-/

namespace Recursion

variable {A B : Type*}

/-- `eval` fails without fuel, and has a value iff its calls have values. -/
structure Fueled (calls : A → List A) (eval : ℕ → A → Option B) : Prop where
  zero : ∀ a, eval 0 a = none
  succ : ∀ fuel a, (eval (fuel + 1) a).isSome ↔ ∀ c ∈ calls a, (eval fuel c).isSome

/-- The recursion ends for `a`. -/
def Ends (calls : A → List A) (a : A) : Prop := Acc (fun c a => c ∈ calls a) a

/-- `b` is the argument of a call below the one for `a`, or `a` itself. -/
def Reaches (calls : A → List A) : A → A → Prop :=
  Relation.ReflTransGen fun a c => c ∈ calls a

variable {calls : A → List A} {eval : ℕ → A → Option B}

namespace Fueled

theorem mono (h : Fueled calls eval) {fuel fuel' : ℕ} (hle : fuel ≤ fuel') {a : A}
    (ha : (eval fuel a).isSome) : (eval fuel' a).isSome := by
  induction fuel generalizing fuel' a with
  | zero => simp [h.zero] at ha
  | succ fuel ih =>
    obtain ⟨fuel', rfl⟩ := Nat.exists_eq_add_of_le' hle
    rw [show fuel' + (fuel + 1) = fuel' + fuel + 1 by omega, h.succ]
    rw [h.succ] at ha
    intro c hc
    exact ih (by omega) (ha c hc)

/-- Finitely many calls that end do so at a common depth. -/
theorem common_depth (h : Fueled calls eval) {cs : List A}
    (hcs : ∀ c ∈ cs, ∃ fuel, (eval fuel c).isSome) :
    ∃ fuel, ∀ c ∈ cs, (eval fuel c).isSome := by
  induction cs with
  | nil => exact ⟨0, by simp⟩
  | cons c cs ih =>
    obtain ⟨fuel, hfuel⟩ := ih fun d hd => hcs d (List.mem_cons_of_mem _ hd)
    obtain ⟨fuel', hfuel'⟩ := hcs c List.mem_cons_self
    refine ⟨max fuel fuel', List.forall_mem_cons.mpr ⟨?_, ?_⟩⟩
    · exact h.mono (Nat.le_max_right _ _) hfuel'
    · intro d hd
      exact h.mono (Nat.le_max_left _ _) (hfuel d hd)

/-- Enough fuel gives a value iff the recursion ends. -/
theorem isSome_iff_ends (h : Fueled calls eval) {a : A} :
    (∃ fuel, (eval fuel a).isSome) ↔ Ends calls a := by
  constructor
  · rintro ⟨fuel, hfuel⟩
    induction fuel generalizing a with
    | zero => simp [h.zero] at hfuel
    | succ fuel ih =>
      rw [h.succ] at hfuel
      exact Acc.intro a fun c hc => ih (hfuel c hc)
  · intro hacc
    induction hacc with
    | intro a _ ih =>
      obtain ⟨fuel, hfuel⟩ := h.common_depth ih
      exact ⟨fuel + 1, (h.succ fuel a).mpr hfuel⟩

end Fueled

/-- What a recursion that ends calls ends too. -/
theorem Ends.of_reaches {a b : A} (h : Ends calls a) (hb : Reaches calls a b) : Ends calls b := by
  induction hb with
  | refl => exact h
  | tail _ hc ih => exact ih.inv hc

/-- A kind of argument each of which calls for another of the kind. -/
theorem not_ends_of_forever {P : A → Prop} (hP : ∀ a, P a → ∃ c ∈ calls a, P c) {a : A}
    (ha : P a) : ¬Ends calls a := by
  intro hacc
  induction hacc with
  | intro a _ ih =>
    obtain ⟨c, hc, hPc⟩ := hP a ha
    exact ih c hc hPc

/-! ## Loops -/

section whileLoop
variable {S : Type*} {cond : S → Bool} {body : S → S} {s t : S}

/-- The state in which a loop ends. -/
def whileLoop (cond : S → Bool) (body : S → S) : ℕ → S → Option S
  | 0, _ => none
  | fuel + 1, s => if cond s then whileLoop cond body fuel (body s) else some s

theorem iterate_of_whileLoop {fuel : ℕ} (h : whileLoop cond body fuel s = some t) :
    ∃ n, t = body^[n] s ∧ cond t = false ∧ ∀ m < n, cond (body^[m] s) = true := by
  induction fuel generalizing s with
  | zero => cases h
  | succ fuel ih =>
    unfold whileLoop at h
    split at h
    · rename_i hcond
      obtain ⟨n, ht, hstop, hgo⟩ := ih h
      refine ⟨n + 1, ht, hstop, fun m hm => ?_⟩
      cases m with
      | zero => exact hcond
      | succ m => exact hgo m (by omega)
    · rename_i hcond
      cases h
      exact ⟨0, rfl, by simpa using hcond, fun m hm => absurd hm (Nat.not_lt_zero m)⟩

theorem whileLoop_of_iterate {n : ℕ} (hstop : cond (body^[n] s) = false)
    (hgo : ∀ m < n, cond (body^[m] s) = true) :
    whileLoop cond body (n + 1) s = some (body^[n] s) := by
  induction n generalizing s with
  | zero =>
    have hcond : cond s = false := hstop
    simp [whileLoop, hcond]
  | succ n ih =>
    have hcond : cond s = true := hgo 0 (Nat.succ_pos n)
    unfold whileLoop
    rw [if_pos hcond]
    exact ih hstop fun m hm => hgo (m + 1) (by omega)

/-- A loop whose test first fails after `n` turns ends in the state there, and in no
    other. -/
theorem exists_whileLoop_iff {n : ℕ} (hstop : cond (body^[n] s) = false)
    (hgo : ∀ m < n, cond (body^[m] s) = true) :
    (∃ fuel, whileLoop cond body fuel s = some t) ↔ t = body^[n] s := by
  constructor
  · intro h
    obtain ⟨fuel, hfuel⟩ := h
    obtain ⟨n', rfl, hstop', hgo'⟩ := iterate_of_whileLoop hfuel
    have hle : n' ≤ n := by
      by_contra hlt
      rw [hgo' n (by omega)] at hstop
      cases hstop
    have hge : n ≤ n' := by
      by_contra hlt
      rw [hgo n' (by omega)] at hstop'
      cases hstop'
    rw [Nat.le_antisymm hle hge]
  · intro h
    rw [h]
    exact ⟨n + 1, whileLoop_of_iterate hstop hgo⟩

end whileLoop

end Recursion
