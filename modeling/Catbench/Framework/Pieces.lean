import Mathlib.Algebra.GroupWithZero.Nat
import Mathlib.Data.List.Count
import Mathlib.Data.List.Forall2
import Mathlib.Tactic.Common

/-! # Pieces and separators

    Lists that were put together from pieces with a separator between them, or
    behind each of them, and lists that match member by member.
-/

namespace Pieces

variable {α β γ : Type*}

/-! ## Pieces with a separator between them -/

theorem intercalate_append (sep : List α) {ls ms : List (List α)} (hls : ls ≠ []) (hms : ms ≠ []) :
    sep.intercalate (ls ++ ms) = sep.intercalate ls ++ sep ++ sep.intercalate ms := by
  induction ls with
  | nil => exact absurd rfl hls
  | cons l ls ih =>
    cases ls with
    | nil =>
      obtain ⟨m, ms, rfl⟩ := List.exists_cons_of_ne_nil hms
      simp [List.intercalate_cons_cons]
    | cons l' ls =>
      have ih := ih (by simp)
      rw [List.cons_append, List.cons_append, List.intercalate_cons_cons, ← List.cons_append, ih,
        List.intercalate_cons_cons]
      simp

/-- Putting pieces together in two steps or in one. -/
theorem intercalate_flatten (sep : List α) {lss : List (List (List α))}
    (h : ∀ ls ∈ lss, ls ≠ []) :
    sep.intercalate (lss.map sep.intercalate) = sep.intercalate lss.flatten := by
  induction lss with
  | nil => rfl
  | cons ls lss ih =>
    rw [List.forall_mem_cons] at h
    have ih := ih h.2
    cases lss with
    | nil => simp
    | cons ms lss =>
      have hne : (ms :: lss).flatten ≠ [] := by
        simp [h.2 ms List.mem_cons_self]
      rw [List.map_cons, List.map_cons, List.intercalate_cons_cons, ← List.map_cons, ih]
      exact (intercalate_append sep h.1 hne).symm

theorem mem_intercalate {sep : List α} {ls : List (List α)} {x : α}
    (h : x ∈ sep.intercalate ls) : x ∈ sep ∨ ∃ l ∈ ls, x ∈ l := by
  induction ls with
  | nil => cases h
  | cons l ls ih =>
    cases ls with
    | nil => exact .inr ⟨l, List.mem_cons_self, by simpa using h⟩
    | cons l' ls =>
      rw [List.intercalate_cons_cons, List.mem_append, List.mem_append] at h
      rcases h with (h | h) | h
      · exact .inr ⟨l, List.mem_cons_self, h⟩
      · exact .inl h
      · exact (ih h).imp id fun ⟨m, hm, hx⟩ => ⟨m, List.mem_cons_of_mem l hm, hx⟩

/-- The last element of the last piece. -/
theorem getLast?_intercalate (sep : List α) {ls : List (List α)} {P : α → Prop}
    (hne : ls ≠ []) (h : ∀ l ∈ ls, ∃ x, l.getLast? = some x ∧ P x) :
    ∃ x, (sep.intercalate ls).getLast? = some x ∧ P x := by
  induction ls with
  | nil => exact absurd rfl hne
  | cons l ls ih =>
    rw [List.forall_mem_cons] at h
    cases ls with
    | nil => simpa using h.1
    | cons l' ls =>
      obtain ⟨x, hx, hP⟩ := ih (by simp) h.2
      exact ⟨x, by rw [List.intercalate_cons_cons, List.getLast?_append, hx]; rfl, hP⟩

theorem map_intercalate (f : α → β) (sep : List α) (ls : List (List α)) :
    (sep.intercalate ls).map f = (sep.map f).intercalate (ls.map (List.map f)) := by
  induction ls with
  | nil => rfl
  | cons l ls ih =>
    cases ls with
    | nil => simp
    | cons l' ls =>
      rw [List.intercalate_cons_cons, List.map_append, List.map_append, ih]
      simp [List.intercalate_cons_cons]

theorem mem_intercalate_of_mem (sep : List α) {ls : List (List α)} {l : List α} {x : α}
    (hl : l ∈ ls) (hx : x ∈ l) : x ∈ sep.intercalate ls := by
  induction ls with
  | nil => cases hl
  | cons m ls ih =>
    cases ls with
    | nil =>
      rw [List.mem_singleton] at hl
      rwa [List.intercalate_singleton, ← hl]
    | cons m' ls =>
      rw [List.intercalate_cons_cons, List.mem_append, List.mem_append]
      rcases List.mem_cons.mp hl with rfl | hl
      · exact .inl (.inl hx)
      · exact .inr (ih hl)

theorem count_intercalate [DecidableEq α] {sep : List α} {x : α} (h : x ∉ sep)
    (ls : List (List α)) : (sep.intercalate ls).count x = (ls.map (List.count x)).sum := by
  induction ls with
  | nil => rfl
  | cons l ls ih =>
    cases ls with
    | nil => simp
    | cons l' ls =>
      rw [List.intercalate_cons_cons, List.count_append, List.count_append, ih,
        List.count_eq_zero.mpr h]
      simp

/-! ## Splitting -/

/-- A list is split piece by piece. -/
theorem splitOn_induction [DecidableEq α] {x : α} {P : List α → List (List α) → Prop}
    (last : ∀ l, x ∉ l → P l [l])
    (more : ∀ a b, x ∉ a → P b (b.splitOn x) → P (a ++ x :: b) (a :: b.splitOn x)) (l : List α) :
    P l (l.splitOn x) := by
  induction hn : l.length using Nat.strongRecOn generalizing l with
  | _ n ih =>
    subst hn
    by_cases hx : x ∈ l
    · obtain ⟨a, b, rfl, ha⟩ := List.eq_append_cons_of_mem hx
      have hlt : b.length < (a ++ x :: b).length := by
        rw [List.length_append, List.length_cons]
        omega
      rw [List.splitOn_append_cons_self_of_not_mem ha]
      exact more a b ha (ih _ hlt b rfl)
    · rw [List.splitOn_eq_singleton hx]
      exact last l hx

theorem length_splitOn [DecidableEq α] (x : α) (l : List α) :
    (l.splitOn x).length = 1 + l.count x := by
  induction l using splitOn_induction (x := x) with
  | last l hl => rw [List.length_singleton, List.count_eq_zero.mpr hl]
  | more a b ha ih =>
    rw [List.length_cons, ih, List.count_append, List.count_cons_self, List.count_eq_zero.mpr ha]
    omega

/-! ## Pieces with an end each -/

/-- Lines with an end each are as many pieces and an empty one. -/
theorem flatMap_line (x : α) (ls : List (List α)) :
    ls.flatMap (· ++ [x]) = [x].intercalate (ls ++ [[]]) := by
  induction ls with
  | nil => rfl
  | cons l ls ih =>
    obtain ⟨m, ms, hm⟩ := List.exists_cons_of_ne_nil (List.append_ne_nil_of_right_ne_nil ls
      (List.cons_ne_nil ([] : List α) []))
    rw [List.flatMap_cons, ih, List.cons_append, hm, List.intercalate_cons_cons]

theorem flatMap_line_inj [DecidableEq α] {x : α} {ls ms : List (List α)}
    (hls : ∀ l ∈ ls, x ∉ l) (hms : ∀ m ∈ ms, x ∉ m)
    (h : ls.flatMap (· ++ [x]) = ms.flatMap (· ++ [x])) : ls = ms := by
  have hsplit : ∀ {ns : List (List α)}, (∀ n ∈ ns, x ∉ n) →
      (ns.flatMap (· ++ [x])).splitOn x = ns ++ [[]] := by
    intro ns hns
    rw [flatMap_line]
    refine List.splitOn_intercalate x ?_ (by simp)
    rw [List.forall_mem_append]
    exact ⟨hns, by simp⟩
  have heq := hsplit hls
  rw [h, hsplit hms] at heq
  exact (List.append_left_injective _ heq).symm

/-! ## Pieces between two separators -/

section inner
variable [DecidableEq α] {x : α}

/-- The pieces with a separator before and behind them. -/
def inner (x : α) (l : List α) : List (List α) := (l.splitOn x).tail.dropLast

theorem inner_of_not_mem {l : List α} (h : x ∉ l) : inner x l = [] := by
  rw [inner, List.splitOn_eq_singleton h]
  rfl

/-- What has no separator goes to the first piece. -/
theorem splitOn_append_left {a l : List α} (h : x ∉ a) {p : List α} {ps : List (List α)}
    (hl : l.splitOn x = p :: ps) : (a ++ l).splitOn x = (a ++ p) :: ps := by
  induction a with
  | nil => exact hl
  | cons y a ih =>
    rw [List.mem_cons, not_or] at h
    have hy : (y == x) = false := beq_false_of_ne (Ne.symm h.1)
    rw [List.cons_append, List.splitOn_cons_eq_if_modifyHead, hy, if_neg (by simp), ih h.2]
    rfl

theorem inner_append_left {a : List α} (h : x ∉ a) (l : List α) : inner x (a ++ l) = inner x l := by
  obtain ⟨p, ps, hp⟩ := List.exists_cons_of_ne_nil (List.splitOn_ne_nil x l)
  rw [inner, inner, splitOn_append_left h hp, hp]
  rfl

theorem inner_append_right {b : List α} (h : x ∉ b) (l : List α) : inner x (l ++ b) = inner x l := by
  have hlast : ((l ++ b).splitOn x).dropLast = (l.splitOn x).dropLast := by
    induction l with
    | nil => rw [List.nil_append, List.splitOn_eq_singleton h]; rfl
    | cons y l ih =>
      obtain ⟨p, ps, hp⟩ := List.exists_cons_of_ne_nil (List.splitOn_ne_nil x l)
      obtain ⟨q, qs, hq⟩ := List.exists_cons_of_ne_nil (List.splitOn_ne_nil x (l ++ b))
      rw [hp, hq] at ih
      rw [List.cons_append, List.splitOn_cons_eq_if_modifyHead, List.splitOn_cons_eq_if_modifyHead,
        hp, hq]
      split
      · rw [List.dropLast_cons_cons, List.dropLast_cons_cons, ih]
      · -- the first piece grows on both sides
        cases ps with
        | nil =>
          cases qs with
          | nil => rfl
          | cons r qs => cases ih
        | cons r ps =>
          cases qs with
          | nil => cases ih
          | cons r' qs =>
            rw [List.dropLast_cons_cons, List.dropLast_cons_cons, List.cons.injEq] at ih
            simp [List.modifyHead, ih.1, ih.2]
  have hcomm : ∀ ls : List (List α), ls.tail.dropLast = ls.dropLast.tail := by
    intro ls
    match ls with
    | [] => rfl
    | [l] => rfl
    | l :: l' :: ls => rfl
  rw [inner, inner, hcomm, hcomm, hlast]

/-- What stands between two separators. -/
theorem inner_enclosed {a b : List α} (ha : x ∉ a) (hb : x ∉ b) (l : List α) :
    inner x (a ++ x :: (l ++ x :: b)) = l.splitOn x := by
  rw [inner, List.splitOn_append_cons_self, List.splitOn_append_cons_self, List.splitOn_eq_singleton ha,
    List.splitOn_eq_singleton hb, List.singleton_append, List.tail_cons, List.dropLast_concat]

/-- Pieces that follow one another, in the text or in the list of pieces. -/
theorem infix_iff_inner {ws : List (List α)} (hne : ws ≠ []) (hws : ∀ w ∈ ws, x ∉ w) (l : List α) :
    x :: ([x].intercalate ws ++ [x]) <:+: l ↔ ws <:+: inner x l := by
  constructor
  · rintro ⟨a, b, rfl⟩
    have hsplit : (a ++ x :: ([x].intercalate ws ++ [x]) ++ b).splitOn x =
        a.splitOn x ++ (ws ++ b.splitOn x) := by
      rw [List.append_assoc, List.cons_append, List.splitOn_append_cons_self, List.append_assoc,
        List.singleton_append, List.splitOn_append_cons_self, List.splitOn_intercalate x hws hne]
    refine ⟨(a.splitOn x).tail, (b.splitOn x).dropLast, ?_⟩
    rw [inner, hsplit, List.tail_append_of_ne_nil (List.splitOn_ne_nil x a),
      List.dropLast_append_of_ne_nil (by simp [hne]),
      List.dropLast_append_of_ne_nil (List.splitOn_ne_nil x b), List.append_assoc]
  · rintro ⟨s, t, heq⟩
    obtain ⟨p, ps, hp⟩ := List.exists_cons_of_ne_nil (List.splitOn_ne_nil x l)
    have hps : ps ≠ [] := by
      rintro rfl
      rw [inner, hp] at heq
      simp [hne] at heq
    have hinner : ps = s ++ ws ++ t ++ [ps.getLast hps] := by
      rw [heq, inner, hp, List.tail_cons, List.dropLast_append_getLast hps]
    have hl : [x].intercalate ((p :: s) ++ (ws ++ (t ++ [ps.getLast hps]))) = l := by
      have hpieces : (p :: s) ++ (ws ++ (t ++ [ps.getLast hps])) = l.splitOn x := by
        rw [hp, List.cons_append, ← List.append_assoc, ← List.append_assoc, ← hinner]
      rw [hpieces, List.intercalate_splitOn]
    rw [intercalate_append [x] (by simp) (by simp), intercalate_append [x] hne (by simp)] at hl
    refine ⟨[x].intercalate (p :: s), [x].intercalate (t ++ [ps.getLast hps]), ?_⟩
    rw [← hl]
    simp

end inner

/-- Of two neighbours the first is not the last one of all. -/
theorem mem_dropLast_of_pair {p q : α} {l : List α} (h : [p, q] <:+: l) : p ∈ l.dropLast := by
  obtain ⟨s, t, rfl⟩ := h
  have happend : s ++ [p, q] ++ t = s ++ [p] ++ (q :: t) := by simp
  rw [happend, List.dropLast_append_cons]
  simp

/-! ## Matched lists -/

variable {R : α → β → Prop} {xs : List α} {ys : List β}

theorem mem_right_of_forall₂ (h : List.Forall₂ R xs ys) {b : β} (hb : b ∈ ys) : ∃ a ∈ xs, R a b := by
  induction h with
  | nil => cases hb
  | @cons a c xs ys hac _ ih =>
    rcases List.mem_cons.mp hb with rfl | hb
    · exact ⟨a, List.mem_cons_self, hac⟩
    · obtain ⟨a', ha', hrel⟩ := ih hb
      exact ⟨a', List.mem_cons_of_mem a ha', hrel⟩

theorem mem_left_of_forall₂ (h : List.Forall₂ R xs ys) {a : α} (ha : a ∈ xs) : ∃ b ∈ ys, R a b :=
  mem_right_of_forall₂ h.flip ha

/-- Members with a partner each are matched. -/
theorem exists_forall₂ {Q : β → Prop} (h : ∀ a ∈ xs, ∃ b, R a b ∧ Q b) :
    ∃ ys, List.Forall₂ R xs ys ∧ ∀ b ∈ ys, Q b := by
  induction xs with
  | nil => exact ⟨[], .nil, nofun⟩
  | cons a xs ih =>
    obtain ⟨⟨b, hab, hb⟩, hxs⟩ := List.forall_mem_cons.mp h
    obtain ⟨ys, hys, hQ⟩ := ih hxs
    exact ⟨b :: ys, .cons hab hys, List.forall_mem_cons.mpr ⟨hb, hQ⟩⟩

theorem map_eq_of_forall₂ {f : β → γ} {g : α → γ} (h : List.Forall₂ R xs ys)
    (hfg : ∀ x ∈ xs, ∀ y, R x y → f y = g x) : ys.map f = xs.map g := by
  induction h with
  | nil => rfl
  | cons hxy _ ih =>
    rw [List.forall_mem_cons] at hfg
    rw [List.map_cons, List.map_cons, hfg.1 _ hxy, ih hfg.2]

end Pieces
