import Catbench.Framework.Pieces
import Catbench.Strip.Model

/-! # The script on lines

    Joining the lines with carriage returns lets a line script see two lines at
    once.  On lines that are not blank, what it does is to take the comma off each
    line that a closing line follows (`strip_lines`).
-/

open Layouts TextLines
open Jaguar (Text)

namespace Strip

/-! ## Section 1: Mending -/

theorem mend_cons {c : Char} {t : Text} (h : c ≠ ',' ∨ t.head? ≠ some '\r') :
    mend (c :: t) = c :: mend t := by
  rw [mend.eq_def]
  split
  · next heq =>
    obtain ⟨rfl, rfl⟩ := List.cons.inj heq
    rcases h with h | h
    · exact absurd rfl h
    · exact absurd rfl h
  · next heq =>
    obtain ⟨rfl, rfl⟩ := List.cons.inj heq
    rfl
  · next heq => cases heq

theorem unreturn_cons {c : Char} (h : c ≠ '\r') (t : Text) :
    unreturn (c :: t) = c :: unreturn t := by
  rw [unreturn, List.map_cons, if_neg h]
  rfl

theorem unreturn_line {l : Text} (h : '\r' ∉ l) : unreturn l = l := by
  induction l with
  | nil => rfl
  | cons c l ih =>
    rw [List.mem_cons, not_or] at h
    rw [unreturn_cons (Ne.symm h.1), ih h.2]

theorem mend_line {l : Text} (h : '\r' ∉ l) : mend l = l := by
  induction l with
  | nil => rfl
  | cons c l ih =>
    rw [List.mem_cons, not_or] at h
    have hhead : l.head? ≠ some '\r' := fun heq => h.2 (List.mem_of_mem_head? heq)
    rw [mend_cons (.inr hhead), ih h.2]

theorem trim_cons (c : Char) {l : Text} (hne : l ≠ []) : trim (c :: l) = c :: trim l := by
  obtain ⟨d, l, rfl⟩ := List.exists_cons_of_ne_nil hne
  unfold trim
  rw [List.getLast?_cons_cons]
  split
  · rfl
  · rfl

/-- One line and what follows it. -/
theorem unreturn_mend_line {l : Text} (h : '\r' ∉ l) (t : Text) :
    unreturn (mend (l ++ '\r' :: t)) =
      (if closes t then trim l else l) ++ '\n' :: unreturn (mend t) := by
  have hreturn : unreturn (mend ('\r' :: t)) = '\n' :: unreturn (mend t) := by
    rw [mend_cons (.inl (by decide))]
    rfl
  induction l with
  | nil => rw [List.nil_append, hreturn]; simp [trim]
  | cons c l ih =>
    rw [List.mem_cons, not_or] at h
    by_cases hlast : c = ',' ∧ l = []
    · -- the comma at the end of the line
      obtain ⟨rfl, rfl⟩ := hlast
      rw [List.cons_append, List.nil_append, mend]
      split
      · rfl
      · rw [unreturn_cons (by decide), hreturn]
        rfl
    · have hmend : mend (c :: (l ++ '\r' :: t)) = c :: mend (l ++ '\r' :: t) := by
        refine mend_cons ?_
        rcases not_and_or.mp hlast with hc | hl
        · exact .inl hc
        · obtain ⟨d, l, rfl⟩ := List.exists_cons_of_ne_nil hl
          rw [List.mem_cons, not_or] at h
          exact .inr fun heq => h.2.1 (Option.some.inj heq).symm
      have htrim : trim (c :: l) = c :: trim l := by
        by_cases hl : l = []
        · subst hl
          have hc : c ≠ ',' := fun hc => hlast ⟨hc, rfl⟩
          simp [trim, hc]
        · exact trim_cons c hl
      rw [List.cons_append, hmend, unreturn_cons (Ne.symm h.1), ih h.2, htrim]
      split
      · rfl
      · rfl

/-- All lines. -/
theorem unreturn_mend {ls : List Text} (h : ∀ l ∈ ls, IsLine l) :
    unreturn (mend (breaks '\r' ls)) = breaks '\n' (settle false ls) := by
  have hreturn : ∀ t, unreturn (mend ('\r' :: t)) = '\n' :: unreturn (mend t) := by
    intro t
    rw [mend_cons (.inl (by decide))]
    rfl
  induction ls with
  | nil => rfl
  | cons l ls ih =>
    obtain ⟨hl, hls⟩ := List.forall_mem_cons.mp h
    rw [breaks_cons, List.cons_append, hreturn, settle, breaks_cons]
    cases ls with
    | nil =>
      rw [breaks_nil, List.append_nil, mend_line hl.no_break.2, unreturn_line hl.no_break.2]
      simp [nextCloses, settle]
    | cons l' ls =>
      -- the next line decides about the comma
      have hnext : closes (l' ++ breaks '\r' ls) = closes l' :=
        (List.forall_mem_cons.mp hls).1.closes_append _
      have hrest := ih hls
      rw [breaks_cons, List.cons_append, hreturn] at hrest
      rw [breaks_cons, List.cons_append, unreturn_mend_line hl.no_break.2, hnext, hrest]
      rfl

/-! ## Section 2: The script -/

theorem breaks_eq (c : Char) {ls : List Text} (hne : ls ≠ []) :
    breaks c ls = c :: [c].intercalate ls := by
  induction ls with
  | nil => exact absurd rfl hne
  | cons l ls ih =>
    cases ls with
    | nil => simp
    | cons l' ls => rw [breaks_cons, ih (by simp), List.intercalate_cons_cons]; simp

theorem break_join (ls : List Text) : '\n' :: join ls [] = breaks '\n' ls ++ ['\n'] := by
  induction ls with
  | nil => rfl
  | cons l ls ih =>
    have hjoin : join (l :: ls) [] = l ++ '\n' :: join ls [] := by simp [join]
    rw [hjoin, ih, breaks_cons, List.cons_append, List.cons_append, List.append_assoc]

theorem strip_join {ls : List Text} (h : ∀ l ∈ ls, IsLine l) :
    strip (join ls []) = unreturn (mend (['\r'].intercalate (ls.filter keep))) ++ ['\n'] := by
  have hkept : ∀ l ∈ ls.filter keep, IsLine l := fun l hl => h l (List.mem_of_mem_filter hl)
  have hbreak : '\n' ∉ ['\r'].intercalate (ls.filter keep) := by
    intro hmem
    rcases Pieces.mem_intercalate hmem with hmem | ⟨l, hl, hmem⟩
    · exact absurd (List.mem_singleton.mp hmem) (by decide)
    · exact (hkept l hl).no_break.1 hmem
  have hone : ∀ l ∈ [['\r'].intercalate (ls.filter keep)], '\n' ∉ l := by
    simpa using hbreak
  have hlines := lines_join hone
  have hjoin : join [['\r'].intercalate (ls.filter keep)] [] =
      ['\r'].intercalate (ls.filter keep) ++ ['\n'] := by simp [join]
  rw [hjoin] at hlines
  rw [strip, grep, lines_join fun l hl => (h l hl).no_break.1, paste_single, sed, hlines]
  simp [join]

/-- The lines without the patterns, less the commas before closing lines. -/
theorem strip_lines {ls : List Text} (h : ∀ l ∈ ls, IsLine l) (hne : ls.filter keep ≠ []) :
    '\n' :: strip (join ls []) = breaks '\n' (settle false (ls.filter keep)) ++ ['\n'] := by
  have hkept : ∀ l ∈ ls.filter keep, IsLine l := fun l hl => h l (List.mem_of_mem_filter hl)
  have hmend := unreturn_mend hkept
  rw [breaks_eq '\r' hne, mend_cons (.inl (by decide))] at hmend
  rw [strip_join h, ← hmend]
  rfl

end Strip
