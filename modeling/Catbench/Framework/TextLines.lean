import Mathlib.Data.List.Basic
import Mathlib.Tactic.Common

/-! # Texts as lines

    A text is its lines, each ended by a line break, and a rest after the last
    line break, which may be empty.

    * **Splitting**: `split` gives back the lines that `join` put together, if
      there are no line breaks in them.
    * **Editing**: `edit` rewrites one line in place and leaves the end of the
      text as it is.
    * **Tools**: what `sed` and `paste` make of the lines of a text.
-/

namespace TextLines

/-- The ended lines, and the rest. -/
def split : List Char → List (List Char) × List Char
  | [] => ([], [])
  | c :: t =>
    if c = '\n' then ([] :: (split t).1, (split t).2)
    else
      match (split t).1 with
      | [] => ([], c :: (split t).2)
      | line :: lines => ((c :: line) :: lines, (split t).2)

def join (lines : List (List Char)) (rest : List Char) : List Char :=
  lines.flatMap (· ++ ['\n']) ++ rest

/-- The lines that a line break ends. -/
def ended (t : List Char) : List (List Char) := (split t).1

/-- What follows the last line break. -/
def rest (t : List Char) : List Char := (split t).2

/-- All lines; the last one may not be ended. -/
def lines (t : List Char) : List (List Char) :=
  if rest t = [] then ended t else ended t ++ [rest t]

/-- Rewrite the line with the given number, counted from 1. -/
def edit (n : ℕ) (f : List Char → List Char) (t : List Char) : List Char :=
  if n = 0 then t
  else if n ≤ (ended t).length then join ((ended t).modify (n - 1) f) (rest t)
  else if n = (lines t).length then join (ended t) (f (rest t))
  else t

variable {t : List Char}

/-! ## Splitting -/

theorem ended_cons {c : Char} (hc : c ≠ '\n') (t : List Char) :
    ended (c :: t) = match ended t with
      | [] => []
      | line :: lines => (c :: line) :: lines := by
  unfold ended
  rw [split, if_neg hc]
  cases (split t).1 with
  | nil => rfl
  | cons line lines => rfl

theorem rest_cons {c : Char} (hc : c ≠ '\n') (t : List Char) :
    rest (c :: t) = match ended t with
      | [] => c :: rest t
      | _ :: _ => rest t := by
  unfold rest ended
  rw [split, if_neg hc]
  cases (split t).1 with
  | nil => rfl
  | cons line lines => rfl

/-- There is no line break in a line or in the rest. -/
theorem no_break (t : List Char) : (∀ line ∈ ended t, '\n' ∉ line) ∧ '\n' ∉ rest t := by
  induction t with
  | nil => exact ⟨by simp [ended, split], by simp [rest, split]⟩
  | cons c t ih =>
    obtain ⟨hlines, hrest⟩ := ih
    by_cases hc : c = '\n'
    · subst hc
      refine ⟨?_, hrest⟩
      intro line hline
      rcases List.mem_cons.mp hline with heq | hmem
      · rw [heq]
        exact List.not_mem_nil
      · exact hlines line hmem
    · rw [ended_cons hc, rest_cons hc]
      cases hended : ended t with
      | nil =>
        refine ⟨by simp, ?_⟩
        simp only [List.mem_cons, not_or]
        exact ⟨fun h => hc h.symm, hrest⟩
      | cons line lines =>
        rw [hended] at hlines
        refine ⟨?_, hrest⟩
        intro line' hline'
        rcases List.mem_cons.mp hline' with heq | hmem
        · rw [heq, List.mem_cons, not_or]
          exact ⟨fun h => hc h.symm, hlines line List.mem_cons_self⟩
        · exact hlines line' (List.mem_cons_of_mem _ hmem)

theorem lines_break (t : List Char) : lines ('\n' :: t) = [] :: lines t := by
  have hended : ended ('\n' :: t) = [] :: ended t := rfl
  have hrest : rest ('\n' :: t) = rest t := rfl
  unfold lines
  rw [hended, hrest]
  split <;> rfl

theorem lines_cons {c : Char} (hc : c ≠ '\n') (t : List Char) :
    lines (c :: t) = match lines t with
      | [] => [[c]]
      | line :: lines => (c :: line) :: lines := by
  unfold lines
  rw [ended_cons hc, rest_cons hc]
  cases ended t with
  | nil => by_cases hrest : rest t = [] <;> simp [hrest]
  | cons line lines => by_cases hrest : rest t = [] <;> simp [hrest]

theorem no_break_lines {line : List Char} (hline : line ∈ lines t) : '\n' ∉ line := by
  obtain ⟨hended, hrest⟩ := no_break t
  unfold lines at hline
  split at hline
  · exact hended line hline
  · rcases List.mem_append.mp hline with hmem | hmem
    · exact hended line hmem
    · rw [List.mem_singleton.mp hmem]
      exact hrest

theorem split_append_break {line : List Char} (hline : '\n' ∉ line) (t : List Char) :
    split (line ++ '\n' :: t) = (line :: ended t, rest t) := by
  induction line with
  | nil => rfl
  | cons c line ih =>
    obtain ⟨hc, hline⟩ := not_or.mp (mt List.mem_cons.mpr hline)
    rw [List.cons_append, split, if_neg (fun h => hc h.symm), ih hline]

theorem split_of_no_break {line : List Char} (hline : '\n' ∉ line) : split line = ([], line) := by
  induction line with
  | nil => rfl
  | cons c line ih =>
    obtain ⟨hc, hline⟩ := not_or.mp (mt List.mem_cons.mpr hline)
    rw [split, if_neg (fun h => hc h.symm), ih hline]

theorem split_join {lines : List (List Char)} {last : List Char}
    (hlines : ∀ line ∈ lines, '\n' ∉ line) (hlast : '\n' ∉ last) :
    split (join lines last) = (lines, last) := by
  induction lines with
  | nil => exact split_of_no_break hlast
  | cons line lines ih =>
    have hrest := ih fun l hl => hlines l (List.mem_cons_of_mem _ hl)
    have hjoin : join (line :: lines) last = line ++ '\n' :: join lines last := by
      simp [join]
    rw [hjoin, split_append_break (hlines line List.mem_cons_self), ended, rest, hrest]

/-- The lines of lines that were put together again. -/
theorem lines_join {lines : List (List Char)} (hlines : ∀ line ∈ lines, '\n' ∉ line) :
    TextLines.lines (join lines []) = lines := by
  have hsplit := split_join hlines (List.not_mem_nil (a := '\n'))
  rw [TextLines.lines, rest, ended, hsplit, if_pos rfl]

theorem join_eq_intercalate {lines : List (List Char)} (hne : lines ≠ []) :
    join lines [] = ['\n'].intercalate lines ++ ['\n'] := by
  induction lines with
  | nil => exact absurd rfl hne
  | cons line lines ih =>
    cases lines with
    | nil => simp [join]
    | cons line' lines =>
      have hjoin : join (line :: line' :: lines) [] = line ++ ['\n'] ++ join (line' :: lines) [] := by
        simp [join]
      rw [hjoin, ih (by simp), List.intercalate_cons_cons, List.append_assoc, List.append_assoc]
      simp

theorem count_break (t : List Char) : t.count '\n' = (ended t).length := by
  induction t with
  | nil => rfl
  | cons c t ih =>
    by_cases hc : c = '\n'
    · subst hc
      rw [List.count_cons_self, ih]
      rfl
    · rw [List.count_cons_of_ne hc, ih, ended_cons hc]
      cases ended t with
      | nil => rfl
      | cons line lines => rfl

/-! ## Editing -/

theorem mem_modify {α : Type*} {f : α → α} {xs : List α} {i : ℕ} {y : α} (hy : y ∈ xs.modify i f) :
    ∃ x ∈ xs, y = x ∨ y = f x := by
  obtain ⟨j, hj⟩ := List.getElem?_of_mem hy
  rw [List.getElem?_modify] at hj
  obtain ⟨x, hx, hxy⟩ := Option.map_eq_some_iff.mp hj
  refine ⟨x, List.mem_of_getElem? hx, ?_⟩
  by_cases hij : i = j
  · right
    rw [← hxy, if_pos hij]
  · left
    rw [← hxy, if_neg hij]

/-- Editing an ended line changes that line only. -/
theorem split_edit {f : List Char → List Char} (hf : ∀ line, '\n' ∉ line → '\n' ∉ f line)
    {n : ℕ} (hpos : 0 < n) (hn : n ≤ (ended t).length) :
    split (edit n f t) = ((ended t).modify (n - 1) f, rest t) := by
  obtain ⟨hlines, hrest⟩ := no_break t
  unfold edit
  rw [if_neg (Nat.ne_of_gt hpos), if_pos hn]
  apply split_join _ hrest
  intro line hline
  -- every line is an old one or the edited one, and has no line break
  obtain ⟨x, hx, h⟩ := mem_modify hline
  rcases h with h | h
  · rw [h]
    exact hlines x hx
  · rw [h]
    exact hf x (hlines x hx)

/-! ## One line and what stands around it -/

/-- The line with the given number, the lines before it, and the text behind it. -/
structure LineAt (t : List Char) (n : ℕ) (before : List (List Char)) (line back : List Char) :
    Prop where
  text : t = join before (line ++ back)
  number : before.length + 1 = n
  unbroken : ∀ l ∈ before, '\n' ∉ l
  no_break : '\n' ∉ line
  /-- The line is ended, or it is the last one. -/
  back : back.head? = some '\n' ∨ back = [] ∧ line ≠ []

/-- Lines in front of a text are its first lines. -/
theorem split_join_append {before : List (List Char)} (h : ∀ l ∈ before, '\n' ∉ l)
    (u : List Char) : split (join before u) = (before ++ ended u, rest u) := by
  induction before with
  | nil => rfl
  | cons line before ih =>
    have hjoin : join (line :: before) u = line ++ '\n' :: join before u := by simp [join]
    have hbefore := ih fun l hl => h l (List.mem_cons_of_mem _ hl)
    rw [hjoin, split_append_break (h line List.mem_cons_self), ended, rest, hbefore]
    rfl

theorem join_ended (t : List Char) : join (ended t) (rest t) = t := by
  induction t with
  | nil => rfl
  | cons c t ih =>
    by_cases hc : c = '\n'
    · subst hc
      show join ([] :: ended t) (rest t) = _
      simpa [join] using ih
    · rw [ended_cons hc, rest_cons hc]
      cases hended : ended t with
      | nil =>
        rw [hended] at ih
        exact congrArg (c :: ·) ih
      | cons line lines =>
        rw [hended] at ih
        exact congrArg (c :: ·) ih

theorem join_append (before after : List (List Char)) (u : List Char) :
    join (before ++ after) u = join before (join after u) := by
  simp [join]

/-- Every line stands somewhere. -/
theorem exists_lineAt {n : ℕ} (hpos : 0 < n) (hle : n ≤ (lines t).length) :
    ∃ before line back, LineAt t n before line back := by
  obtain ⟨hlines, hrest⟩ := no_break t
  have htake : ∀ l ∈ (ended t).take (n - 1), '\n' ∉ l := fun l hl =>
    hlines l (List.mem_of_mem_take hl)
  by_cases hn : n ≤ (ended t).length
  · -- an ended line, with its line break and the later lines behind it
    have hlt : n - 1 < (ended t).length := by omega
    refine ⟨(ended t).take (n - 1), (ended t)[n - 1],
      '\n' :: join ((ended t).drop n) (rest t), ?_, ?_, htake, hlines _ (List.getElem_mem hlt),
      .inl rfl⟩
    · have hdrop : (ended t).drop (n - 1) = (ended t)[n - 1] :: (ended t).drop n := by
        rw [List.drop_eq_getElem_cons hlt, Nat.sub_add_cancel hpos]
      calc t = join ((ended t).take (n - 1) ++ (ended t).drop (n - 1)) (rest t) := by
            rw [List.take_append_drop, join_ended]
        _ = _ := by
            rw [join_append, hdrop]
            simp [join]
    · rw [List.length_take]
      omega
  · -- the rest, which is a line unless it is empty
    unfold lines at hle
    split at hle
    · exact absurd hle hn
    · next hne =>
      rw [List.length_append, List.length_singleton] at hle
      refine ⟨ended t, rest t, [], ?_, by omega, hlines, hrest, .inr ⟨rfl, hne⟩⟩
      rw [List.append_nil, join_ended]

section LineAt
variable {n m : ℕ} {before : List (List Char)} {line back : List Char}
  {f : List Char → List Char}

theorem join_cons (line : List Char) (before : List (List Char)) (u : List Char) :
    join (line :: before) u = line ++ '\n' :: join before u := by
  simp [join]

theorem ended_append_break (hline : '\n' ∉ line) (u : List Char) :
    ended (line ++ '\n' :: u) = line :: ended u := by
  rw [ended, split_append_break hline]

theorem rest_append_break (hline : '\n' ∉ line) (u : List Char) :
    rest (line ++ '\n' :: u) = rest u := by
  rw [rest, split_append_break hline]

theorem edit_first (hline : '\n' ∉ line) (u : List Char) :
    edit 1 f (line ++ '\n' :: u) = f line ++ '\n' :: u := by
  have hended : ended (line ++ '\n' :: u) = line :: ended u := ended_append_break hline u
  have hrest : rest (line ++ '\n' :: u) = rest u := rest_append_break hline u
  rw [edit, if_neg Nat.one_ne_zero, hended, hrest, if_pos (by simp), List.modify_zero_cons, join_cons,
    join_ended]

/-- A last line that is not ended. -/
theorem edit_only (hline : '\n' ∉ line) (hne : line ≠ []) (k : ℕ) :
    edit (k + 1) f line = if k = 0 then f line else line := by
  have hsplit := split_of_no_break hline
  have hended : ended line = [] := by rw [ended, hsplit]
  have hrest : rest line = line := by rw [rest, hsplit]
  have hlines : (lines line).length = 1 := by
    rw [lines, hended, hrest, if_neg hne]
    rfl
  rw [edit, if_neg (Nat.succ_ne_zero k), hended, hrest, if_neg (by simp), hlines]
  simp only [Nat.add_eq_right]
  rfl

theorem edit_later (hline : '\n' ∉ line) {k : ℕ} (hk : 0 < k) (u : List Char) :
    edit (k + 1) f (line ++ '\n' :: u) = line ++ '\n' :: edit k f u := by
  have hended : ended (line ++ '\n' :: u) = line :: ended u := ended_append_break hline u
  have hrest : rest (line ++ '\n' :: u) = rest u := rest_append_break hline u
  have hlength : (lines (line ++ '\n' :: u)).length = (lines u).length + 1 := by
    unfold lines
    rw [hended, hrest]
    split <;> simp
  obtain ⟨j, rfl⟩ : ∃ j, k = j + 1 := ⟨k - 1, by omega⟩
  unfold edit
  rw [if_neg (Nat.succ_ne_zero _), if_neg (Nat.succ_ne_zero j), hended, hrest, hlength,
    List.length_cons]
  by_cases hle : j + 1 ≤ (ended u).length
  · rw [if_pos hle, if_pos (Nat.succ_le_succ hle), Nat.add_sub_cancel, List.modify_succ_cons,
      join_cons]
    rfl
  · rw [if_neg hle, if_neg (by omega)]
    by_cases hlast : j + 1 = (lines u).length
    · rw [if_pos hlast, if_pos (by omega), join_cons]
    · rw [if_neg hlast, if_neg (by omega)]

/-- Lines are edited as they are in what follows some lines. -/
theorem edit_behind (h : ∀ l ∈ before, '\n' ∉ l) {k : ℕ} (hk : 0 < k) (u : List Char) :
    edit (before.length + k) f (join before u) = join before (edit k f u) := by
  induction before with
  | nil =>
    show edit (0 + k) f u = edit k f u
    rw [Nat.zero_add]
  | cons line before ih =>
    have hnumber : (line :: before).length + k = before.length + k + 1 := by
      rw [List.length_cons]
      omega
    rw [hnumber, join_cons, join_cons, edit_later (h line List.mem_cons_self) (by omega),
      ih fun l hl => h l (List.mem_cons_of_mem _ hl)]

/-- A line in front of a text is edited in its place. -/
theorem edit_before (h : ∀ l ∈ before, '\n' ∉ l) {k : ℕ} (hk : k < before.length) (u : List Char) :
    edit (k + 1) f (join before u) = join (before.modify k f) u := by
  induction before generalizing k with
  | nil => exact absurd hk (Nat.not_lt_zero k)
  | cons line before ih =>
    have hline := h line List.mem_cons_self
    rw [join_cons]
    cases k with
    | zero => rw [Nat.zero_add, edit_first hline, List.modify_zero_cons, join_cons]
    | succ k =>
      rw [edit_later hline (Nat.succ_pos k), List.modify_succ_cons, join_cons,
        ih (fun l hl => h l (List.mem_cons_of_mem _ hl)) (Nat.lt_of_succ_lt_succ hk)]

/-- The lines of a text around a line. -/
theorem LineAt.cases (h : LineAt t n before line back) :
    (∃ u, back = '\n' :: u ∧ ended t = before ++ line :: ended u) ∨
      back = [] ∧ ended t = before ∧ rest t = line ∧ line ≠ [] := by
  have hsplit := split_join_append h.unbroken (line ++ back)
  rw [← h.text] at hsplit
  rcases h.back with hback | ⟨hback, hne⟩
  · obtain ⟨u, rfl⟩ : ∃ u, back = '\n' :: u := List.head?_eq_some_iff.mp hback
    rw [ended_append_break h.no_break] at hsplit
    exact .inl ⟨u, rfl, by rw [ended, hsplit]⟩
  · rw [hback, List.append_nil, ended, rest, split_of_no_break h.no_break, List.append_nil] at hsplit
    exact .inr ⟨hback, by rw [ended, hsplit], by rw [rest, hsplit], hne⟩

/-- Editing the line leaves what stands around it. -/
theorem LineAt.edit (h : LineAt t n before line back) (hbreak : '\n' ∉ f line)
    (hne : f line ≠ []) : LineAt (edit n f t) n before (f line) back := by
  refine ⟨?_, h.number, h.unbroken, hbreak, h.back.imp id fun hlast => ⟨hlast.1, hne⟩⟩
  rw [h.text, ← h.number, edit_behind h.unbroken Nat.one_pos]
  congr 1
  rcases h.back with hback | ⟨hback, hline⟩
  · obtain ⟨u, rfl⟩ : ∃ u, back = '\n' :: u := List.head?_eq_some_iff.mp hback
    exact edit_first h.no_break u
  · rw [hback, List.append_nil, List.append_nil]
    exact edit_only h.no_break hline 0

/-- Editing another line leaves the line, and whether it is ended. -/
theorem LineAt.edit_of_ne (h : LineAt t n before line back) (hm : m ≠ n)
    (hbreak : ∀ l, '\n' ∉ l → '\n' ∉ f l) :
    ∃ before' back', LineAt (TextLines.edit m f t) n before' line back' ∧
      (back' = [] ↔ back = []) := by
  rcases Nat.eq_zero_or_pos m with rfl | hpos
  · exact ⟨before, back, h, Iff.rfl⟩
  rcases Nat.lt_or_gt_of_ne hm with hlt | hgt
  · -- a line before it
    obtain ⟨k, rfl⟩ : ∃ k, m = k + 1 := ⟨m - 1, by omega⟩
    have hk : k < before.length := by
      have := h.number
      omega
    refine ⟨before.modify k f, back, ⟨?_, ?_, ?_, h.no_break, h.back⟩, Iff.rfl⟩
    · rw [h.text, edit_before h.unbroken hk]
    · rw [List.length_modify, h.number]
    · intro l hl
      obtain ⟨x, hx, hor⟩ := mem_modify hl
      rcases hor with rfl | rfl
      · exact h.unbroken _ hx
      · exact hbreak x (h.unbroken x hx)
  · -- a line behind it, if there is one
    obtain ⟨k, rfl⟩ : ∃ k, m = before.length + (k + 1) + 1 :=
      ⟨m - before.length - 2, by have := h.number; omega⟩
    rcases h.back with hback | ⟨hback, hline⟩
    · obtain ⟨u, rfl⟩ : ∃ u, back = '\n' :: u := List.head?_eq_some_iff.mp hback
      refine ⟨before, '\n' :: TextLines.edit (k + 1) f u, ⟨?_, h.number, h.unbroken, h.no_break,
        .inl rfl⟩, by simp⟩
      rw [h.text, Nat.add_assoc, edit_behind h.unbroken (Nat.succ_pos _),
        edit_later h.no_break (Nat.succ_pos k)]
    · refine ⟨before, back, ⟨?_, h.number, h.unbroken, h.no_break, h.back⟩, Iff.rfl⟩
      rw [h.text, hback, List.append_nil, Nat.add_assoc, edit_behind h.unbroken (Nat.succ_pos _)]
      exact congrArg _ (edit_only h.no_break hline (k + 1))

end LineAt

/-! ## Tools -/

/-- A `sed` script that edits every line by itself. -/
def sed (script : List Char → List Char) (t : List Char) : List Char :=
  join ((lines t).map script) []

/-- Lines with the delimiters between them, over and over; `ds` are those that are
    left of this turn. -/
def pasteFrom (delims : List Char) : List Char → List (List Char) → List Char
  | _, [] => ['\n']
  | _, [l] => l ++ ['\n']
  | [], l :: _ :: _ => l
  | d :: ds, l :: l' :: ls =>
    l ++ d :: pasteFrom delims (if ds = [] then delims else ds) (l' :: ls)

/-- `paste -sd`, which fails without delimiters. -/
def paste (delims : List Char) (ls : List (List Char)) : List Char :=
  if delims = [] then [] else pasteFrom delims delims ls

theorem paste_single (d : Char) (ls : List (List Char)) :
    paste [d] ls = [d].intercalate ls ++ ['\n'] := by
  rw [paste, if_neg (by simp)]
  induction ls with
  | nil => rfl
  | cons l ls ih =>
    cases ls with
    | nil => simp [pasteFrom]
    | cons l' ls =>
      rw [pasteFrom, if_pos rfl, ih, List.intercalate_cons_cons]
      simp

end TextLines
