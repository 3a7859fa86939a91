import Catbench.CsvMerge.Model
import Mathlib.Data.List.Forall2

/-! # Tables and their texts

    The CSV files that `csvmerge` is made for: a header and at least one row,
    the same number of cells in every line, integers in increasing order in the
    first column, no space around a cell.

    * **Lines**: reading the text of a table gives its lines, and the line
      breaks only matter at their ends.
    * **Columns**: `firstcol` and `restcols` find the cells of a line.
-/

open Json (intText)
open Jaguar (Text isspace strip splitAt int readlines)

namespace CsvMerge

/-! ## Section 1: Tables -/

/-- There is no space around the text. -/
def Trimmed (t : Text) : Prop :=
  (∀ c ∈ t.head?, isspace c = false) ∧ ∀ c ∈ t.getLast?, isspace c = false

instance (t : Text) : Decidable (Trimmed t) :=
  @instDecidableAnd _ _ (Option.decidableForallMem t.head?) (Option.decidableForallMem t.getLast?)

/-- What a cell may hold. -/
structure IsCell (delim : Char) (cell : Text) : Prop where
  no_delim : delim ∉ cell
  no_break : '\n' ∉ cell
  trimmed : Trimmed cell

instance (delim : Char) (cell : Text) : Decidable (IsCell delim cell) :=
  decidable_of_iff (delim ∉ cell ∧ '\n' ∉ cell ∧ Trimmed cell)
    ⟨fun h => ⟨h.1, h.2.1, h.2.2⟩, fun h => ⟨h.no_delim, h.no_break, h.trimmed⟩⟩

/-- The line of some cells. -/
def line_of (delim : Char) (cells : List Text) : Text := List.intercalate [delim] cells

/-- A row: a key and `d` other cells. -/
structure Row (delim : Char) (d : ℕ) where
  key_cell : Text
  key : ℤ
  rest : List Text
  int_key : int key_cell = some key
  length_rest : rest.length = d
  is_cell : ∀ cell ∈ key_cell :: rest, IsCell delim cell

def Row.line {delim : Char} {d : ℕ} (row : Row delim d) : Text :=
  line_of delim (row.key_cell :: row.rest)

/-- A file: a header, and rows in strictly increasing order of their keys. -/
structure Table (delim : Char) (d : ℕ) where
  header : List Text
  rows : List (Row delim d)
  /-- Whether the last line ends in a line break. -/
  ended : Bool
  length_header : header.length = d + 1
  is_cell : ∀ cell ∈ header, IsCell delim cell
  rows_ne : rows ≠ []
  sorted : rows.Pairwise fun row row' => row.key < row'.key

/-- The lines with their line breaks. -/
def broken (ended : Bool) : List Text → List Text
  | [] => []
  | [line] => [if ended then line ++ ['\n'] else line]
  | line :: lines => (line ++ ['\n']) :: broken ended lines

variable {delim : Char} {d : ℕ}

def Table.lines (table : Table delim d) : List Text :=
  line_of delim table.header :: table.rows.map Row.line

def Table.text (table : Table delim d) : Text := (broken table.ended table.lines).flatten

/-- The row with a given key. -/
def Table.row (table : Table delim d) (k : ℤ) : Option (Row delim d) :=
  table.rows.find? fun row => decide (row.key = k)

/-! ## Section 2: Lines -/

/-- The text is the line, up to line breaks at its end. -/
def IsLine (line t : Text) : Prop := ∃ w, (∀ c ∈ w, c = '\n') ∧ t = line ++ w

theorem readlines_cons {line : Text} (hline : '\n' ∉ line) (t : Text) :
    readlines (line ++ '\n' :: t) = (line ++ ['\n']) :: readlines t := by
  induction line with
  | nil => rfl
  | cons c line ih =>
    obtain ⟨hc, hline⟩ := not_or.mp (mt List.mem_cons.mpr hline)
    rw [List.cons_append, readlines, if_neg (fun h => hc h.symm), ih hline]
    rfl

theorem readlines_last {line : Text} (hline : '\n' ∉ line) (hne : line ≠ []) :
    readlines line = [line] := by
  induction line with
  | nil => exact absurd rfl hne
  | cons c line ih =>
    obtain ⟨hc, hline⟩ := not_or.mp (mt List.mem_cons.mpr hline)
    show (if c = '\n' then _ else _) = _
    rw [if_neg (fun h => hc h.symm)]
    by_cases hnil : line = []
    · rw [hnil]
      rfl
    · rw [ih hline hnil]

/-- Reading finds the lines, unless the last one is empty. -/
theorem readlines_broken (ended : Bool) {lines : List Text} (hlines : ∀ line ∈ lines, '\n' ∉ line)
    (hne : ∀ line ∈ lines, line ≠ []) :
    readlines (broken ended lines).flatten = broken ended lines := by
  induction lines with
  | nil => rfl
  | cons line lines ih =>
    have hline := hlines line List.mem_cons_self
    cases lines with
    | nil =>
      show readlines ([_].flatten) = _
      rw [List.flatten_singleton]
      unfold broken
      cases ended with
      | false => exact readlines_last hline (hne line List.mem_cons_self)
      | true => exact readlines_cons hline []
    | cons line' lines =>
      have hrest := ih (fun l hl => hlines l (List.mem_cons_of_mem _ hl))
        (fun l hl => hne l (List.mem_cons_of_mem _ hl))
      show readlines (((line ++ ['\n']) :: broken ended (line' :: lines)).flatten) = _
      rw [List.flatten_cons, List.append_assoc, List.singleton_append,
        readlines_cons hline, hrest]
      rfl

theorem forall₂_isLine_broken (ended : Bool) (lines : List Text) :
    List.Forall₂ IsLine lines (broken ended lines) := by
  induction lines with
  | nil => exact List.Forall₂.nil
  | cons line lines ih =>
    have hbreak : IsLine line (line ++ ['\n']) := ⟨['\n'], by simp, rfl⟩
    cases lines with
    | nil =>
      refine List.Forall₂.cons ?_ List.Forall₂.nil
      cases ended with
      | false => exact ⟨[], by simp, (List.append_nil line).symm⟩
      | true => exact hbreak
    | cons line' lines => exact List.Forall₂.cons hbreak ih

/-! ## Section 3: Cells -/

@[simp] theorem line_of_singleton (cell : Text) : line_of delim [cell] = cell := by
  simp [line_of]

theorem line_of_cons (cell : Text) {cells : List Text} (hne : cells ≠ []) :
    line_of delim (cell :: cells) = cell ++ delim :: line_of delim cells := by
  cases cells with
  | nil => exact absurd rfl hne
  | cons cell' cells => simp [line_of, List.intercalate]

theorem mem_line_of {cells : List Text} {c : Char} (hc : c ∈ line_of delim cells) :
    c = delim ∨ ∃ cell ∈ cells, c ∈ cell := by
  induction cells with
  | nil => cases hc
  | cons cell cells ih =>
    by_cases hnil : cells = []
    · rw [hnil, line_of_singleton] at hc
      exact Or.inr ⟨cell, List.mem_cons_self, hc⟩
    · rw [line_of_cons cell hnil, List.mem_append, List.mem_cons] at hc
      rcases hc with hc | hc | hc
      · exact Or.inr ⟨cell, List.mem_cons_self, hc⟩
      · exact Or.inl hc
      · rcases ih hc with h | ⟨cell', hmem, h⟩
        · exact Or.inl h
        · exact Or.inr ⟨cell', List.mem_cons_of_mem _ hmem, h⟩

/-- A line has one delimiter less than it has cells. -/
theorem count_line_of {cells : List Text} (hne : cells ≠ [])
    (hcells : ∀ cell ∈ cells, delim ∉ cell) :
    (line_of delim cells).count delim + 1 = cells.length := by
  induction cells with
  | nil => exact absurd rfl hne
  | cons cell cells ih =>
    have hcell : cell.count delim = 0 := List.count_eq_zero.mpr (hcells cell List.mem_cons_self)
    by_cases hnil : cells = []
    · rw [hnil, line_of_singleton, hcell]
      rfl
    · have hrest := ih hnil (fun c hc => hcells c (List.mem_cons_of_mem _ hc))
      rw [line_of_cons cell hnil, List.count_append, List.count_cons_self, hcell, List.length_cons]
      omega

/-- Trimmed cells make a trimmed line, since the delimiter is no space. -/
theorem trimmed_line_of (hdelim : isspace delim = false) {cells : List Text}
    (hcells : ∀ cell ∈ cells, Trimmed cell) : Trimmed (line_of delim cells) := by
  induction cells with
  | nil => exact ⟨by simp [line_of], by simp [line_of]⟩
  | cons cell cells ih =>
    have hcell := hcells cell List.mem_cons_self
    by_cases hnil : cells = []
    · rw [hnil, line_of_singleton]
      exact hcell
    · have hrest := ih (fun c hc => hcells c (List.mem_cons_of_mem _ hc))
      rw [line_of_cons cell hnil]
      constructor
      · intro c hc
        cases cell with
        | nil =>
          have : delim = c := by simpa using hc
          rw [← this]
          exact hdelim
        | cons c' cell => exact hcell.1 c (by simpa using hc)
      · intro c hc
        rw [List.getLast?_append_of_ne_nil _ (List.cons_ne_nil _ _)] at hc
        by_cases hempty : line_of delim cells = []
        · rw [hempty] at hc
          have : delim = c := by simpa using hc
          rw [← this]
          exact hdelim
        · rw [List.getLast?_cons_of_ne_nil hempty] at hc
          exact hrest.2 c hc

/-! ## Section 4: Columns -/

theorem strip_append {t w : Text} (ht : Trimmed t) (hw : ∀ c ∈ w, isspace c = true) :
    strip isspace (t ++ w) = t := by
  have hdrop : ∀ u : Text, (∀ c ∈ u, isspace c = true) → u.dropWhile isspace = [] := by
    intro u hu
    exact List.dropWhile_eq_nil_iff.mpr hu
  have hkeep : ∀ u : Text, (∀ c ∈ u.head?, isspace c = false) → u.dropWhile isspace = u := by
    intro u hu
    cases u with
    | nil => rfl
    | cons c u => exact List.dropWhile_cons_of_neg (by rw [hu c rfl]; exact Bool.false_ne_true)
  unfold strip
  by_cases hnil : t = []
  · rw [hnil, List.nil_append, hdrop w hw]
    rfl
  · have hfront : (t ++ w).dropWhile isspace = t ++ w := by
      apply hkeep
      rw [List.head?_append_of_ne_nil _ hnil]
      exact ht.1
    have hback : (w.reverse ++ t.reverse).dropWhile isspace = t.reverse := by
      rw [List.dropWhile_append, hdrop w.reverse (fun c hc => hw c (List.mem_reverse.mp hc))]
      apply hkeep
      rw [List.head?_reverse]
      exact ht.2
    rw [hfront, List.reverse_append, hback, List.reverse_reverse]

theorem splitAt_head {cell : Text} (hcell : delim ∉ cell) (t : Text) :
    (splitAt (· = delim) (cell ++ delim :: t)).headD [] = cell := by
  induction cell with
  | nil => simp [splitAt]
  | cons c cell ih =>
    obtain ⟨hc, hcell⟩ := not_or.mp (mt List.mem_cons.mpr hcell)
    have ih := ih hcell
    rw [List.cons_append, splitAt, if_neg (by simpa using fun h => hc h.symm)]
    cases hsplit : splitAt (· = delim) (cell ++ delim :: t) with
    | nil =>
      rw [hsplit] at ih
      rw [← ih]
      rfl
    | cons u us =>
      rw [hsplit] at ih
      rw [← ih]
      rfl

theorem drop_idxOf {cell : Text} (hcell : delim ∉ cell) (t : Text) :
    (cell ++ delim :: t).drop ((cell ++ delim :: t).idxOf delim + 1) = t := by
  rw [List.idxOf_append_of_notMem hcell, List.idxOf_cons_self, Nat.add_zero,
    ← List.drop_drop, List.drop_left]
  rfl

/-- `restcols` finds the cells after the first one, whatever line breaks follow. -/
theorem restcols_line (hdelim : isspace delim = false) {cell : Text} {cells : List Text}
    (hne : cells ≠ []) (hcells : ∀ c ∈ cell :: cells, IsCell delim c) {t : Text}
    (ht : IsLine (line_of delim (cell :: cells)) t) :
    restcols delim (some t) = .ok (some (line_of delim cells)) := by
  obtain ⟨w, hw, rfl⟩ := ht
  have hcell := (hcells cell List.mem_cons_self).no_delim
  have hspace : ∀ c ∈ w, isspace c = true := by
    intro c hc
    rw [hw c hc]
    rfl
  rw [line_of_cons cell hne, List.append_assoc, List.cons_append]
  rw [restcols, if_pos (by simp), drop_idxOf hcell, strip_append _ hspace]
  exact trimmed_line_of hdelim fun c hc => (hcells c (List.mem_cons_of_mem _ hc)).trimmed

/-- `firstcol` finds the key of a row. -/
theorem firstcol_row (hd : 0 < d) (row : Row delim d) {t : Text} (ht : IsLine row.line t) :
    firstcol delim (some t) = .ok (.int row.key) := by
  obtain ⟨w, -, rfl⟩ := ht
  have hne : row.rest ≠ [] := List.ne_nil_of_length_pos (by rw [row.length_rest]; exact hd)
  have hcell := (row.is_cell row.key_cell List.mem_cons_self).no_delim
  unfold Row.line
  rw [line_of_cons _ hne, List.append_assoc, List.cons_append]
  rw [firstcol, splitAt_head hcell, row.int_key]

end CsvMerge
