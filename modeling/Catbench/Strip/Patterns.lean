import Catbench.Framework.Json.Layouts
import Catbench.Strip.Model

/-! # Which lines have a pattern

    The patterns start and end with a quotation mark, so what counts is what stands
    between two quotation marks of a line.  A quotation mark in a string is written
    behind a backslash, which ends what stands before it; therefore a string has a
    pattern exactly if the pattern's word is all that follows its last quotation
    mark.
-/

open Json Layouts Pieces
open Jaguar (Text)

namespace Strip

/-! ## Section 1: Patterns and pieces -/

def perf_data : Text := "perf_data".toList

/-- The patterns of one word. -/
def words : List Text := ["log".toList, "patch".toList, "server_binary".toList]

/-- What the patterns have between their quotation marks. -/
def patternPieces : List (List Text) := [perf_data, [':', ' ']] :: words.map fun w => [w]

theorem patterns_eq :
    patterns = patternPieces.map fun ws => '"' :: (['"'].intercalate ws ++ ['"']) := by
  decide

theorem keep_iff (l : Text) :
    keep l = true ↔ ¬[perf_data, [':', ' ']] <:+: inner '"' l ∧ ∀ w ∈ words, w ∉ inner '"' l := by
  have hfree : ∀ ws ∈ patternPieces, ws ≠ [] ∧ ∀ w ∈ ws, '"' ∉ w := by decide
  have hpieces : keep l = true ↔ ∀ ws ∈ patternPieces, ¬ws <:+: inner '"' l := by
    rw [keep, patterns_eq, List.all_map, List.all_eq_true]
    refine forall_congr' fun ws => imp_congr_right fun hws => ?_
    rw [Function.comp_apply, Bool.not_eq_true', decide_eq_false_iff_not,
      infix_iff_inner (hfree ws hws).1 (hfree ws hws).2]
  rw [hpieces, patternPieces, List.forall_mem_cons, List.forall_mem_map]
  simp only [List.singleton_infix_iff]

/-- Tabs and the comma behind a line do not matter. -/
theorem keep_line (level : ℕ) (t : Text) {back : Text} (hback : IsBack back) :
    keep (indent level ++ t ++ back) = keep t := by
  have hindent : '"' ∉ indent level := fun hmem =>
    absurd (List.mem_replicate.mp hmem).2 (by decide)
  have hcomma : '"' ∉ back := by
    rcases hback with rfl | rfl
    · decide
    · decide
  rw [Bool.eq_iff_iff, keep_iff, keep_iff, inner_append_right hcomma, inner_append_left hindent]

theorem keep_silent {t : Text} (h : '"' ∉ t) : keep t = true := by
  rw [keep_iff, inner_of_not_mem h]
  simp

/-! ## Section 2: Strings -/

/-- A word of a pattern is all that follows the last quotation mark. -/
def Marked (s : Str) : Prop := afterQuote s.points ∈ words.map (List.map CodePoint.ofChar)

instance (s : Str) : Decidable (Marked s) := inferInstanceAs (Decidable (_ ∈ _))

/-- A piece without backslashes is the last one. -/
theorem mem_splitOn_escaped {w : Text} (hslash : '\\' ∉ w)
    (hw : (w.map CodePoint.ofChar).flatMap escapePoint = w) (l : List CodePoint) :
    w ∈ (l.flatMap escapePoint).splitOn '"' ↔ afterQuote l = w.map CodePoint.ofChar := by
  obtain ⟨ps, hps, hall, -⟩ := splitOn_escaped l
  rw [hps, List.mem_append, List.mem_singleton]
  constructor
  · intro h
    rcases h with h | h
    · exact absurd (hall w h) hslash
    · exact eq_of_escaped hslash h.symm
  · intro h
    rw [h, hw]
    exact .inr rfl

theorem words_plain : ∀ w ∈ perf_data :: words, '\\' ∉ w ∧
    (w.map CodePoint.ofChar).flatMap escapePoint = w := by
  decide

theorem marked_iff (s : Str) :
    Marked s ↔ ∃ w ∈ words, w ∈ (s.points.flatMap escapePoint).splitOn '"' := by
  rw [Marked, List.mem_map]
  refine exists_congr fun w => and_congr_right fun hw => ?_
  obtain ⟨hslash, hplain⟩ := words_plain w (List.mem_cons_of_mem _ hw)
  rw [mem_splitOn_escaped hslash hplain, eq_comm]

/-- What a line with a string holds between its quotation marks. -/
theorem inner_strText {front back : Text} (hfront : '"' ∉ front) (hback : '"' ∉ back) (s : Str) :
    inner '"' (front ++ strText s ++ back) = (s.points.flatMap escapePoint).splitOn '"' := by
  have htext : front ++ strText s ++ back =
      front ++ '"' :: (s.points.flatMap escapePoint ++ '"' :: back) := by
    simp [strText_eq]
  rw [htext, inner_enclosed hfront hback]

/-- No other piece follows the last one of a string. -/
theorem no_pair_in_string (s : Str) :
    ¬[perf_data, [':', ' ']] <:+: (s.points.flatMap escapePoint).splitOn '"' := by
  intro h
  obtain ⟨ps, hps, hall, -⟩ := splitOn_escaped s.points
  have hmem := mem_dropLast_of_pair h
  rw [hps, List.dropLast_concat] at hmem
  exact (words_plain perf_data List.mem_cons_self).1 (hall _ hmem)

theorem keep_iff_marked {s : Str} {l : Text}
    (h : inner '"' l = (s.points.flatMap escapePoint).splitOn '"') :
    keep l = true ↔ ¬Marked s := by
  rw [keep_iff, h, marked_iff, not_exists]
  constructor
  · exact fun hkeep w hw => hkeep.2 w hw.1 hw.2
  · exact fun hmarked => ⟨no_pair_in_string s, fun w hw hmem => hmarked w ⟨hw, hmem⟩⟩

theorem keep_strText (s : Str) : keep (strText s) = true ↔ ¬Marked s := by
  have hinner := inner_strText (List.not_mem_nil (a := '"')) (List.not_mem_nil (a := '"')) s
  rw [List.nil_append, List.append_nil] at hinner
  exact keep_iff_marked hinner

/-- A member whose value is no string. -/
theorem keep_item (k : Key) {t : Text} (ht : '"' ∉ t) :
    keep (itemFront k ++ t) = true ↔ ¬Marked k.text := by
  have hback : '"' ∉ [':', ' '] ++ t := by simpa using ht
  have hinner := inner_strText (List.not_mem_nil (a := '"')) hback k.text
  rw [List.nil_append, ← List.append_assoc] at hinner
  exact keep_iff_marked hinner

/-- The key of performance data, which needs a string behind it. -/
def IsPerfData (s : Str) : Prop := afterQuote s.points = perf_data.map CodePoint.ofChar

instance (s : Str) : Decidable (IsPerfData s) := inferInstanceAs (Decidable (_ = _))

/-- A member whose value is a string. -/
theorem keep_item_strText (k : Key) (s : Str) :
    keep (itemFront k ++ strText s) = true ↔
      ¬Marked k.text ∧ ¬IsPerfData k.text ∧ ¬Marked s := by
  have hinner : inner '"' (itemFront k ++ strText s) =
      (k.text.points.flatMap escapePoint).splitOn '"' ++
        [':', ' '] :: (s.points.flatMap escapePoint).splitOn '"' := by
    have hcolon : '"' ∉ [':', ' '] := by decide
    have htext : itemFront k ++ strText s =
        [] ++ '"' :: (k.text.points.flatMap escapePoint ++ '"' ::
          ([':', ' '] ++ '"' :: s.points.flatMap escapePoint) ++ '"' :: []) := by
      simp [itemFront, strText_eq]
    rw [htext, inner_enclosed List.not_mem_nil List.not_mem_nil, List.splitOn_append_cons_self,
      List.splitOn_append_cons_self, List.splitOn_eq_singleton hcolon]
    rfl
  have hwords : (∀ w ∈ words, w ∉ inner '"' (itemFront k ++ strText s)) ↔
      ¬Marked k.text ∧ ¬Marked s := by
    rw [hinner, marked_iff, marked_iff]
    have hcolon : ∀ w ∈ words, w ≠ [':', ' '] := by decide
    constructor
    · intro h
      constructor
      · intro hkey
        obtain ⟨w, hw, hmem⟩ := hkey
        exact h w hw (List.mem_append_left _ hmem)
      · intro hvalue
        obtain ⟨w, hw, hmem⟩ := hvalue
        exact h w hw (List.mem_append_right _ (List.mem_cons_of_mem _ hmem))
    · intro hneither w hw hmem
      obtain ⟨hkey, hvalue⟩ := hneither
      rcases List.mem_append.mp hmem with hmem | hmem
      · exact hkey ⟨w, hw, hmem⟩
      rcases List.mem_cons.mp hmem with heq | hmem
      · exact hcolon w hw heq
      · exact hvalue ⟨w, hw, hmem⟩
  have hpair : [perf_data, [':', ' ']] <:+: inner '"' (itemFront k ++ strText s) ↔
      IsPerfData k.text := by
    obtain ⟨ps, hps, hall, -⟩ := splitOn_escaped k.text.points
    obtain ⟨qs, hqs, hall', -⟩ := splitOn_escaped s.points
    obtain ⟨hslash, hplain⟩ := words_plain perf_data List.mem_cons_self
    rw [hinner, hps, hqs, IsPerfData]
    constructor
    · intro h
      -- the last piece of the key is the only one without backslashes that has a next one
      have hmem := mem_dropLast_of_pair h
      have hlast : ps ++ [(afterQuote k.text.points).flatMap escapePoint] ++ [':', ' '] ::
          (qs ++ [(afterQuote s.points).flatMap escapePoint]) =
          ps ++ [(afterQuote k.text.points).flatMap escapePoint] ++ [':', ' '] :: qs ++
            [(afterQuote s.points).flatMap escapePoint] := by simp
      rw [hlast, List.dropLast_concat, List.mem_append, List.mem_append, List.mem_singleton,
        List.mem_cons] at hmem
      rcases hmem with (hmem | heq) | heq | hmem
      · exact absurd (hall _ hmem) hslash
      · exact eq_of_escaped hslash heq.symm
      · exact absurd heq (by decide)
      · exact absurd (hall' _ hmem) hslash
    · intro h
      rw [h, hplain]
      exact ⟨ps, qs ++ [(afterQuote s.points).flatMap escapePoint], by simp⟩
  rw [keep_iff, hpair, hwords]
  tauto

end Strip
