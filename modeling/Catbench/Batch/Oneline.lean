import Catbench.Framework.TextLines
import Catbench.Framework.Shell
import Mathlib.Data.List.GetD

/-! # Job files (`batch`)

    A job file has one set of arguments in each line, which a comment may
    follow.  `oneline` prints the arguments of a line, or replaces the comment
    of a line in place; either way it is `sed` that finds the comment.

    Texts are sequences of characters.  The comments that `batch` writes have
    none of the characters that mean something to `sed` in a replacement.
-/

namespace Batch

abbrev Text := List Char

/-! ## Section 1: Model -/

/-- `s/ \?#.*//`: the leftmost match begins at the first hash sign, or at the
    space right before it. -/
def strip_comment : Text → Text
  | [] => []
  | c :: t =>
    if c = '#' ∨ c = ' ' ∧ t.head? = some '#' then [] else c :: strip_comment t

/-- `s/$/ # text/`. -/
def append_comment (text line : Text) : Text := line ++ ' ' :: '#' :: ' ' :: text

/-- What `oneline` does to the line in its second mode. -/
def replace_comment (text line : Text) : Text :=
  if text = [] then strip_comment line else append_comment text (strip_comment line)

/-- `oneline`: what it prints, and the file after it.  `sed` ends what it prints
    as the line is ended. -/
def oneline (file : Text) (linenum : ℕ) : Option Text → Text × Text
  | none =>
    (if linenum = 0 then []
      else if linenum ≤ (TextLines.ended file).length then
        strip_comment ((TextLines.ended file).getD (linenum - 1) []) ++ ['\n']
      else if linenum = (TextLines.lines file).length then strip_comment (TextLines.rest file)
      else [], file)
  | some text => ([], TextLines.edit linenum (replace_comment text) file)

/-- `wc -l`, which counts line breaks. -/
def wc_l (file : Text) : ℕ := file.count '\n'

/-- Text that means itself in a replacement of `sed`. -/
def Plain (text : Text) : Prop := ∀ c ∈ text, c ∉ ['\n', '#', '/', '\\', '&']

instance (text : Text) : Decidable (Plain text) := List.decidableBAll _ text

/-! ## Section 2: Comments -/

theorem hash_notMem_strip_comment (line : Text) : '#' ∉ strip_comment line := by
  induction line with
  | nil => exact List.not_mem_nil
  | cons c t ih =>
    unfold strip_comment
    split
    · exact List.not_mem_nil
    · next h =>
      rw [List.mem_cons, not_or]
      exact ⟨fun heq => h (Or.inl heq.symm), ih⟩

theorem mem_of_mem_strip_comment {line : Text} {c : Char} (h : c ∈ strip_comment line) :
    c ∈ line := by
  induction line with
  | nil => exact h
  | cons c' t ih =>
    unfold strip_comment at h
    split at h
    · cases h
    · rcases List.mem_cons.mp h with heq | hmem
      · rw [heq]
        exact List.mem_cons_self
      · exact List.mem_cons_of_mem _ (ih hmem)

/-- Behind text without a hash sign, the comment is found from its space on. -/
theorem strip_comment_append {args : Text} (h : '#' ∉ args) (text : Text) :
    strip_comment (args ++ ' ' :: '#' :: text) = args := by
  induction args with
  | nil =>
    rw [List.nil_append, strip_comment, if_pos (Or.inr ⟨rfl, rfl⟩)]
  | cons c t ih =>
    obtain ⟨hc, ht⟩ := not_or.mp (mt List.mem_cons.mpr h)
    have hnext : (t ++ ' ' :: '#' :: text).head? ≠ some '#' := by
      cases t with
      | nil => simp
      | cons c' t =>
        intro heq
        have : c' = '#' := by simpa using heq
        rw [this] at ht
        exact ht List.mem_cons_self
    rw [List.cons_append, strip_comment, if_neg, ih ht]
    intro hor
    rcases hor with heq | hand
    · exact hc heq.symm
    · exact hnext hand.2

theorem strip_comment_of_notMem {args : Text} (h : '#' ∉ args) : strip_comment args = args := by
  induction args with
  | nil => rfl
  | cons c t ih =>
    obtain ⟨hc, ht⟩ := not_or.mp (mt List.mem_cons.mpr h)
    rw [strip_comment, if_neg, ih ht]
    intro hor
    rcases hor with heq | hand
    · exact hc heq.symm
    · exact ht (List.mem_of_head? hand.2)

/-- **Comments**: replacing the comment of a line leaves its arguments. -/
@[simp] theorem strip_replace_comment (text line : Text) :
    strip_comment (replace_comment text line) = strip_comment line := by
  have hargs := hash_notMem_strip_comment line
  unfold replace_comment
  split
  · exact strip_comment_of_notMem hargs
  · exact strip_comment_append hargs _

theorem break_notMem_strip_comment {line : Text} (h : '\n' ∉ line) : '\n' ∉ strip_comment line :=
  fun hmem => h (mem_of_mem_strip_comment hmem)

theorem break_notMem_replace_comment {text line : Text} (htext : Plain text) (h : '\n' ∉ line) :
    '\n' ∉ replace_comment text line := by
  have hargs := break_notMem_strip_comment h
  have hbreak : '\n' ∉ text := fun hmem => htext _ hmem (by simp)
  unfold replace_comment append_comment
  split
  · exact hargs
  · simp [hargs, hbreak]

/-! ## Section 3: `oneline` -/

variable {file : Text} {linenum : ℕ}

/-- The arguments of an ended line, as the script captures them. -/
theorem oneline_args (hpos : 0 < linenum) (hle : linenum ≤ (TextLines.ended file).length) :
    Shell.command_substitution (oneline file linenum none).1 =
      strip_comment ((TextLines.ended file).getD (linenum - 1) []) := by
  have hlt : linenum - 1 < (TextLines.ended file).length := by omega
  unfold oneline
  simp only
  rw [if_neg (Nat.ne_of_gt hpos), if_pos hle]
  apply Shell.command_substitution_append_newline
  apply break_notMem_strip_comment
  rw [List.getD_eq_getElem _ _ hlt]
  exact (TextLines.no_break file).1 _ (List.getElem_mem hlt)

/-- Annotating an ended line changes that line only. -/
theorem oneline_annotates {text : Text} (htext : Plain text) (hpos : 0 < linenum)
    (hle : linenum ≤ (TextLines.ended file).length) :
    TextLines.split (oneline file linenum (some text)).2 =
      ((TextLines.ended file).modify (linenum - 1) (replace_comment text), TextLines.rest file) :=
  TextLines.split_edit (fun _ h => break_notMem_replace_comment htext h) hpos hle

end Batch
