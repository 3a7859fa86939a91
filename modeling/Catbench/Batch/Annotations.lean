import Catbench.Batch.Oneline

/-! # Progress comments (`batch`)

    The comment of a line is written over and over while its job is launched,
    runs and completes, and the arguments of the line may be read in between.
    A run of calls of `oneline` may go to any lines in any order.

    Theorem: whatever the calls, a comment that is written changes its line
    only, the arguments of every line stay, and the line has its last comment
    and no other.
-/

open TextLines

namespace Batch

/-! ## Section 1: Runs of calls -/

/-- The number of a line, and the comment if the call is to write one. -/
abbrev Call := ℕ × Option Text

/-- The file after some calls. -/
def after (file : Text) (calls : List Call) : Text :=
  calls.foldl (fun file call => (oneline file call.1 call.2).2) file

/-- The comments that are written are not empty, and mean themselves to `sed`. -/
def Comments (calls : List Call) : Prop :=
  ∀ call ∈ calls, ∀ text, call.2 = some text → text ≠ [] ∧ Plain text

/-- One text is another one but for the line with the given number. -/
def OnlyLine (n : ℕ) (file file' : Text) : Prop :=
  ∃ before line line' back, LineAt file n before line back ∧ LineAt file' n before line' back

/-- What a call makes of line `n`. -/
def note (n : ℕ) (line : Text) (call : Call) : Text :=
  match call.2 with
  | some text => if call.1 = n then replace_comment text line else line
  | none => line

/-! ## Section 2: One call -/

variable {file : Text} {n : ℕ} {before : List Text} {line back : Text}

theorem replace_comment_ne_nil {text : Text} (htext : text ≠ []) (line : Text) :
    replace_comment text line ≠ [] := by
  rw [replace_comment, if_neg htext, append_comment]
  simp

/-- What `oneline` prints of a line. -/
theorem oneline_prints (h : LineAt file n before line back) :
    (oneline file n none).1 = strip_comment line ++ if back = [] then [] else ['\n'] := by
  have hnumber := h.number
  unfold oneline
  simp only
  rw [if_neg (by omega)]
  rcases h.cases with ⟨u, rfl, hended⟩ | ⟨rfl, hended, hrest, hne⟩
  · have hlength : n ≤ (ended file).length := by
      rw [hended, List.length_append, List.length_cons]
      omega
    have hline : (ended file).getD (n - 1) [] = line := by
      rw [hended, ← hnumber, Nat.add_sub_cancel, List.getD_append_right _ _ _ _ (Nat.le_refl _),
        Nat.sub_self]
      rfl
    rw [if_pos hlength, hline, if_neg (List.cons_ne_nil _ _)]
  · have hlines : n = (lines file).length := by
      rw [lines, hrest, if_neg hne, hended, List.length_append, ← hnumber]
      rfl
    rw [if_neg (by rw [hended]; omega), if_pos hlines, hrest, if_pos rfl, List.append_nil]

/-- **Call**: line `n` is noted on, and it is ended or not as before. -/
theorem lineAt_oneline (h : LineAt file n before line back) {call : Call}
    (hcall : ∀ text, call.2 = some text → text ≠ [] ∧ Plain text) :
    ∃ before' back', LineAt (oneline file call.1 call.2).2 n before' (note n line call) back' ∧
      (back' = [] ↔ back = []) := by
  obtain ⟨m, text?⟩ := call
  cases text? with
  | none => exact ⟨before, back, h, Iff.rfl⟩
  | some text =>
    obtain ⟨hne, hplain⟩ := hcall text rfl
    have hbreak : ∀ l, '\n' ∉ l → '\n' ∉ replace_comment text l := fun l hl =>
      break_notMem_replace_comment hplain hl
    by_cases hm : m = n
    · subst hm
      have hnote : note m line (m, some text) = replace_comment text line := if_pos rfl
      rw [hnote]
      have hedit := h.edit (hbreak line h.no_break) (replace_comment_ne_nil hne line)
      exact ⟨before, back, hedit, Iff.rfl⟩
    · have hnote : note n line (m, some text) = line := if_neg hm
      rw [hnote]
      exact h.edit_of_ne hm hbreak

/-- A comment that is written changes its line only. -/
theorem onlyLine_oneline (h : LineAt file n before line back) {text : Text} (hne : text ≠ [])
    (hplain : Plain text) : OnlyLine n file (oneline file n (some text)).2 :=
  ⟨before, line, _, back, h, h.edit (break_notMem_replace_comment hplain h.no_break)
    (replace_comment_ne_nil hne line)⟩

theorem strip_note (n : ℕ) (line : Text) (call : Call) :
    strip_comment (note n line call) = strip_comment line := by
  unfold note
  split
  · split
    · exact strip_replace_comment _ line
    · rfl
  · rfl

/-! ## Section 3: Runs -/

/-- **Run**: line `n` after some calls, wherever they went. -/
theorem lineAt_after {calls : List Call} (hcalls : Comments calls)
    (h : LineAt file n before line back) :
    ∃ before' back', LineAt (after file calls) n before' (calls.foldl (note n) line) back' ∧
      (back' = [] ↔ back = []) := by
  induction calls generalizing file before line back with
  | nil => exact ⟨before, back, h, Iff.rfl⟩
  | cons call calls ih =>
    obtain ⟨before₁, back₁, h₁, hback₁⟩ := lineAt_oneline h (hcalls call List.mem_cons_self)
    obtain ⟨before₂, back₂, h₂, hback₂⟩ := ih (fun c hc => hcalls c (List.mem_cons_of_mem _ hc)) h₁
    exact ⟨before₂, back₂, h₂, hback₂.trans hback₁⟩

theorem strip_notes (n : ℕ) (calls : List Call) (line : Text) :
    strip_comment (calls.foldl (note n) line) = strip_comment line := by
  induction calls generalizing line with
  | nil => rfl
  | cons call calls ih =>
    rw [List.foldl_cons, ih, strip_note]

/-- Calls that write no comment to the line leave it. -/
theorem notes_of_none {calls : List Call} (h : ∀ call ∈ calls, call.1 = n → call.2 = none)
    (line : Text) : calls.foldl (note n) line = line := by
  induction calls generalizing line with
  | nil => rfl
  | cons call calls ih =>
    have hcall := h call List.mem_cons_self
    have hnote : note n line call = line := by
      unfold note
      split
      · next hsome =>
        exact if_neg fun hn => by rw [hcall hn] at hsome; cases hsome
      · rfl
    rw [List.foldl_cons, hnote, ih fun c hc => h c (List.mem_cons_of_mem _ hc)]

/-- **Progress comments**: after any calls, a comment that is written to line `n`
    changes no other line, and what is read from line `n` is what was read from it
    in the beginning; the line has the last comment that was written to it, and no
    other. -/
theorem oneline_keeps_jobs (hpos : 0 < n) (hle : n ≤ (lines file).length) {calls : List Call}
    (hcalls : Comments calls) :
    (∀ text, text ≠ [] → Plain text →
      OnlyLine n (after file calls) (oneline (after file calls) n (some text)).2) ∧
    (oneline (after file calls) n none).1 = (oneline file n none).1 ∧
    ∀ done text others, calls = done ++ (n, some text) :: others →
      (∀ call ∈ others, call.1 = n → call.2 = none) →
      ∃ before args back, LineAt (after file calls) n before (args ++ " # ".toList ++ text) back ∧
        '#' ∉ args ∧ '#' ∉ text := by
  obtain ⟨before, line, back, h⟩ := exists_lineAt hpos hle
  obtain ⟨before', back', h', hback⟩ := lineAt_after hcalls h
  refine ⟨fun text hne hplain => onlyLine_oneline h' hne hplain, ?_, ?_⟩
  · rw [oneline_prints h', oneline_prints h, strip_notes]
    simp only [hback]
  · intro done text others hsplit hothers
    obtain ⟨hne, hplain⟩ := hcalls (n, some text) (by simp [hsplit]) text rfl
    -- the last comment replaces whatever the line had
    have hnote : calls.foldl (note n) line = strip_comment line ++ " # ".toList ++ text := by
      rw [hsplit, List.foldl_append, List.foldl_cons, notes_of_none hothers]
      show (if n = n then replace_comment text _ else _) = _
      rw [if_pos rfl, replace_comment, if_neg hne, append_comment, strip_notes]
      simp
    rw [hnote] at h'
    have hhash : '#' ∉ text := fun hmem => hplain '#' hmem (by simp)
    exact ⟨before', _, back', h', hash_notMem_strip_comment line, hhash⟩

/-- A job that is launched again, in a last line that is not ended. -/
def relaunched : List Call :=
  [(2, some "launching.".toList), (2, none), (2, some "launching..".toList)]

theorem oneline_keeps_jobs_relaunched :
    (oneline (after "-n 1\n-n 2 # completed".toList relaunched) 2 none).1 = "-n 2".toList := by
  have hcalls : Comments relaunched := by
    intro call hcall text htext
    simp only [relaunched, List.mem_cons, List.not_mem_nil, or_false] at hcall
    rcases hcall with rfl | rfl | rfl
    · cases htext
      exact ⟨by decide, by decide⟩
    · cases htext
    · cases htext
      exact ⟨by decide, by decide⟩
  have hle : 2 ≤ (lines "-n 1\n-n 2 # completed".toList).length := by decide
  exact (oneline_keeps_jobs (by decide) hle hcalls).2.1

end Batch
