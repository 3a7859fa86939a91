import Mathlib.Data.List.Basic
import Mathlib.Data.List.TakeWhile
import Mathlib.Tactic.Common

/-! # Indented texts

    A text that was written as a tree: a member stands on a line of its own, or its
    members stand between an opening and a closing line, one level deeper, with a
    comma behind each but the last.

    * **Lines**: the lines of a layout, and its text in one piece (`breaks_lines`).
    * **Removal**: leaving out the lines of some members, and then every comma that
      stands before a closing line, gives the lines of the layout without these
      members (`settle_lines`), as long as no opening line is left out.
-/

namespace Layouts

/-- A text of one line, or members with what stands in front of each. -/
inductive Layout where
  | leaf (text : List Char)
  | node (opened closed : Char) (members : List (List Char × Layout))

/-- Induction over a layout by its members. -/
theorem Layout.induct {P : Layout → Prop} (leaf : ∀ t, P (.leaf t))
    (node : ∀ o c ms, (∀ m ∈ ms, P m.2) → P (.node o c ms)) (l : Layout) : P l :=
  @Layout.rec P (fun ms => ∀ m ∈ ms, P m.2) (fun m => P m.2) leaf node (by simp)
    (fun _ _ hm hms => by
      intro n hn
      rcases List.mem_cons.mp hn with rfl | hn
      · exact hm
      · exact hms n hn)
    (fun _ _ h => h) l

/-! ## Section 1: Lines and text -/

def indent (level : ℕ) : List Char := List.replicate level '\t'

/-- The comma behind a member that others follow. -/
def comma (more : List (List Char × Layout)) : List Char := if more.isEmpty then [] else [',']

mutual

/-- The lines of a layout with what stands in front of it and behind it. -/
def lines (level : ℕ) (front back : List Char) : Layout → List (List Char)
  | .leaf t => [indent level ++ (front ++ t) ++ back]
  | .node o c ms =>
    (indent level ++ (front ++ [o])) :: linesMembers (level + 1) ms ++ [indent level ++ c :: back]

def linesMembers (level : ℕ) : List (List Char × Layout) → List (List Char)
  | [] => []
  | (front, l) :: ms => lines level front (comma ms) l ++ linesMembers level ms

end

mutual

/-- The text of a layout that stands at a level. -/
def flat (level : ℕ) : Layout → List Char
  | .leaf t => t
  | .node o c ms => o :: flatMembers (level + 1) ms ++ '\n' :: indent level ++ [c]

/-- Each member on a new line. -/
def flatMembers (level : ℕ) : List (List Char × Layout) → List Char
  | [] => []
  | (front, l) :: ms =>
    '\n' :: indent level ++ front ++ flat level l ++ comma ms ++ flatMembers level ms

end

/-- What stands behind a member. -/
def IsBack (back : List Char) : Prop := back = [] ∨ back = [',']

theorem isBack_comma (ms : List (List Char × Layout)) : IsBack (comma ms) := by
  unfold comma
  split
  · exact .inl rfl
  · exact .inr rfl

/-- A break in front of each line. -/
def breaks (c : Char) (ls : List (List Char)) : List Char := ls.flatMap (c :: ·)

@[simp] theorem breaks_nil (c : Char) : breaks c [] = [] := rfl

@[simp] theorem breaks_cons (c : Char) (l : List Char) (ls : List (List Char)) :
    breaks c (l :: ls) = c :: l ++ breaks c ls := rfl

@[simp] theorem breaks_append (c : Char) (ls ms : List (List Char)) :
    breaks c (ls ++ ms) = breaks c ls ++ breaks c ms := List.flatMap_append

theorem breaks_members (level : ℕ) {ms : List (List Char × Layout)}
    (h : ∀ m ∈ ms, ∀ front back,
      breaks '\n' (lines level front back m.2) =
        '\n' :: indent level ++ front ++ flat level m.2 ++ back) :
    breaks '\n' (linesMembers level ms) = flatMembers level ms := by
  induction ms with
  | nil => rfl
  | cons m ms ih =>
    obtain ⟨hm, hms⟩ := List.forall_mem_cons.mp h
    rw [linesMembers, breaks_append, hm, ih hms, flatMembers]

/-- The lines are the text in one piece. -/
theorem breaks_lines (l : Layout) : ∀ level front back,
    breaks '\n' (lines level front back l) =
      '\n' :: indent level ++ front ++ flat level l ++ back := by
  induction l using Layout.induct with
  | leaf t =>
    intro level front back
    simp [lines, flat]
  | node o c ms ih =>
    intro level front back
    have hmembers := breaks_members (level + 1) fun m hm => ih m hm (level + 1)
    simp [lines, flat, hmembers]

theorem mem_linesMembers {level : ℕ} {ms : List (List Char × Layout)} {line : List Char}
    (h : line ∈ linesMembers level ms) :
    ∃ m ∈ ms, ∃ back, IsBack back ∧ line ∈ lines level m.1 back m.2 := by
  induction ms with
  | nil => cases h
  | cons m ms ih =>
    rw [linesMembers, List.mem_append] at h
    rcases h with h | h
    · exact ⟨m, List.mem_cons_self, comma ms, isBack_comma ms, h⟩
    · obtain ⟨m', hm', hrest⟩ := ih h
      exact ⟨m', List.mem_cons_of_mem m hm', hrest⟩

/-! ## Section 2: Commas before closing lines -/

/-- `[[:space:]]`. -/
def isBlank (c : Char) : Bool := c ∈ [' ', '\t', '\n', '\x0b', '\x0c', '\r']

def isClosing (c : Char) : Bool := c = ']' ∨ c = '}'

/-- The text starts with a closing bracket, after blanks perhaps. -/
def closes (t : List Char) : Bool :=
  match t.dropWhile isBlank with
  | c :: _ => isClosing c
  | [] => false

/-- A line without the comma at its end. -/
def trim (l : List Char) : List Char := if l.getLast? = some ',' then l.dropLast else l

/-- Whether the next line is a closing one; `next` stands for what follows the lines. -/
def nextCloses (next : Bool) : List (List Char) → Bool
  | [] => next
  | l :: _ => closes l

/-- Lines without the commas before closing lines. -/
def settle (next : Bool) : List (List Char) → List (List Char)
  | [] => []
  | l :: ls => (if nextCloses next ls then trim l else l) :: settle next ls

theorem settle_append (next : Bool) (ls ms : List (List Char)) :
    settle next (ls ++ ms) = settle (nextCloses next ms) ls ++ settle next ms := by
  induction ls with
  | nil => rfl
  | cons l ls ih =>
    have hnext : nextCloses next (ls ++ ms) = nextCloses (nextCloses next ms) ls := by
      cases ls with
      | nil => rfl
      | cons l' ls => rfl
    rw [List.cons_append, settle, ih, hnext]
    rfl

theorem closes_indent (level : ℕ) (t : List Char) : closes (indent level ++ t) = closes t := by
  induction level with
  | zero => rfl
  | succ level ih => exact ih

/-- A text that starts with a mark that neither is blank nor closes. -/
def Opens (t : List Char) : Prop := ∃ c u, t = c :: u ∧ isBlank c = false ∧ isClosing c = false

theorem Opens.append {t : List Char} (h : Opens t) (u : List Char) : Opens (t ++ u) := by
  obtain ⟨c, v, rfl, hc⟩ := h
  exact ⟨c, v ++ u, rfl, hc⟩

theorem Opens.solid {t : List Char} (h : Opens t) : ∃ c ∈ t, isBlank c = false := by
  obtain ⟨c, u, rfl, hblank, -⟩ := h
  exact ⟨c, List.mem_cons_self, hblank⟩

theorem Opens.closes {t : List Char} (h : Opens t) : Layouts.closes t = false := by
  obtain ⟨c, u, rfl, hblank, hclosing⟩ := h
  simp [Layouts.closes, hblank, hclosing]

theorem closing_solid {c : Char} (hc : isClosing c = true) :
    isBlank c = false ∧ '\n' ∉ [c] ∧ '\r' ∉ [c] := by
  unfold isClosing at hc
  simp only [decide_eq_true_eq] at hc
  rcases hc with rfl | rfl
  · decide
  · decide

theorem closes_closing {c : Char} (hc : isClosing c = true) (t : List Char) :
    closes (c :: t) = true := by
  simp [closes, (closing_solid hc).1, hc]

theorem trim_comma (l : List Char) : trim (l ++ [',']) = l := by
  simp [trim]

/-- What a line holds between its tabs and its comma. -/
structure IsContent (t : List Char) : Prop where
  opens : Opens t
  no_comma : t.getLast? ≠ some ','
  no_break : '\n' ∉ t ∧ '\r' ∉ t

theorem trim_line {t back : List Char} (level : ℕ) (ht : t.getLast? ≠ some ',') (hne : t ≠ [])
    (hback : IsBack back) : trim (indent level ++ t ++ back) = indent level ++ t := by
  rcases hback with rfl | rfl
  · rw [List.append_nil]
    refine if_neg fun hlast => ht ?_
    rwa [List.getLast?_append_of_ne_nil _ hne] at hlast
  · exact trim_comma _

/-- A line that is not blank. -/
structure IsLine (l : List Char) : Prop where
  solid : ∃ c ∈ l, isBlank c = false
  no_break : '\n' ∉ l ∧ '\r' ∉ l

theorem isLine_of {t back : List Char} (level : ℕ) (hsolid : ∃ c ∈ t, isBlank c = false)
    (hbreak : '\n' ∉ t ∧ '\r' ∉ t) (hback : IsBack back) : IsLine (indent level ++ t ++ back) := by
  obtain ⟨c, hc, hblank⟩ := hsolid
  refine ⟨⟨c, by simp [hc], hblank⟩, ?_⟩
  have hindent : ∀ c ∈ indent level, c = '\t' := fun c hc => (List.mem_replicate.mp hc).2
  have hmem : ∀ d, d ≠ '\t' → d ≠ ',' → d ∉ t → d ∉ indent level ++ t ++ back := by
    intro d htab hcomma ht hd
    rcases List.mem_append.mp hd with hd | hd
    · rcases List.mem_append.mp hd with hd | hd
      · exact htab (hindent d hd)
      · exact ht hd
    · rcases hback with rfl | rfl
      · cases hd
      · exact hcomma (List.mem_singleton.mp hd)
  exact ⟨hmem _ (by decide) (by decide) hbreak.1, hmem _ (by decide) (by decide) hbreak.2⟩

/-- What follows a line that is not blank does not matter. -/
theorem IsLine.closes_append {l : List Char} (h : IsLine l) (t : List Char) :
    closes (l ++ t) = closes l := by
  obtain ⟨c, hc, hblank⟩ := h.solid
  have hne : l.dropWhile isBlank ≠ [] := by
    rw [Ne, List.dropWhile_eq_nil_iff]
    intro hall
    rw [hall c hc] at hblank
    cases hblank
  obtain ⟨d, u, hdrop⟩ := List.exists_cons_of_ne_nil hne
  unfold closes
  rw [List.dropWhile_append, hdrop]
  rfl

/-! ## Section 3: Removing lines -/

/-- The lines of the layout hold something, and its nodes are closed. -/
inductive Formed : List Char → Layout → Prop where
  | leaf {front t : List Char} (h : IsContent (front ++ t)) : Formed front (.leaf t)
  | node {front : List Char} {o c : Char} {ms : List (List Char × Layout)}
      (ho : IsContent (front ++ [o])) (hc : isClosing c = true)
      (h : ∀ m ∈ ms, Formed m.1 m.2) : Formed front (.node o c ms)

theorem isLine_lines (l : Layout) : ∀ level front back, Formed front l → IsBack back →
    ∀ line ∈ lines level front back l, IsLine line := by
  induction l using Layout.induct with
  | leaf t =>
    intro level front back hl hback line hline
    cases hl with
    | leaf h =>
      rw [lines, List.mem_singleton] at hline
      rw [hline]
      exact isLine_of level h.opens.solid h.no_break hback
  | node o c ms ih =>
    intro level front back hl hback line hline
    cases hl with
    | node ho hc hms =>
      rw [lines, List.mem_append, List.mem_cons, List.mem_singleton] at hline
      rcases hline with (rfl | hline) | rfl
      · have hfirst := isLine_of level ho.opens.solid ho.no_break (.inl rfl)
        rwa [List.append_nil] at hfirst
      · obtain ⟨m, hm, back', hback', hline⟩ := mem_linesMembers hline
        exact ih m hm (level + 1) m.1 back' (hms m hm) hback' line hline
      · have hclosing := closing_solid hc
        have hlast := isLine_of level ⟨c, List.mem_singleton_self c, hclosing.1⟩ hclosing.2 hback
        rwa [List.append_assoc] at hlast

section removal
variable (keep : List Char → Bool)

/-- The first and the last line of every node stay. -/
inductive Whole : List Char → Layout → Prop where
  | leaf (front t : List Char) : Whole front (.leaf t)
  | node {front : List Char} {o c : Char} {ms : List (List Char × Layout)}
      (ho : keep (front ++ [o]) = true) (hc : keep [c] = true)
      (h : ∀ m ∈ ms, Whole m.1 m.2) : Whole front (.node o c ms)

/-- A member whose only line is left out. -/
def dropped (front : List Char) : Layout → Bool
  | .leaf t => !keep (front ++ t)
  | .node _ _ _ => false

mutual

/-- The layout without these members. -/
def prune : Layout → Layout
  | .leaf t => .leaf t
  | .node o c ms => .node o c (pruneMembers ms)

def pruneMembers : List (List Char × Layout) → List (List Char × Layout)
  | [] => []
  | (front, l) :: ms =>
    if dropped keep front l then pruneMembers ms else (front, prune l) :: pruneMembers ms

end

variable {keep}
variable (hkeep : ∀ level t back, IsBack back → keep (indent level ++ t ++ back) = keep t)
include hkeep

theorem filter_first {l : Layout} {front back : List Char} (level : ℕ) (hl : Formed front l)
    (hw : Whole keep front l) (hd : dropped keep front l = false) (hback : IsBack back) :
    ∃ t ls, (lines level front back l).filter keep = (indent level ++ t) :: ls ∧ Opens t := by
  cases hl with
  | @leaf front t h =>
    have hline : keep (indent level ++ (front ++ t) ++ back) = true := by
      rw [hkeep level _ back hback]
      simpa [dropped] using hd
    refine ⟨front ++ t ++ back, [], ?_, h.opens.append back⟩
    rw [lines, List.filter_singleton, hline, List.append_assoc]
    rfl
  | @node front o c ms ho hc h =>
    cases hw with
    | node hopen hclose hmore =>
      have hline : keep (indent level ++ (front ++ [o])) = true := by
        have hline := hkeep level (front ++ [o]) [] (.inl rfl)
        rwa [List.append_nil, hopen] at hline
      refine ⟨front ++ [o], (linesMembers (level + 1) ms ++ [indent level ++ c :: back]).filter keep,
        ?_, ho.opens⟩
      rw [lines, List.cons_append, List.filter_cons_of_pos hline]

theorem filter_dropped {l : Layout} {front back : List Char} (level : ℕ)
    (hd : dropped keep front l = true) (hback : IsBack back) :
    (lines level front back l).filter keep = [] := by
  cases l with
  | leaf t =>
    have hline : keep (indent level ++ (front ++ t) ++ back) = false := by
      rw [hkeep level _ back hback]
      simpa [dropped] using hd
    rw [lines, List.filter_singleton, hline]
    rfl
  | node o c ms => cases hd

/-- What follows a member is a closing line if no other member is left. -/
theorem nextCloses_members {level : ℕ} {ms : List (List Char × Layout)}
    (hl : ∀ m ∈ ms, Formed m.1 m.2) (hw : ∀ m ∈ ms, Whole keep m.1 m.2) :
    nextCloses true ((linesMembers level ms).filter keep) = (pruneMembers keep ms).isEmpty := by
  induction ms with
  | nil => rfl
  | cons m ms ih =>
    obtain ⟨front, l⟩ := m
    obtain ⟨hlm, hlms⟩ := List.forall_mem_cons.mp hl
    obtain ⟨hwm, hwms⟩ := List.forall_mem_cons.mp hw
    rw [linesMembers, List.filter_append, pruneMembers]
    by_cases hd : dropped keep front l = true
    · rw [if_pos hd, filter_dropped hkeep level hd (isBack_comma ms), List.nil_append]
      exact ih hlms hwms
    · rw [if_neg hd]
      obtain ⟨t, ls, hfirst, ht⟩ := filter_first hkeep level hlm hwm (eq_false_of_ne_true hd)
        (isBack_comma ms)
      rw [hfirst, List.cons_append]
      exact (closes_indent level t).trans ht.closes

/-- What `settle_lines` says of one layout. -/
def Settles (keep : List Char → Bool) (l : Layout) : Prop :=
  ∀ level front back next, Formed front l → Whole keep front l → dropped keep front l = false →
    IsBack back → settle next ((lines level front back l).filter keep) =
      lines level front (if next then [] else back) (prune keep l)

theorem settle_members (level : ℕ) {ms : List (List Char × Layout)}
    (ih : ∀ m ∈ ms, Settles keep m.2)
    (hl : ∀ m ∈ ms, Formed m.1 m.2) (hw : ∀ m ∈ ms, Whole keep m.1 m.2) :
    settle true ((linesMembers level ms).filter keep) =
      linesMembers level (pruneMembers keep ms) := by
  induction ms with
  | nil => rfl
  | cons m ms ihms =>
    obtain ⟨front, l⟩ := m
    obtain ⟨him, hims⟩ := List.forall_mem_cons.mp ih
    obtain ⟨hlm, hlms⟩ := List.forall_mem_cons.mp hl
    obtain ⟨hwm, hwms⟩ := List.forall_mem_cons.mp hw
    have hrest := ihms hims hlms hwms
    rw [linesMembers, List.filter_append, pruneMembers]
    by_cases hd : dropped keep front l = true
    · rw [if_pos hd, filter_dropped hkeep level hd (isBack_comma ms), List.nil_append]
      exact hrest
    · -- the comma stays exactly if a member stays behind it
      have hcomma : (if (pruneMembers keep ms).isEmpty then [] else comma ms) =
          comma (pruneMembers keep ms) := by
        unfold comma
        cases ms with
        | nil => rfl
        | cons m' ms => rfl
      rw [if_neg hd, settle_append, nextCloses_members hkeep hlms hwms, hrest,
        him level front (comma ms) _ hlm hwm (eq_false_of_ne_true hd) (isBack_comma ms), hcomma,
        linesMembers]

/-- Leaving out lines and then commas leaves the lines of the pruned layout. -/
theorem settle_lines (l : Layout) : Settles keep l := by
  induction l using Layout.induct with
  | leaf t =>
    intro level front back next hl hw hd hback
    cases hl with
    | leaf h =>
      have hline : keep (indent level ++ (front ++ t) ++ back) = true := by
        rw [hkeep level _ back hback]
        simpa [dropped] using hd
      have hne : front ++ t ≠ [] := by
        obtain ⟨c, u, heq, -⟩ := h.opens
        simp [heq]
      rw [lines, List.filter_singleton, hline, cond_true, prune, lines]
      cases next with
      | false => rfl
      | true =>
        have htrim := trim_line level h.no_comma hne hback
        simp only [settle, nextCloses, if_true, htrim, List.append_nil]
  | node o c ms ih =>
    intro level front back next hl hw hd hback
    cases hl with
    | node ho hc hlms =>
    cases hw with
    | node hopen hclose hwms =>
      have hmembers := settle_members hkeep (level + 1) ih hlms hwms
      have hfirst : keep (indent level ++ (front ++ [o])) = true := by
        have hline := hkeep level (front ++ [o]) [] (.inl rfl)
        rwa [List.append_nil, hopen] at hline
      have hlast : keep (indent level ++ c :: back) = true := by
        have hline := hkeep level [c] back hback
        rwa [List.append_assoc, List.singleton_append, hclose] at hline
      have hcloses : nextCloses next [indent level ++ c :: back] = true :=
        (closes_indent level _).trans (closes_closing hc back)
      have htrimFirst : trim (indent level ++ (front ++ [o])) = indent level ++ (front ++ [o]) := by
        have htrim := trim_line level ho.no_comma (by simp) (.inl rfl)
        rwa [List.append_nil] at htrim
      have htrimLast : trim (indent level ++ c :: back) = indent level ++ [c] := by
        have hcomma : [c].getLast? ≠ some ',' := by
          rintro hlast
          obtain rfl : c = ',' := by simpa using hlast
          cases hc
        have htrim := trim_line level hcomma (by simp) hback
        rwa [List.append_assoc, List.singleton_append] at htrim
      rw [lines, List.filter_append, List.filter_cons_of_pos hfirst, List.filter_singleton, hlast,
        settle_append, cond_true, hcloses, settle, hmembers, htrimFirst, ite_self, prune, lines]
      cases next with
      | false => rfl
      | true => simp only [settle, nextCloses, if_true, htrimLast]

end removal

end Layouts
