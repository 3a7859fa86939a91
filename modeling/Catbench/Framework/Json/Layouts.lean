import Catbench.Framework.Json.Quotes
import Catbench.Framework.Layout

/-! # The layout of a written document

    What the writer puts on the lines of a document, as a layout
    (`text_eq_flat`); the document that is read back has its items in the order
    in which they were written.
-/

open Layouts

namespace Json

variable {F : Type} [FloatFormat F]

/-- What stands in front of the value of an item. -/
def itemFront (k : Key) : List Char := strText k.text ++ [':', ' ']

mutual

/-- The layout of a value, with its items in the order of the value. -/
def layout : Val F → Layout
  | .list (x :: xs) => .node '[' ']' (layoutList (x :: xs))
  | .dict (p :: d) => .node '{' '}' (layoutItems (p :: d))
  | .list [] => .leaf ['[', ']']
  | .dict [] => .leaf ['{', '}']
  | .null => .leaf ['n', 'u', 'l', 'l']
  | .bool true => .leaf ['t', 'r', 'u', 'e']
  | .bool false => .leaf ['f', 'a', 'l', 's', 'e']
  | .int z => .leaf (intText z)
  | .float x => .leaf (floatText x)
  | .str s => .leaf (strText s)

def layoutList : List (Val F) → List (List Char × Layout)
  | [] => []
  | x :: xs => ([], layout x) :: layoutList xs

def layoutItems : List (Key × Val F) → List (List Char × Layout)
  | [] => []
  | (k, v) :: d => (itemFront k, layout v) :: layoutItems d

end

theorem layoutList_eq_map (xs : List (Val F)) : layoutList xs = xs.map fun x => ([], layout x) := by
  induction xs with
  | nil => rfl
  | cons x xs ih => rw [layoutList, ih, List.map_cons]

theorem layoutItems_eq_map (d : List (Key × Val F)) :
    layoutItems d = d.map fun p => (itemFront p.1, layout p.2) := by
  induction d with
  | nil => rfl
  | cons p d ih => rw [layoutItems, ih, List.map_cons]

/-- The text of the members, with commas between them. -/
theorem flatMembers_eq (level : ℕ) {ms : List (List Char × Layout)} (hne : ms ≠ []) :
    flatMembers level ms = newline level ++
      List.intercalate (',' :: newline level) (ms.map fun m => m.1 ++ flat level m.2) := by
  induction ms with
  | nil => exact absurd rfl hne
  | cons m ms ih =>
    obtain ⟨front, l⟩ := m
    cases ms with
    | nil => simp [flatMembers, comma, newline, indent]
    | cons m' ms =>
      rw [flatMembers, ih (by simp)]
      simp only [List.map_cons, List.intercalate_cons_cons]
      simp [comma, newline, indent]

theorem flat_node (level : ℕ) (o c : Char) {ms : List (List Char × Layout)} (hne : ms ≠ []) :
    flat level (.node o c ms) = o :: (newline (level + 1) ++
      (List.intercalate (',' :: newline (level + 1))
        (ms.map fun m => m.1 ++ flat (level + 1) m.2) ++ (newline level ++ [c]))) := by
  rw [flat, flatMembers_eq (level + 1) hne]
  simp [newline, indent]

/-- A written document has the layout of what is read back. -/
theorem text_eq_flat {v : Val F} (h : Plain v) :
    ∀ level, (encode level v).text = flat level (layout (reload v)) := by
  induction h with
  | null | int z | float x | str s => exact fun _ => rfl
  | bool b => intro _; cases b <;> rfl
  | @list xs hplain ih =>
    intro level
    cases xs with
    | nil => rfl
    | cons x xs =>
      have hdone := (encode_done_iff _ level).mpr (Plain.list hplain).sorts
      have hmembers : ((x :: xs).map fun y => (encode (level + 1) y).text) =
          (layoutList (reloadList (x :: xs))).map fun m => m.1 ++ flat (level + 1) m.2 := by
        rw [layoutList_eq_map, reloadList_eq_map, List.map_map, List.map_map]
        exact List.map_congr_left fun y hy => ih y hy (level + 1)
      rw [(encode_list_done hdone).2, hmembers, ← flat_node level '[' ']' (by simp [layoutList,
        reloadList])]
      rfl
  | @dict d hkeys hnodup hplain ih =>
    intro level
    have hdict : Plain (.dict d) := .dict hkeys hnodup hplain
    cases d with
    | nil => rfl
    | cons p d =>
      have hdone := (encode_done_iff _ level).mpr hdict.sorts
      have hperm := perm_sortItems (p :: d)
      have hmembers : ((sortItems (p :: d)).map fun q => (itemOut (level + 1) q).text) =
          (layoutItems ((sortItems (p :: d)).map fun q => (q.1, reload q.2))).map
            fun m => m.1 ++ flat (level + 1) m.2 := by
        rw [layoutItems_eq_map, List.map_map, List.map_map]
        refine List.map_congr_left fun q hq => ?_
        have htext := ih q (hperm.mem_iff.mp hq) (level + 1)
        rw [itemOut, Out.andThen_text rfl, htext]
        rfl
      obtain ⟨q, ds, hsorted⟩ : ∃ q ds, sortItems (p :: d) = q :: ds := by
        refine List.exists_cons_of_ne_nil fun hnil => ?_
        have hlength := hperm.length_eq
        rw [hnil] at hlength
        cases hlength
      rw [(encode_dict_done hdone).2, hmembers, reload_dict_eq hdict.plainKeys, hsorted,
        ← flat_node level '{' '}' (by simp [layoutItems])]
      rfl

/-! ## Section 2: What the lines hold -/

/-- Values on one line, strings apart. -/
inductive IsAtom : Val F → Prop where
  | null : IsAtom .null
  | bool (b : Bool) : IsAtom (.bool b)
  | int (z : ℤ) : IsAtom (.int z)
  | float (x : PyFloat F) : IsAtom (.float x)
  | list : IsAtom (.list [])
  | dict : IsAtom (.dict [])

omit [FloatFormat F] in
/-- Induction over a value by its lines. -/
theorem Val.layout_induct {P : Val F → Prop} (atom : ∀ v, IsAtom v → P v) (str : ∀ s, P (.str s))
    (list : ∀ x xs, (∀ y ∈ x :: xs, P y) → P (.list (x :: xs)))
    (dict : ∀ p d, (∀ q ∈ p :: d, P q.2) → P (.dict (p :: d))) (v : Val F) : P v := by
  induction v using Val.induct with
  | null => exact atom _ .null
  | bool b => exact atom _ (.bool b)
  | int z => exact atom _ (.int z)
  | float x => exact atom _ (.float x)
  | str s => exact str s
  | list xs ih =>
    cases xs with
    | nil => exact atom _ .list
    | cons x xs => exact list x xs ih
  | dict d ih =>
    cases d with
    | nil => exact atom _ .dict
    | cons p d => exact dict p d ih

theorem isContent_of_all {t : List Char} (hne : t ≠ [])
    (h : ∀ c ∈ t, isBlank c = false ∧ isClosing c = false ∧ c ≠ ',') : IsContent t := by
  obtain ⟨c, u, rfl⟩ := List.exists_cons_of_ne_nil hne
  have hblank : ∀ d, isBlank d = true → d ∉ c :: u := by
    intro d hd hmem
    rw [(h d hmem).1] at hd
    cases hd
  refine ⟨⟨c, u, rfl, (h c List.mem_cons_self).1, (h c List.mem_cons_self).2.1⟩, ?_,
    hblank _ (by decide), hblank _ (by decide)⟩
  exact fun hlast => (h _ (List.mem_of_getLast? hlast)).2.2 rfl

theorem IsNumberChar.content {c : Char} (h : IsNumberChar c) :
    isBlank c = false ∧ isClosing c = false ∧ c ≠ ',' := by
  rcases h with h | rfl | rfl | rfl | rfl | rfl
  · have hmem : ∀ d, d.isDigit = false → c ≠ d := by
      rintro d hd rfl
      rw [h] at hd
      cases hd
    refine ⟨?_, ?_, hmem _ (by decide)⟩
    · simp [isBlank, hmem]
    · simp [isClosing, hmem]
  all_goals decide

/-- The text of an atom. -/
structure AtomText (t : List Char) (v : Val F) : Prop where
  layout : Json.layout v = .leaf t
  content : IsContent t
  silent : Silent t
  reads : Reads t v

theorem atomText_number {v : Val F} {minus whole frac exp : List Char}
    (h : Lexeme minus whole frac exp) (hlayout : layout v = .leaf (minus ++ whole ++ frac ++ exp))
    (hreads : Reads (minus ++ whole ++ frac ++ exp) v) :
    AtomText (minus ++ whole ++ frac ++ exp) v := by
  have hchars := h.isNumberChar
  have hne : minus ++ whole ++ frac ++ exp ≠ [] := by
    obtain ⟨c, u, hstart, -⟩ := hreads.start
    rw [hstart]
    exact List.cons_ne_nil c u
  exact ⟨hlayout, isContent_of_all hne fun c hc => (hchars c hc).content,
    fun c hc => (hchars c hc).silent, hreads⟩

theorem IsAtom.text {v : Val F} (h : IsAtom v) : ∃ t, AtomText t v := by
  have hword : ∀ (w : Val F) (t : List Char), layout w = .leaf t → t ≠ [] →
      (∀ c ∈ t, isBlank c = false ∧ isClosing c = false ∧ c ≠ ',') → Silent t → Reads t w →
      ∃ t, AtomText t w := fun w t hlayout hne hall hsilent hreads =>
    ⟨t, hlayout, isContent_of_all hne hall, hsilent, hreads⟩
  cases h with
  | null =>
    exact hword _ _ rfl (by simp) (by simp [isBlank, isClosing]) (by decide)
      (encode_reads .null 0 rfl)
  | bool b =>
    cases b with
    | true =>
      exact hword _ _ rfl (by simp) (by simp [isBlank, isClosing]) (by decide)
        (encode_reads (.bool true) 0 rfl)
    | false =>
      exact hword _ _ rfl (by simp) (by simp [isBlank, isClosing]) (by decide)
        (encode_reads (.bool false) 0 rfl)
  | int z =>
    obtain ⟨minus, whole, hl, heq⟩ := lexeme_intText z
    have hpad : minus ++ whole ++ [] ++ [] = intText z := by simp [heq]
    exact ⟨_, atomText_number hl (by rw [layout, hpad]) (hpad ▸ reads_int z)⟩
  | float x =>
    cases x with
    | finite x =>
      obtain ⟨minus, whole, frac, exp, hl, -, heq⟩ := FloatFormat.isFloatText_repr x
      have hreads := reads_float (.finite x)
      rw [floatText, heq] at hreads
      exact ⟨_, atomText_number hl (by rw [layout, floatText, heq]) hreads⟩
    | nan =>
      exact hword (.float .nan) ['N', 'a', 'N'] rfl (by simp) (by simp [isBlank, isClosing]) (by decide)
        (reads_float .nan)
    | inf =>
      exact hword (.float .inf) ['I', 'n', 'f', 'i', 'n', 'i', 't', 'y'] rfl (by simp)
        (by simp [isBlank, isClosing]) (by decide) (reads_float .inf)
    | neginf =>
      exact hword (.float .neginf) ['-', 'I', 'n', 'f', 'i', 'n', 'i', 't', 'y'] rfl (by simp)
        (by simp [isBlank, isClosing]) (by decide) (reads_float .neginf)
  | list =>
    exact ⟨['[', ']'], rfl, ⟨⟨'[', [']'], rfl, by decide, by decide⟩, by decide, by decide, by decide⟩,
      by decide, encode_reads (.list []) 0 rfl⟩
  | dict =>
    exact ⟨['{', '}'], rfl, ⟨⟨'{', ['}'], rfl, by decide, by decide⟩, by decide, by decide, by decide⟩,
      by decide, encode_reads (.dict []) 0 rfl⟩

theorem isContent_strText (s : Str) : IsContent (strText s) := by
  have hcontrol : ∀ ch : Char, ch.toNat < 0x20 → ch ∉ strText s := by
    intro ch hch hmem
    have hle := printable_strText s ch hmem
    omega
  refine ⟨⟨'"', _, rfl, by decide, by decide⟩, ?_, hcontrol _ (by decide), hcontrol _ (by decide)⟩
  rw [strText, List.getLast?_concat]
  decide

/-- What stands in front of an element or of the value of an item. -/
def front : Option Key → List Char
  | none => []
  | some k => itemFront k

theorem isContent_front (k : Option Key) {t : List Char} (h : IsContent t) :
    IsContent (front k ++ t) := by
  cases k with
  | none => exact h
  | some k =>
    have hkey := isContent_strText k.text
    have hne : t ≠ [] := by
      obtain ⟨c, u, rfl, -⟩ := h.opens
      simp
    refine ⟨(hkey.opens.append _).append t, ?_, ?_, ?_⟩
    · rw [List.getLast?_append_of_ne_nil _ hne]
      exact h.no_comma
    · simp [front, itemFront, hkey.no_break.1, h.no_break.1]
    · simp [front, itemFront, hkey.no_break.2, h.no_break.2]

theorem isContent_bracket : IsContent ['['] :=
  ⟨⟨'[', [], rfl, by decide, by decide⟩, by decide, by decide, by decide⟩

theorem isContent_brace : IsContent ['{'] :=
  ⟨⟨'{', [], rfl, by decide, by decide⟩, by decide, by decide, by decide⟩

theorem formed_layout (v : Val F) : ∀ k, Formed (front k) (layout v) := by
  induction v using Val.layout_induct with
  | atom v h =>
    intro k
    obtain ⟨t, ht⟩ := h.text
    rw [ht.layout]
    exact .leaf (isContent_front k ht.content)
  | str s => exact fun k => .leaf (isContent_front k (isContent_strText s))
  | list x xs ih =>
    intro k
    refine .node (isContent_front k isContent_bracket) (by decide) fun m hm => ?_
    rw [layoutList_eq_map] at hm
    obtain ⟨y, hy, rfl⟩ := List.mem_map.mp hm
    exact ih y hy none
  | dict p d ih =>
    intro k
    refine .node (isContent_front k isContent_brace) (by decide) fun m hm => ?_
    rw [layoutItems_eq_map] at hm
    obtain ⟨q, hq, rfl⟩ := List.mem_map.mp hm
    exact ih q hq (some q.1)

end Json
