import Catbench.ArrCsv.Pipeline

/-! # Records of a document

    What Python prints of records whose keys and strings are free of blanks,
    commas, quotes and brackets: cells that the script can tell apart.

    The script works on characters, and a string of a document is a sequence of
    code points; what is printed is compared with what is stored as code points.
-/

open Json Pieces Shell TextLines
open Jaguar (Text)

namespace ArrCsv

variable {F : Type} [FloatFormat F]

/-! ## Section 1: Records -/

abbrev Record (F : Type) : Type := List (Key × Val F)

/-- Spaces, commas, quotes, brackets and braces. -/
def marks : List Char := [' ', ',', '\'', '"', '[', ']', '{', '}']

def CleanStr (s : Str) : Prop := ∀ ch ∈ marks, CodePoint.ofChar ch ∉ s.points

instance (s : Str) : Decidable (CleanStr s) := List.decidableBAll _ marks

/-- A number or a nonempty string. -/
def IsField (v : Val F) : Prop := IsNumber v ∨ ∃ s, v = .str s ∧ s.points ≠ [] ∧ CleanStr s

/-- Records with the same keys. -/
structure Records (records : List (Record F)) : Prop where
  ne : records ≠ []
  keys : ∀ r ∈ records, ∀ r' ∈ records, ∀ k ∈ Dict.keys r, k ∈ Dict.keys r'
  clean : ∀ r ∈ records, ∀ k ∈ Dict.keys r, CleanStr k.text
  fields : ∀ r ∈ records, ∀ p ∈ r, IsField p.2

/-- A field as it is stored. -/
def fieldPoints : Val F → List CodePoint
  | .int z => (intText z).map CodePoint.ofChar
  | .float x => (floatRepr x).map CodePoint.ofChar
  | .str s => s.points
  | _ => []

def field (r : Record F) (k : Key) : List CodePoint := ((r.lookup k).map fieldPoints).getD []

/-- A line of the table. -/
def row (ws : List (List CodePoint)) : List CodePoint :=
  [CodePoint.ofChar ','].intercalate ws ++ [CodePoint.ofChar '\n']

/-- The keys in the order of the first record, and the values in that order. -/
def expected : List (Record F) → List CodePoint
  | [] => []
  | first :: records =>
    row ((Dict.keys first).map fun k => k.text.points) ++
      (first :: records).flatMap fun r => row ((Dict.keys first).map (field r))

/-! ## Section 2: Cells -/

section cells
variable (printable : Char → Bool)

def cellOf (p : Key × Val F) : Cell := ⟨strBody printable p.1.text, valRepr printable p.2⟩

def cellsOf (records : List (Record F)) : List (List Cell) :=
  records.map fun r => r.map (cellOf printable)

variable {printable}

theorem quoteOf_clean {s : Str} (h : CleanStr s) : quoteOf s = '\'' :=
  if_neg fun hq => h '\'' (by decide) hq.1

theorem strRepr_clean {s : Str} (h : CleanStr s) :
    strRepr printable s = '\'' :: strBody printable s ++ ['\''] := by
  rw [strRepr, quoteOf_clean h]

theorem layout_not_mem_strBody {s : Str} (h : CleanStr s) :
    ∀ ch ∈ layout, ch ∉ strBody printable s := by
  intro ch hch hmem
  obtain ⟨c, hc, hmem⟩ := List.mem_flatMap.mp hmem
  rw [quoteOf_clean h] at hmem
  by_cases hbreak : ch = '\n'
  · subst hbreak
    exact newline_not_mem_escape (by decide) hmem
  · -- the other characters are among those that the string does not have
    have hall : ∀ ch ∈ layout, ch ≠ '\n' → ch ∈ marks ∧ ch ≠ '\\' ∧ ch.isAlphanum = false := by
      simp [layout, marks]
    obtain ⟨hmark, hslash, halnum⟩ := hall ch hch hbreak
    refine not_mem_escape hslash halnum ?_ hmem
    rintro rfl
    exact h ch hmark hc

theorem quote_not_mem_strBody {s : Str} (h : CleanStr s) : '\'' ∉ strBody printable s := by
  intro hmem
  obtain ⟨c, hc, hmem⟩ := List.mem_flatMap.mp hmem
  refine not_mem_escape (by decide) (by decide) ?_ hmem
  rintro rfl
  exact h '\'' (by decide) hc

variable (printable) in
theorem layout_not_mem_number {v : Val F} (h : IsNumber v) :
    ∀ ch ∈ '\'' :: '\\' :: layout, ch ∉ valRepr printable v := by
  intro ch hch hmem
  have hall : ∀ ch ∈ '\'' :: '\\' :: layout,
      ch.isAlphanum = false ∧ ch ≠ '-' ∧ ch ≠ '+' ∧ ch ≠ '.' := by simp [layout]
  obtain ⟨halnum, hminus, hplus, hdot⟩ := hall ch hch
  rcases isReprChar_valRepr h ch hmem with h | h | h | h
  · simp [h] at halnum
  · exact hminus h
  · exact hplus h
  · exact hdot h

theorem clean_cellOf {p : Key × Val F} (hkey : CleanStr p.1.text) (hfield : IsField p.2) :
    (cellOf printable p).Clean := by
  refine ⟨layout_not_mem_strBody hkey, ?_, ?_⟩
  · rcases hfield with hnum | ⟨s, hs, -, hclean⟩
    · exact fun ch hch => layout_not_mem_number printable hnum ch (by simp [hch])
    · intro ch hch
      have hquote : ch ≠ '\'' := by
        rintro rfl
        exact absurd hch (by decide)
      rw [cellOf, hs, valRepr, strRepr_clean hclean]
      simp [layout_not_mem_strBody hclean ch hch, hquote]
  · rcases hfield with hnum | ⟨s, hs, -, -⟩
    · obtain ⟨c, t, ht, -⟩ := valRepr_number_start printable hnum
      rcases ht with ht | ht <;> simp [cellOf, ht]
    · simp [cellOf, hs, valRepr, strRepr]

variable (printable) in
theorem clean_cellsOf {records : List (Record F)} (h : Records records) :
    Clean (cellsOf printable records) := by
  intro cells hcells c hc
  obtain ⟨r, hr, rfl⟩ := List.mem_map.mp hcells
  obtain ⟨p, hp, rfl⟩ := List.mem_map.mp hc
  exact clean_cellOf (h.clean r hr p.1 (Dict.mem_keys_of_mem hp)) (h.fields r hr p hp)

theorem repr_records {records : List (Record F)} (h : Records records)
    (hplain : Plain (.list (records.map Val.dict))) :
    valRepr printable (.list (records.map Val.dict)) = printed (cellsOf printable records) := by
  have hitem : ∀ r ∈ records, ∀ p ∈ r, p.1.repr printable ++ ':' :: ' ' :: valRepr printable p.2 =
      (cellOf printable p).text := by
    intro r hr p hp
    have hclean := h.clean r hr p.1 (Dict.mem_keys_of_mem hp)
    have hstr : p.1.isStr = true := by
      cases hplain with
      | list hall => exact (hall _ (List.mem_map_of_mem hr)).plainKeys.1 _ (Dict.mem_keys_of_mem hp)
    obtain ⟨k, v⟩ := p
    cases k with
    | str s =>
      have hclean : CleanStr s := hclean
      simp [Key.repr, strRepr_clean hclean, cellOf, Cell.text, Key.text]
    | int i => cases hstr
  have hrecord : ∀ r ∈ records, valRepr printable (.dict r) =
      '{' :: ([',', ' '].intercalate ((r.map (cellOf printable)).map Cell.text) ++ ['}']) := by
    intro r hr
    rw [valRepr, reprItems_eq_map, List.map_map, List.map_congr_left fun p hp => hitem r hr p hp]
    rfl
  have hmap : records.map (valRepr printable ∘ Val.dict) = records.map fun r =>
      '{' :: ([',', ' '].intercalate ((r.map (cellOf printable)).map Cell.text) ++ ['}']) :=
    List.map_congr_left hrecord
  rw [valRepr, reprList_eq_map, List.map_map, printed, cellsOf, List.map_map, hmap]
  rfl

omit [FloatFormat F] in
theorem length_records {records : List (Record F)} (h : Records records)
    (hplain : Plain (.list (records.map Val.dict))) {r r' : Record F} (hr : r ∈ records)
    (hr' : r' ∈ records) : r.length = r'.length := by
  have hnodup : ∀ r ∈ records, (Dict.keys r).Nodup := by
    intro r hr
    cases hplain with
    | list hall => exact (hall _ (List.mem_map_of_mem hr)).plainKeys.2
  have hperm : (Dict.keys r).Perm (Dict.keys r') := by
    rw [List.perm_ext_iff_of_nodup (hnodup r hr) (hnodup r' hr')]
    exact fun k => ⟨h.keys r hr r' hr' k, h.keys r' hr' r hr k⟩
  simpa [Dict.keys] using hperm.length_eq

variable (printable) in
theorem even_cellsOf {records : List (Record F)} (h : Records records)
    (hplain : Plain (.list (records.map Val.dict))) {r : Record F} (hr : r ∈ records)
    (hne : r ≠ []) : Even r.length (cellsOf printable records) := by
  refine ⟨List.length_pos_of_ne_nil hne, fun cells hcells => ?_⟩
  obtain ⟨r', hr', rfl⟩ := List.mem_map.mp hcells
  rw [List.length_map, length_records h hplain hr' hr]

end cells

/-! ## Section 3: The header -/

/-- The key of a number is the only text between quotes in its line. -/
theorem quoted_line {c : Cell} {l : Text} (hkey : '\'' ∉ c.key) (hvalue : '\'' ∉ c.value)
    (h : IsLine c l) : quoted l = if c.key = [] then l else c.key := by
  obtain ⟨opened, closed, rfl, hopened, hclosed⟩ := h
  have hpieces : opened ++ c.text ++ closed =
      ['\''].intercalate [opened, c.key, ':' :: ' ' :: c.value ++ closed] := by
    simp [Cell.text, List.intercalate_cons_cons]
  have hfree : ∀ l ∈ [opened, c.key, ':' :: ' ' :: c.value ++ closed], '\'' ∉ l := by
    simp only [List.forall_mem_cons]
    refine ⟨?_, hkey, ?_, by simp⟩
    · rcases hopened with rfl | rfl <;> simp
    · rcases hclosed with rfl | rfl <;> simp [hvalue]
  unfold quoted
  rw [hpieces, List.splitOn_intercalate _ hfree (by simp)]
  by_cases hnil : c.key = [] <;> simp [hnil]

theorem isOption_mem {t : Text} (h : isOption t = true) : ∀ ch ∈ t, ch ∈ ['-', 'n', 'e', 'E'] := by
  unfold isOption at h
  split at h
  · rw [List.all_eq_true] at h
    rw [List.forall_mem_cons]
    exact ⟨by simp, fun ch hch => List.mem_cons_of_mem _ (by simpa using h ch hch)⟩
  · cases h

/-- What `bash` prints. -/
def bashEcho : Echo where
  print t := if isOption t then (if 'n' ∈ t then [] else ['\n']) else t ++ ['\n']
  print_text t _ h := by simp [h]

theorem bashEcho_text {t : Text} {ch : Char} (hch : ch ∈ t) (h : ch ∉ ['-', 'n', 'e', 'E']) :
    bashEcho.print t = t ++ ['\n'] := by
  have hopt : ¬isOption t = true := fun hopt => h (isOption_mem hopt ch hch)
  exact if_neg hopt

end ArrCsv
