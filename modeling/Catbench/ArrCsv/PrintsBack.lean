import Catbench.ArrCsv.Records
import Catbench.Jaguar.Commands
import Mathlib.Algebra.Order.BigOperators.Group.List

/-! # What `arrcsv` prints back

    A table of numbers under keys that Python prints as they are comes back as
    it was stored.  A string does not: it keeps its quotes among the values, and
    in the first record it takes the place of its key in the header, because the
    regular expression looks for the last text between quotes of the line.
-/

open Json Pieces Shell TextLines
open Jaguar (Text File)

namespace ArrCsv

variable {F : Type} [FloatFormat F]

/-! ## Section 1: The condition -/

/-- Every record has a key and nothing but numbers; the keys are not empty and
    printed as they are, a single key is no option of `echo`, and the values of
    every record, in its own order, are those in the order of the first. -/
structure Printable (printable : Char → Bool) (records : List (Record F)) : Prop where
  keyed : ∀ r ∈ records, r ≠ []
  numbers : ∀ r ∈ records, ∀ p ∈ r, IsNumber p.2
  named : ∀ r ∈ records, ∀ k ∈ Dict.keys r, k.text.points ≠ []
  verbatim : ∀ r ∈ records, ∀ k ∈ Dict.keys r, ∀ c ∈ k.text.points, Verbatim printable c
  no_option : ∀ r ∈ records, ∀ k, Dict.keys r = [k] →
    ∀ t : Text, t.map CodePoint.ofChar = k.text.points → isOption t = false
  ordered : ∀ first ∈ records.head?, ∀ r ∈ records,
    r.map (fun p => fieldPoints p.2) = (Dict.keys first).map (field r)

section script
variable (printable : Char → Bool) (files : Text → File) (jagfile array : Text)

/-- In every shell the script prints the records as they are stored. -/
def PrintsBack (records : List (Record F)) : Prop :=
  ∀ echo : Echo, (arrcsv F printable echo files true jagfile array).map CodePoint.ofChar =
    expected records

variable {printable files jagfile array} {echo : Echo} {doc : Val F} {first : Record F}
  {records : List (Record F)}

theorem plain_records (hdoc : Jaguar.read_document (files jagfile) = some doc)
    (hget : Jaguar.get doc array = .ok (.list (records.map Val.dict))) :
    Plain (.list (records.map Val.dict)) := by
  obtain ⟨ks, -, hresolve⟩ := Jaguar.get_eq_ok.mp hget
  exact Jaguar.plain_resolve (Jaguar.plain_of_read hdoc) hresolve

theorem arrcsv_eq (hdoc : Jaguar.read_document (files jagfile) = some doc)
    (hget : Jaguar.get doc array = .ok (.list (records.map Val.dict))) (h : Records records) :
    arrcsv F printable echo files true jagfile array =
      echo.print (table echo array (printed (cellsOf printable records) ++ ['\n'])).1 ++
        echo.print (table echo array (printed (cellsOf printable records) ++ ['\n'])).2 := by
  have hprint : jaguar_get (F := F) printable files jagfile array =
      printed (cellsOf printable records) ++ ['\n'] := by
    rw [jaguar_get, Jaguar.main_get files [] jagfile array hdoc, hget,
      ← repr_records h (plain_records hdoc hget)]
    rfl
  rw [arrcsv, hprint]
  rfl

/-! ## Section 2: What is printed -/

theorem brace_mem_resText (cells : List Cell) (more : List (List Cell)) :
    '{' ∈ resText (cells :: more) := by
  have hline : ∃ l ∈ wrap (cells.map Cell.text), '{' ∈ l := by
    match cells.map Cell.text with
    | [] => exact ⟨['{', '}'], by simp [wrap], by simp⟩
    | [t] => exact ⟨'{' :: t ++ ['}'], by simp [wrap, closeLast], by simp⟩
    | t :: u :: ts => exact ⟨'{' :: t, by simp [wrap, closeLast], by simp⟩
  obtain ⟨l, hl, hbrace⟩ := hline
  rw [resText, recordLines_cons]
  exact mem_intercalate_of_mem _ (List.mem_append_left _ hl) hbrace

/-- The last lines of the output: the values, a record on each line. -/
def rowsText (cells : List (List Cell)) : Text :=
  ['\n'].intercalate (cells.map fun cs => [','].intercalate (cs.map Cell.value))

/-- The header. -/
def headerText (cells : List Cell) : Text :=
  command_substitution ([','].intercalate ((wrap (cells.map Cell.text)).map quoted) ++ ['\n'])

theorem mem_rowsText {cells : List (List Cell)} {cs : List Cell} {c : Cell} {ch : Char}
    (hcs : cs ∈ cells) (hc : c ∈ cs) (hch : ch ∈ c.value) : ch ∈ rowsText cells :=
  mem_intercalate_of_mem _ (List.mem_map_of_mem hcs)
    (mem_intercalate_of_mem _ (List.mem_map_of_mem hc) hch)

variable (printable) in
/-- No value looks like an option. -/
theorem value_not_option {v : Val F} (h : IsField v) :
    ∃ ch ∈ valRepr printable v, ch ∉ ['-', 'n', 'e', 'E'] := by
  rcases h with hnum | ⟨s, rfl, -, hclean⟩
  · obtain ⟨c, t, ht, hc⟩ := valRepr_number_start printable hnum
    have hmem : ∀ ch ∈ c :: t, ch ∈ valRepr printable v := by
      intro ch hch
      rcases ht with ht | ht
      · rwa [ht]
      · rw [ht]
        exact List.mem_cons_of_mem _ hch
    rcases hc with hdigit | ⟨-, rfl⟩ | rfl
    · refine ⟨c, hmem c List.mem_cons_self, fun hmem => ?_⟩
      have hletter : ∀ ch ∈ ['-', 'n', 'e', 'E'], ch.isDigit = false := by simp
      rw [hletter c hmem] at hdigit
      cases hdigit
    · exact ⟨'a', hmem 'a' (by simp), by decide⟩
    · exact ⟨'i', hmem 'i' (by simp), by decide⟩
  · exact ⟨'\'', by simp [valRepr, strRepr_clean hclean], by decide⟩

variable (printable) in
theorem rows_not_option (h : Records (first :: records)) (hne : first ≠ []) :
    ∃ ch ∈ rowsText (cellsOf printable (first :: records)), ch ∉ ['-', 'n', 'e', 'E'] := by
  obtain ⟨p, ps, rfl⟩ := List.exists_cons_of_ne_nil hne
  have hfield := h.fields _ List.mem_cons_self p List.mem_cons_self
  obtain ⟨ch, hch, hopt⟩ := value_not_option printable hfield
  refine ⟨ch, ?_, hopt⟩
  exact mem_rowsText List.mem_cons_self List.mem_cons_self hch

/-- The output of a run under a shell that prints the three texts as they are. -/
theorem arrcsv_table (hdoc : Jaguar.read_document (files jagfile) = some doc)
    (hget : Jaguar.get doc array = .ok (.list ((first :: records).map Val.dict)))
    (h : Records (first :: records)) (hne : first ≠ [])
    (hres : echo.print (resText (cellsOf printable (first :: records))) =
      resText (cellsOf printable (first :: records)) ++ ['\n']) :
    arrcsv F printable echo files true jagfile array =
      echo.print (headerText (first.map (cellOf printable))) ++
        echo.print (rowsText (cellsOf printable (first :: records))) := by
  have heven := even_cellsOf printable h (plain_records hdoc hget)
    List.mem_cons_self hne
  have htable := table_records array heven (clean_cellsOf printable h) hres
  rw [arrcsv_eq hdoc hget h]
  exact congrArg (fun p : Text × Text => echo.print p.1 ++ echo.print p.2) htable

variable (printable) in
theorem arrcsv_bash (hdoc : Jaguar.read_document (files jagfile) = some doc)
    (hget : Jaguar.get doc array = .ok (.list ((first :: records).map Val.dict)))
    (h : Records (first :: records)) (hne : first ≠ []) :
    arrcsv F printable bashEcho files true jagfile array =
      bashEcho.print (headerText (first.map (cellOf printable))) ++
        (rowsText (cellsOf printable (first :: records)) ++ ['\n']) := by
  obtain ⟨ch, hch, hopt⟩ := rows_not_option printable h hne
  rw [arrcsv_table hdoc hget h hne (bashEcho_text (brace_mem_resText _ _) (by decide)),
    bashEcho_text hch hopt]

/-! ## Section 3: Numbers -/

variable (printable) in
theorem points_number {v : Val F} (h : IsNumber v) :
    (valRepr printable v).map CodePoint.ofChar = fieldPoints v := by
  cases v with
  | int z => rfl
  | float x => rfl
  | null | bool | str | list | dict => cases h

theorem mark_not_mem_number {v : Val F} (h : IsNumber v) :
    ∀ ch ∈ '\'' :: '\\' :: layout, CodePoint.ofChar ch ∉ fieldPoints v := by
  intro ch hch hmem
  rw [← points_number (fun _ => true) h, List.mem_map] at hmem
  obtain ⟨ch', hch', heq⟩ := hmem
  rw [CodePoint.ofChar_injective heq] at hch'
  exact layout_not_mem_number _ h ch hch hch'

/-- The values of every record in its own order. -/
def ownRows (records : List (Record F)) : List CodePoint :=
  records.flatMap fun r => row (r.map fun p => fieldPoints p.2)

theorem points_rows (hne : records ≠ []) (hnum : ∀ r ∈ records, ∀ p ∈ r, IsNumber p.2) :
    (rowsText (cellsOf printable records) ++ ['\n']).map CodePoint.ofChar = ownRows records := by
  have hrow : ∀ r ∈ records, ([','].intercalate ((r.map (cellOf printable)).map Cell.value) ++
      ['\n']).map CodePoint.ofChar = row (r.map fun p => fieldPoints p.2) := by
    intro r hr
    have hvalues : ((r.map (cellOf printable)).map Cell.value).map (List.map CodePoint.ofChar) =
        r.map fun p => fieldPoints p.2 := by
      rw [List.map_map, List.map_map]
      exact List.map_congr_left fun p hp => points_number printable (hnum r hr p hp)
    rw [List.map_append, map_intercalate, hvalues]
    rfl
  rw [rowsText, ← join_eq_intercalate (by simpa [cellsOf] using hne), TextLines.join, cellsOf,
    List.map_map, List.append_nil, List.flatMap_map, List.map_flatMap]
  exact List.flatMap_congr fun r hr => hrow r hr

/-- The last text between quotes is the key of a number, unless the key is empty. -/
theorem quoted_cell {p : Key × Val F} {l : Text} (hclean : CleanStr p.1.text) (hnum : IsNumber p.2)
    (hl : IsLine (cellOf printable p) l) :
    quoted l = if p.1.text.points = [] then l else strBody printable p.1.text := by
  rw [quoted_line (quote_not_mem_strBody hclean)
    (layout_not_mem_number printable hnum '\'' (by simp)) hl]
  exact if_congr strBody_eq_nil rfl rfl

section header
variable (h : Records (first :: records)) (hne : first ≠ []) (hnum : ∀ p ∈ first, IsNumber p.2)

omit [FloatFormat F] in
include h in
theorem clean_first : ∀ p ∈ first, CleanStr p.1.text := fun p hp =>
  h.clean first List.mem_cons_self p.1 (Dict.mem_keys_of_mem hp)

variable (printable) in
include hne in
theorem lines_first : List.Forall₂ (fun p l => IsLine (cellOf printable p) l) first
    (wrap ((first.map (cellOf printable)).map Cell.text)) := by
  rw [← List.forall₂_map_left_iff]
  exact isLine_wrap (by simpa using hne)

include h hne hnum in
theorem headerText_eq : headerText (first.map (cellOf printable)) =
    [','].intercalate ((wrap ((first.map (cellOf printable)).map Cell.text)).map quoted) := by
  refine command_substitution_append_newline fun hmem => ?_
  rcases mem_intercalate hmem with hmem | ⟨q, hq, hmem⟩
  · simp at hmem
  · obtain ⟨l, hl, rfl⟩ := List.mem_map.mp hq
    obtain ⟨p, hp, hline⟩ := mem_right_of_forall₂ (lines_first printable hne) hl
    rw [quoted_cell (clean_first h p hp) (hnum p hp) hline] at hmem
    split at hmem
    · have hclean := clean_cellsOf printable h _ List.mem_cons_self _
        (List.mem_map_of_mem hp)
      obtain ⟨opened, closed, rfl, ho, hc⟩ := hline
      have hbreak := hclean.not_mem_text '\n' (by decide) (by decide)
      rcases ho with rfl | rfl <;> rcases hc with rfl | rfl <;> simp [hbreak] at hmem
    · exact layout_not_mem_strBody (clean_first h p hp) '\n' (by decide) hmem

variable (printable) in
include h hne hnum in
theorem header_named (hnamed : ∀ p ∈ first, p.1.text.points ≠ []) :
    headerText (first.map (cellOf printable)) =
      [','].intercalate (first.map fun p => strBody printable p.1.text) := by
  rw [headerText_eq h hne hnum]
  refine congrArg _ (map_eq_of_forall₂ (lines_first printable hne) fun p hp l hl => ?_)
  rw [quoted_cell (clean_first h p hp) (hnum p hp) hl, if_neg (hnamed p hp)]

include h hne hnum in
/-- The line of an empty key is in the header as it is. -/
theorem header_unnamed {p : Key × Val F} (hp : p ∈ first) (hempty : p.1.text.points = []) :
    '\'' ∈ headerText (first.map (cellOf printable)) := by
  obtain ⟨l, hl, hline⟩ := mem_right_of_forall₂ (lines_first printable hne).flip hp
  rw [headerText_eq h hne hnum]
  refine mem_intercalate_of_mem _ (List.mem_map_of_mem hl) ?_
  rw [quoted_cell (clean_first h p hp) (hnum p hp) hline, if_pos hempty]
  obtain ⟨opened, closed, rfl, -, -⟩ := hline
  simp [Cell.text]

end header

/-! ## Section 4: What is expected -/

/-- The values of every record in the order of the first. -/
def expectedRows (first : Record F) (records : List (Record F)) : List CodePoint :=
  records.flatMap fun r => row ((Dict.keys first).map (field r))

theorem expected_cons (first : Record F) (records : List (Record F)) :
    expected (first :: records) =
      row (first.map fun p => p.1.text.points) ++ expectedRows first (first :: records) := by
  rw [expected, Dict.keys, List.map_map]
  rfl

theorem mem_row {ws : List (List CodePoint)} {x : CodePoint} (h : x ∈ row ws) :
    x = CodePoint.ofChar ',' ∨ x = CodePoint.ofChar '\n' ∨ ∃ w ∈ ws, x ∈ w := by
  rcases List.mem_append.mp h with h | h
  · rcases mem_intercalate h with h | h
    · exact .inl (List.mem_singleton.mp h)
    · exact .inr (.inr h)
  · exact .inr (.inl (List.mem_singleton.mp h))

theorem mem_field {r : Record F} {k : Key} {x : CodePoint} (h : x ∈ field r k) :
    ∃ p ∈ r, x ∈ fieldPoints p.2 := by
  unfold field at h
  cases hv : r.lookup k with
  | none => simp [hv] at h
  | some v =>
    rw [hv] at h
    exact ⟨(k, v), Dict.mem_of_lookup hv, h⟩

/-- There are no quotes in what is expected. -/
theorem quote_not_mem_expected (h : Records (first :: records)) :
    CodePoint.ofChar '\'' ∉ expected (first :: records) := by
  have hsep : CodePoint.ofChar '\'' ≠ CodePoint.ofChar ',' ∧
      CodePoint.ofChar '\'' ≠ CodePoint.ofChar '\n' := by decide
  rw [expected_cons, List.mem_append, not_or]
  constructor
  · intro hmem
    rcases mem_row hmem with heq | heq | ⟨w, hw, hmem⟩
    · exact hsep.1 heq
    · exact hsep.2 heq
    · obtain ⟨p, hp, rfl⟩ := List.mem_map.mp hw
      exact clean_first h p hp '\'' (by decide) hmem
  · intro hmem
    obtain ⟨r, hr, hmem⟩ := List.mem_flatMap.mp hmem
    rcases mem_row hmem with heq | heq | ⟨w, hw, hmem⟩
    · exact hsep.1 heq
    · exact hsep.2 heq
    · obtain ⟨k, -, rfl⟩ := List.mem_map.mp hw
      obtain ⟨p, hp, hmem⟩ := mem_field hmem
      rcases h.fields r hr p hp with hnum | ⟨s, hs, -, hclean⟩
      · exact mark_not_mem_number hnum '\'' (by simp) hmem
      · rw [hs] at hmem
        exact hclean '\'' (by decide) hmem

/-- Every character of the fields is in a field of the record. -/
def Drawn (r : Record F) (ws : List (List CodePoint)) : Prop :=
  ∀ w ∈ ws, ∀ x ∈ w, ∃ p ∈ r, x ∈ fieldPoints p.2

theorem drawn_own (r : Record F) : Drawn r (r.map fun p => fieldPoints p.2) := by
  intro w hw x hx
  obtain ⟨p, hp, rfl⟩ := List.mem_map.mp hw
  exact ⟨p, hp, hx⟩

theorem drawn_expected (first r : Record F) : Drawn r ((Dict.keys first).map (field r)) := by
  intro w hw x hx
  obtain ⟨k, -, rfl⟩ := List.mem_map.mp hw
  exact mem_field hx

theorem Drawn.mark_not_mem {r : Record F} {ws : List (List CodePoint)} (h : Drawn r ws)
    (hnum : ∀ p ∈ r, IsNumber p.2) {ch : Char} (hch : ch ∈ '\'' :: '\\' :: layout) :
    ∀ w ∈ ws, CodePoint.ofChar ch ∉ w := by
  intro w hw hmem
  obtain ⟨p, hp, hmem⟩ := h w hw _ hmem
  exact mark_not_mem_number (hnum p hp) ch hch hmem

section rows
variable {f g : Record F → List (List CodePoint)} (hnum : ∀ r ∈ records, ∀ p ∈ r, IsNumber p.2)
include hnum

theorem count_rows (hf : ∀ r, Drawn r (f r)) :
    (records.flatMap fun r => row (f r)).count (CodePoint.ofChar '\\') = 0 := by
  rw [List.count_eq_zero]
  intro hmem
  obtain ⟨r, hr, hmem⟩ := List.mem_flatMap.mp hmem
  rcases mem_row hmem with heq | heq | ⟨w, hw, hmem⟩
  · exact absurd heq (by decide)
  · exact absurd heq (by decide)
  · exact (hf r).mark_not_mem (hnum r hr) (by simp) w hw hmem

/-- No number has the line break of its row. -/
theorem break_not_mem_rows (hf : ∀ r, Drawn r (f r)) :
    ∀ l ∈ records.map (fun r => [CodePoint.ofChar ','].intercalate (f r)),
      CodePoint.ofChar '\n' ∉ l := by
  intro l hl hmem
  obtain ⟨r, hr, rfl⟩ := List.mem_map.mp hl
  rcases mem_intercalate hmem with heq | ⟨w, hw, hmem⟩
  · exact absurd (List.mem_singleton.mp heq) (by decide)
  · exact (hf r).mark_not_mem (hnum r hr) (by decide) w hw hmem

/-- Rows of one text have the same fields. -/
theorem rows_inj (hf : ∀ r, Drawn r (f r)) (hg : ∀ r, Drawn r (g r))
    (hfne : ∀ r ∈ records, f r ≠ []) (hgne : ∀ r ∈ records, g r ≠ [])
    (h : (records.flatMap fun r => row (f r)) = records.flatMap fun r => row (g r)) :
    ∀ r ∈ records, f r = g r := by
  have hlines : records.map (fun r => [CodePoint.ofChar ','].intercalate (f r)) =
      records.map fun r => [CodePoint.ofChar ','].intercalate (g r) := by
    refine flatMap_line_inj (break_not_mem_rows hnum hf) (break_not_mem_rows hnum hg) ?_
    rw [List.flatMap_map, List.flatMap_map]
    exact h
  intro r hr
  have hrow := congrArg (List.splitOn (CodePoint.ofChar ',')) (List.map_inj_left.mp hlines r hr)
  -- nor the comma of its field
  have hcomma : ',' ∈ '\'' :: '\\' :: layout := by decide
  rwa [List.splitOn_intercalate _ ((hf r).mark_not_mem (hnum r hr) hcomma) (hfne r hr),
    List.splitOn_intercalate _ ((hg r).mark_not_mem (hnum r hr) hcomma) (hgne r hr)] at hrow

end rows

/-! ## Section 5: Where the condition holds -/

omit [FloatFormat F] in
theorem points_strBody {s : Str} (hclean : CleanStr s)
    (hverbatim : ∀ c ∈ s.points, Verbatim printable c) :
    (strBody printable s).map CodePoint.ofChar = s.points := by
  rw [strBody, quoteOf_clean hclean]
  exact escapes_verbatim hverbatim (hclean '\'' (by decide))

omit [FloatFormat F] in
theorem slash_not_mem_strBody {s : Str} (hclean : CleanStr s)
    (hverbatim : ∀ c ∈ s.points, Verbatim printable c) : '\\' ∉ strBody printable s := by
  intro hmem
  have hpoint : CodePoint.ofChar '\\' ∈ s.points :=
    points_strBody hclean hverbatim ▸ List.mem_map_of_mem hmem
  exact (hverbatim _ hpoint).1 rfl

omit [FloatFormat F] in
/-- A header of keys that are printed as they are. -/
theorem points_header (h : Records (first :: records))
    (hverbatim : ∀ p ∈ first, ∀ c ∈ p.1.text.points, Verbatim printable c) :
    ([','].intercalate (first.map fun p => strBody printable p.1.text)).map CodePoint.ofChar =
      [CodePoint.ofChar ','].intercalate (first.map fun p => p.1.text.points) := by
  have hpoints : (first.map fun p => strBody printable p.1.text).map (List.map CodePoint.ofChar) =
      first.map fun p => p.1.text.points := by
    rw [List.map_map]
    exact List.map_congr_left fun p hp => points_strBody (clean_first h p hp) (hverbatim p hp)
  rw [map_intercalate, hpoints]
  rfl

theorem output_points (h : Records (first :: records))
    (hnum : ∀ r ∈ first :: records, ∀ p ∈ r, IsNumber p.2)
    (hverbatim : ∀ p ∈ first, ∀ c ∈ p.1.text.points, Verbatim printable c) :
    ([','].intercalate (first.map fun p => strBody printable p.1.text) ++ ['\n'] ++
      (rowsText (cellsOf printable (first :: records)) ++ ['\n'])).map CodePoint.ofChar =
      row (first.map fun p => p.1.text.points) ++ ownRows (first :: records) := by
  rw [List.map_append, List.map_append, points_header h hverbatim, points_rows (by simp) hnum]
  rfl

/-- No text of the script has a backslash. -/
theorem slash_not_mem_resText (h : Records records)
    (hnum : ∀ r ∈ records, ∀ p ∈ r, IsNumber p.2)
    (hverbatim : ∀ r ∈ records, ∀ k ∈ Dict.keys r, ∀ c ∈ k.text.points, Verbatim printable c) :
    '\\' ∉ resText (cellsOf printable records) := by
  intro hmem
  rcases mem_intercalate hmem with hmem | ⟨l, hl, hmem⟩
  · simp at hmem
  · rcases mem_recordLines hl with rfl | ⟨cells, hcells, c, hc, opened, closed, rfl, ho, hcl⟩
    · simp at hmem
    · obtain ⟨r, hr, rfl⟩ := List.mem_map.mp hcells
      obtain ⟨p, hp, rfl⟩ := List.mem_map.mp hc
      have hkey := Dict.mem_keys_of_mem hp
      have hbody := slash_not_mem_strBody (h.clean r hr _ hkey) (hverbatim r hr _ hkey)
      have hvalue := layout_not_mem_number printable (hnum r hr p hp) '\\' (by simp)
      rcases ho with rfl | rfl <;> rcases hcl with rfl | rfl <;>
        simp [Cell.text, cellOf, hbody, hvalue] at hmem

theorem slash_not_mem_rowsText (hnum : ∀ r ∈ records, ∀ p ∈ r, IsNumber p.2) :
    '\\' ∉ rowsText (cellsOf printable records) := by
  intro hmem
  rcases mem_intercalate hmem with hmem | ⟨l, hl, hmem⟩
  · simp at hmem
  · obtain ⟨cs, hcs, rfl⟩ := List.mem_map.mp hl
    obtain ⟨r, hr, rfl⟩ := List.mem_map.mp hcs
    rcases mem_intercalate hmem with hmem | ⟨w, hw, hmem⟩
    · simp at hmem
    · obtain ⟨c, hc, rfl⟩ := List.mem_map.mp hw
      obtain ⟨p, hp, rfl⟩ := List.mem_map.mp hc
      exact layout_not_mem_number printable (hnum r hr p hp) '\\' (by simp) hmem

theorem print_rows (h : Records (first :: records)) (hne : first ≠ [])
    (hnum : ∀ r ∈ first :: records, ∀ p ∈ r, IsNumber p.2) (echo : Echo) :
    echo.print (rowsText (cellsOf printable (first :: records))) =
      rowsText (cellsOf printable (first :: records)) ++ ['\n'] := by
  obtain ⟨ch, hch, hopt⟩ := rows_not_option printable h hne
  refine echo.print_text _ (slash_not_mem_rowsText hnum) ?_
  exact eq_false_of_ne_true fun hoption => hopt (isOption_mem hoption ch hch)

/-- Two keys have a comma between them, which no option has. -/
theorem header_not_option (h : Records (first :: records))
    (hp : Printable printable (first :: records)) :
    isOption ([','].intercalate (first.map fun p => strBody printable p.1.text)) = false := by
  have hmem : first ∈ first :: records := List.mem_cons_self
  match first, h, hp, hmem with
  | [], _, hp, hmem => exact absurd rfl (hp.keyed _ hmem)
  | [p], h, hp, hmem =>
    rw [List.map_singleton, List.intercalate_singleton]
    refine hp.no_option _ hmem p.1 rfl _ (points_strBody (clean_first h p (by simp)) ?_)
    exact hp.verbatim _ hmem p.1 (by simp)
  | p :: q :: ps, _, _, _ =>
    refine eq_false_of_ne_true fun hoption => ?_
    have hcomma := isOption_mem hoption ',' (by simp [List.intercalate_cons_cons])
    simp at hcomma

theorem prints_of_printable (hdoc : Jaguar.read_document (files jagfile) = some doc)
    (hget : Jaguar.get doc array = .ok (.list ((first :: records).map Val.dict)))
    (h : Records (first :: records)) (hp : Printable printable (first :: records)) :
    PrintsBack printable files jagfile array (first :: records) := by
  intro echo
  have hmem : first ∈ first :: records := List.mem_cons_self
  have hne := hp.keyed first hmem
  have hverbatim : ∀ p ∈ first, ∀ c ∈ p.1.text.points, Verbatim printable c := fun p hpf =>
    hp.verbatim first hmem p.1 (Dict.mem_keys_of_mem hpf)
  have hnamed : ∀ p ∈ first, p.1.text.points ≠ [] := fun p hpf =>
    hp.named first hmem p.1 (Dict.mem_keys_of_mem hpf)
  -- the three texts are printed as they are
  have hres : echo.print (resText (cellsOf printable (first :: records))) =
      resText (cellsOf printable (first :: records)) ++ ['\n'] := by
    refine echo.print_text _ (slash_not_mem_resText h hp.numbers hp.verbatim) ?_
    refine eq_false_of_ne_true fun hoption => ?_
    have hbrace := isOption_mem hoption '{' (brace_mem_resText _ _)
    simp at hbrace
  have hheader : '\\' ∉ [','].intercalate (first.map fun p => strBody printable p.1.text) := by
    intro hslash
    rcases mem_intercalate hslash with hslash | ⟨l, hl, hslash⟩
    · simp at hslash
    · obtain ⟨p, hpf, rfl⟩ := List.mem_map.mp hl
      exact slash_not_mem_strBody (clean_first h p hpf) (hverbatim p hpf) hslash
  -- the order of every record is that of the first
  have hrows : ownRows (first :: records) = expectedRows first (first :: records) :=
    List.flatMap_congr fun r hr => congrArg row (hp.ordered first rfl r hr)
  rw [arrcsv_table hdoc hget h hne hres, header_named printable h hne (hp.numbers first hmem) hnamed,
    echo.print_text _ hheader (header_not_option h hp), print_rows h hne hp.numbers echo,
    output_points h hp.numbers hverbatim, expected_cons, hrows]

/-! ## Section 6: Where it does not -/

section bash
variable (hdoc : Jaguar.read_document (files jagfile) = some doc)
  (hget : Jaguar.get doc array = .ok (.list ((first :: records).map Val.dict)))
  (h : Records (first :: records))
  (hbash : (arrcsv F printable bashEcho files true jagfile array).map CodePoint.ofChar =
    expected (first :: records))

include hdoc hget h hbash

/-- Without keys the header would be a pair of braces. -/
theorem keyed_of_bash : first ≠ [] := by
  rintro rfl
  have htable := table_empty array (clean_cellsOf printable h)
    (bashEcho_text (brace_mem_resText _ _) (by decide))
  have hfirst : (table bashEcho array
      (printed (cellsOf printable ([] :: records)) ++ ['\n'])).1 = ['{', '}'] := htable
  rw [arrcsv_eq hdoc hget h, hfirst, expected_cons] at hbash
  have hhead := congrArg List.head? hbash
  simp [bashEcho, isOption, row] at hhead
  exact absurd hhead (by decide)

theorem keyed_all_of_bash : ∀ r ∈ first :: records, r ≠ [] := by
  rintro r hr rfl
  refine keyed_of_bash hdoc hget h hbash ?_
  have hkeys := h.keys first List.mem_cons_self [] hr
  exact List.eq_nil_iff_forall_not_mem.mpr fun p hp =>
    List.not_mem_nil (hkeys p.1 (Dict.mem_keys_of_mem hp))

theorem quote_not_mem_of_bash :
    '\'' ∉ headerText (first.map (cellOf printable)) ∧
      '\'' ∉ rowsText (cellsOf printable (first :: records)) := by
  have hne := keyed_of_bash hdoc hget h hbash
  have hout := arrcsv_bash printable hdoc hget h hne
  have hquote : '\'' ∉ arrcsv F printable bashEcho files true jagfile array := fun hmem =>
    quote_not_mem_expected h (hbash ▸ List.mem_map_of_mem hmem)
  rw [hout] at hquote
  constructor
  · intro hmem
    rw [bashEcho_text hmem (by decide)] at hquote
    exact hquote (by simp [hmem])
  · exact fun hmem => hquote (by simp [hmem])

/-- A string would be printed with its quotes. -/
theorem numbers_of_bash : ∀ r ∈ first :: records, ∀ p ∈ r, IsNumber p.2 := by
  intro r hr p hp
  refine (h.fields r hr p hp).resolve_right ?_
  rintro ⟨s, hs, -, hclean⟩
  have hquote : '\'' ∈ (cellOf printable p).value := by
    simp [cellOf, hs, valRepr, strRepr_clean hclean]
  exact (quote_not_mem_of_bash hdoc hget h hbash).2
    (mem_rowsText (List.mem_map_of_mem hr) (List.mem_map_of_mem hp) hquote)

/-- The line of an empty key would be in the header. -/
theorem named_of_bash : ∀ p ∈ first, p.1.text.points ≠ [] := by
  intro p hp hempty
  have hnum := numbers_of_bash hdoc hget h hbash first List.mem_cons_self
  exact (quote_not_mem_of_bash hdoc hget h hbash).1
    (header_unnamed h (keyed_of_bash hdoc hget h hbash) hnum hp hempty)

/-- The output as far as it is known by then. -/
theorem output_of_bash : (bashEcho.print ([','].intercalate
      (first.map fun p => strBody printable p.1.text))).map CodePoint.ofChar ++
      ownRows (first :: records) =
    row (first.map fun p => p.1.text.points) ++ expectedRows first (first :: records) := by
  have hne := keyed_of_bash hdoc hget h hbash
  have hnum := numbers_of_bash hdoc hget h hbash
  have hheader := header_named printable h hne (hnum first List.mem_cons_self)
    (named_of_bash hdoc hget h hbash)
  rw [arrcsv_bash printable hdoc hget h hne, hheader, List.map_append, points_rows (by simp) hnum,
    expected_cons] at hbash
  exact hbash

/-- A key that is not printed as it is would be printed with more backslashes. -/
theorem verbatim_of_bash : ∀ p ∈ first, ∀ c ∈ p.1.text.points, Verbatim printable c := by
  intro p hp c hc
  by_contra hnot
  have hnum := numbers_of_bash hdoc hget h hbash
  have hout := output_of_bash hdoc hget h hbash
  have hslash : ∀ q ∈ first, q.1.text.points.count (CodePoint.ofChar '\\') ≤
      (strBody printable q.1.text).count '\\' := fun q _ => (count_escapes _).1
  have hmore : p.1.text.points.count (CodePoint.ofChar '\\') <
      (strBody printable p.1.text).count '\\' := (count_escapes _).2 ⟨c, hc, hnot⟩
  have hsum : (first.map fun q => q.1.text.points.count (CodePoint.ofChar '\\')).sum <
      (first.map fun q => (strBody printable q.1.text).count '\\').sum :=
    List.sum_lt_sum _ _ hslash ⟨p, hp, hmore⟩
  -- so it is printed as a text
  have hmem : '\\' ∈ [','].intercalate (first.map fun q => strBody printable q.1.text) :=
    mem_intercalate_of_mem _ (List.mem_map_of_mem hp) (List.count_pos_iff.mp (by omega))
  rw [bashEcho_text hmem (by decide)] at hout
  have hcount := congrArg (List.count (CodePoint.ofChar '\\')) hout
  have hleft : (([','].intercalate (first.map fun q => strBody printable q.1.text) ++
      ['\n']).map CodePoint.ofChar).count (CodePoint.ofChar '\\') =
      (first.map fun q => (strBody printable q.1.text).count '\\').sum := by
    rw [List.count_map_of_injective _ _ CodePoint.ofChar_injective, List.count_append,
      count_intercalate (by decide), List.map_map]
    rfl
  have hright : (row (first.map fun q => q.1.text.points)).count (CodePoint.ofChar '\\') =
      (first.map fun q => q.1.text.points.count (CodePoint.ofChar '\\')).sum := by
    rw [row, List.count_append, count_intercalate (by decide), List.map_map]
    rfl
  rw [List.count_append, List.count_append, ownRows, expectedRows, count_rows hnum drawn_own,
    count_rows hnum (drawn_expected first), hleft, hright] at hcount
  omega

/-- A header that is printed as a text leaves the rows. -/
theorem rows_of_bash (htext : bashEcho.print ([','].intercalate
      (first.map fun p => strBody printable p.1.text)) =
      [','].intercalate (first.map fun p => strBody printable p.1.text) ++ ['\n']) :
    ownRows (first :: records) = expectedRows first (first :: records) := by
  have hout := output_of_bash hdoc hget h hbash
  rw [htext, List.map_append, points_header h (verbatim_of_bash hdoc hget h hbash)] at hout
  exact List.append_cancel_left hout

end bash

/-- A record with a single key has no order. -/
theorem own_single {r : Record F} {k : Key} (hr : Dict.keys r = [k]) :
    r.map (fun p => fieldPoints p.2) = [field r k] := by
  match r, hr with
  | [p], hr =>
    have hk : p.1 = k := by simpa [Dict.keys] using hr
    have hlookup : [p].lookup k = some p.2 := by
      rw [← hk]
      exact List.lookup_cons_self
    rw [field, hlookup]
    rfl

omit [FloatFormat F] in
theorem keys_single (h : Records records) (hplain : Plain (.list (records.map Val.dict)))
    {r r' : Record F} {k : Key} (hr : r ∈ records) (hr' : r' ∈ records)
    (hk : Dict.keys r = [k]) : Dict.keys r' = [k] := by
  have hlength : r'.length = 1 := by
    rw [← length_records h hplain hr hr', ← List.length_map Prod.fst]
    exact congrArg List.length hk
  obtain ⟨p, rfl⟩ := List.length_eq_one_iff.mp hlength
  have hmem := h.keys _ hr' r hr p.1 (by simp [Dict.keys])
  rw [hk, List.mem_singleton] at hmem
  simp [Dict.keys, hmem]

theorem rows_single (h : Records (first :: records))
    (hplain : Plain (.list ((first :: records).map Val.dict))) {k : Key}
    (hk : Dict.keys first = [k]) :
    ∀ r ∈ first :: records, r.map (fun p => fieldPoints p.2) = (Dict.keys first).map (field r) := by
  intro r hr
  rw [own_single (keys_single h hplain List.mem_cons_self hr hk), hk, List.map_singleton]

section bash
variable (hdoc : Jaguar.read_document (files jagfile) = some doc)
  (hget : Jaguar.get doc array = .ok (.list ((first :: records).map Val.dict)))
  (h : Records (first :: records))
  (hbash : (arrcsv F printable bashEcho files true jagfile array).map CodePoint.ofChar =
    expected (first :: records))

include hdoc hget h hbash

theorem ordered_of_bash :
    ∀ r ∈ first :: records, r.map (fun p => fieldPoints p.2) = (Dict.keys first).map (field r) := by
  have hne := keyed_all_of_bash hdoc hget h hbash
  match first, h, hne with
  | [], _, hne => exact absurd rfl (hne [] List.mem_cons_self)
  | [p], h, _ => exact rows_single h (plain_records hdoc hget) rfl
  | p :: q :: ps, h, hne =>
    have hcomma : ',' ∈ [','].intercalate ((p :: q :: ps).map fun p =>
        strBody printable p.1.text) := by simp [List.intercalate_cons_cons]
    have hheader := bashEcho_text hcomma (by decide)
    have hrows := rows_of_bash hdoc hget h hbash hheader
    refine rows_inj (numbers_of_bash hdoc hget h hbash) drawn_own (drawn_expected _) ?_ ?_ hrows
    · exact fun r hr => by simpa using hne r hr
    · simp [Dict.keys]

/-- An option would be printed as an empty line or not at all. -/
theorem no_option_of_bash : ∀ r ∈ first :: records, ∀ k, Dict.keys r = [k] →
    ∀ t : Text, t.map CodePoint.ofChar = k.text.points → isOption t = false := by
  intro r hr k hk t ht
  have hplain := plain_records hdoc hget
  have hfirst := keys_single h hplain hr List.mem_cons_self hk
  have hout := output_of_bash hdoc hget h hbash
  have hverbatim := verbatim_of_bash hdoc hget h hbash
  have hrows : ownRows (first :: records) = expectedRows first (first :: records) :=
    List.flatMap_congr fun r hr => congrArg row (rows_single h hplain hfirst r hr)
  match first, h, hfirst, hout, hverbatim, hrows with
  | [p], h, hfirst, hout, hverbatim, hrows =>
    have hp : p.1 = k := by simpa [Dict.keys] using hfirst
    have hheader : strBody printable p.1.text = t := by
      refine CodePoint.ofChar_injective.list_map ?_
      rw [points_strBody (clean_first h p (by simp)) (hverbatim p (by simp)), hp, ht]
    rw [hrows, List.map_singleton, List.intercalate_singleton, hheader, List.map_singleton, hp,
      ← ht] at hout
    refine eq_false_of_ne_true fun hoption => ?_
    have hlength := congrArg List.length (List.append_cancel_right hout)
    have hlong : 2 ≤ t.length := by
      unfold isOption at hoption
      split at hoption <;> simp at hoption ⊢
    have hshort : (bashEcho.print t).length ≤ 1 := by
      simp only [bashEcho, hoption, if_true]
      split <;> simp
    simp only [row, List.intercalate_singleton, List.length_append, List.length_map] at hlength
    omega

theorem printable_of_bash : Printable printable (first :: records) where
  keyed := keyed_all_of_bash hdoc hget h hbash
  numbers := numbers_of_bash hdoc hget h hbash
  named := by
    intro r hr k hk
    obtain ⟨p, hp, rfl⟩ := List.mem_map.mp (h.keys r hr first List.mem_cons_self k hk)
    exact named_of_bash hdoc hget h hbash p hp
  verbatim := by
    intro r hr k hk
    obtain ⟨p, hp, rfl⟩ := List.mem_map.mp (h.keys r hr first List.mem_cons_self k hk)
    exact verbatim_of_bash hdoc hget h hbash p hp
  no_option := no_option_of_bash hdoc hget h hbash
  ordered := by
    rintro _ ⟨⟩
    exact ordered_of_bash hdoc hget h hbash

end bash

/-! ## Section 7: The condition is exact -/

/-- The records come back exactly if they are numbers under keys that are printed as
    they are. -/
theorem printsBack_iff (hdoc : Jaguar.read_document (files jagfile) = some doc)
    (hget : Jaguar.get doc array = .ok (.list (records.map Val.dict))) (h : Records records) :
    PrintsBack printable files jagfile array records ↔ Printable printable records := by
  obtain ⟨first, records, rfl⟩ := List.exists_cons_of_ne_nil h.ne
  constructor
  · exact fun hback => printable_of_bash hdoc hget h (hback bashEcho)
  · exact prints_of_printable hdoc hget h

end script

def key (t : String) : Key := .str (Str.ofText t.toList)

/-- An array of records in an object. -/
def samples (records : List (Record Whole)) : Val Whole :=
  .dict [(key "samples", .list (records.map Val.dict))]

/-- Two samples of numbers. -/
def numberWays : List (Record Whole) :=
  [[(key "cache_ways", .int 2), (key "clients", .int 8)],
    [(key "cache_ways", .int 4), (key "clients", .int 16)]]

/-- A sample whose ways are a string. -/
def stringWays : List (Record Whole) := [[(key "cache_ways", .str (Str.ofText ['2']))]]

theorem printsBack_ways :
    PrintsBack (fun _ => true) (Jaguar.fileOf ['f'] (samples numberWays)) ['f'] "samples".toList
        numberWays ↔
      Printable (fun _ => true) numberWays := by
  have hdone : (dump (samples numberWays)).done = true := by decide
  refine printsBack_iff (load_dump hdone) rfl ⟨by decide, by decide, by decide, ?_⟩
  intro r hr p hp
  have hnum : ∀ r ∈ numberWays, ∀ p ∈ r, IsNumber p.2 := by decide
  exact .inl (hnum r hr p hp)

/-- The header is the value, and the value has its quotes. -/
theorem stringWays_not_printed_back :
    Jaguar.read_document (Jaguar.fileOf ['f'] (samples stringWays) ['f']) =
        some (samples stringWays) ∧
      Jaguar.get (samples stringWays) "samples".toList =
        .ok (.list (stringWays.map Val.dict)) ∧
      Records stringWays ∧
      ∀ echo : Echo, (arrcsv Whole (fun _ => true) echo
        (Jaguar.fileOf ['f'] (samples stringWays)) true ['f'] "samples".toList).map
          CodePoint.ofChar ≠ expected stringWays := by
  have hdone : (dump (samples stringWays)).done = true := by decide
  have hdoc : Jaguar.read_document (Jaguar.fileOf ['f'] (samples stringWays) ['f']) =
      some (samples stringWays) := load_dump hdone
  have hget : Jaguar.get (samples stringWays) "samples".toList =
      .ok (.list (stringWays.map Val.dict)) := rfl
  have hrecords : Records stringWays := by
    refine ⟨by decide, by decide, by decide, fun r hr p hp => .inr ?_⟩
    have hstr : ∀ r ∈ stringWays, ∀ p ∈ r, p.2 = .str (Str.ofText ['2']) := by simp [stringWays]
    exact ⟨_, hstr r hr p hp, by decide, by decide⟩
  refine ⟨hdoc, hget, hrecords, fun echo hback => quote_not_mem_expected hrecords (hback ▸ ?_)⟩
  rw [arrcsv_table hdoc hget hrecords (by decide) (echo.print_text _ (by decide) (by decide)),
    echo.print_text (rowsText _) (by decide) (by decide)]
  refine List.mem_map_of_mem (List.mem_append_right _ (List.mem_append_left _ ?_))
  decide

end ArrCsv
