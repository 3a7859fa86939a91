import Catbench.ArrCsv.Model
import Catbench.Framework.Pieces

/-! # What the script makes of printed records

    A record is printed as its cells, with commas between them and braces around
    them.  The script finds the cells again: they stand on a line each, the
    opening brace is in front of the first one of a record, and the closing brace
    behind the last one (`wrap`).
-/

open Json Pieces Shell TextLines
open Jaguar (Text File)

namespace ArrCsv

/-! ## Section 1: Printed records -/

/-- What is printed of an item: the text between the quotes of the key, and the
    value. -/
structure Cell where
  key : Text
  value : Text

def Cell.text (c : Cell) : Text := '\'' :: c.key ++ '\'' :: ':' :: ' ' :: c.value

/-- The characters by which the script finds the cells. -/
def layout : List Char := [' ', ',', '{', '}', '\n']

structure Cell.Clean (c : Cell) : Prop where
  key : ∀ ch ∈ layout, ch ∉ c.key
  value : ∀ ch ∈ layout, ch ∉ c.value
  value_ne : c.value ≠ []

/-- The last line with a closing brace. -/
def closeLast : List Text → List Text
  | [] => []
  | [t] => [t ++ ['}']]
  | t :: t' :: ts => t :: closeLast (t' :: ts)

/-- The lines of a record. -/
def wrap : List Text → List Text
  | [] => [['{', '}']]
  | t :: ts => closeLast (('{' :: t) :: ts)

theorem closeLast_ne_nil {ts : List Text} (h : ts ≠ []) : closeLast ts ≠ [] := by
  induction ts using closeLast.induct with
  | case1 => exact absurd rfl h
  | case2 t => simp [closeLast]
  | case3 t t' ts ih => simp [closeLast]

theorem wrap_ne_nil (ts : List Text) : wrap ts ≠ [] := by
  cases ts with
  | nil => simp [wrap]
  | cons t ts => exact closeLast_ne_nil (by simp)

theorem length_closeLast (ts : List Text) : (closeLast ts).length = ts.length := by
  induction ts using closeLast.induct with
  | case1 => rfl
  | case2 t => rfl
  | case3 t t' ts ih =>
    rw [closeLast, List.length_cons, ih]
    rfl

theorem length_wrap {ts : List Text} (h : ts ≠ []) : (wrap ts).length = ts.length := by
  obtain ⟨t, ts, rfl⟩ := List.exists_cons_of_ne_nil h
  rw [wrap, length_closeLast]
  rfl

theorem intercalate_closeLast (sep : Text) {ts : List Text} (h : ts ≠ []) :
    sep.intercalate (closeLast ts) = sep.intercalate ts ++ ['}'] := by
  induction ts using closeLast.induct with
  | case1 => exact absurd rfl h
  | case2 t => simp [closeLast]
  | case3 t t' ts ih =>
    have hne : closeLast (t' :: ts) ≠ [] := closeLast_ne_nil (by simp)
    obtain ⟨u, us, hu⟩ := List.exists_cons_of_ne_nil hne
    have ih := ih (by simp)
    rw [closeLast, hu, List.intercalate_cons_cons, ← hu, ih, List.intercalate_cons_cons]
    simp

theorem intercalate_wrap (sep : Text) (ts : List Text) :
    sep.intercalate (wrap ts) = '{' :: (sep.intercalate ts ++ ['}']) := by
  cases ts with
  | nil => simp [wrap]
  | cons t ts =>
    rw [wrap, intercalate_closeLast sep (by simp)]
    cases ts with
    | nil => simp
    | cons t' ts => simp [List.intercalate_cons_cons]

/-- The lines of all records. -/
def recordLines (records : List (List Cell)) : List Text :=
  (records.map fun cells => wrap (cells.map Cell.text)).flatten

/-- What `jaguar get` prints. -/
def printed (records : List (List Cell)) : Text :=
  '[' :: ([',', ' '].intercalate (records.map fun cells =>
    '{' :: ([',', ' '].intercalate (cells.map Cell.text) ++ ['}'])) ++ [']'])

theorem printed_eq (records : List (List Cell)) :
    printed records = '[' :: ([',', ' '].intercalate (recordLines records) ++ [']']) := by
  have hmap : (records.map fun cells =>
      '{' :: ([',', ' '].intercalate (cells.map Cell.text) ++ ['}'])) =
      (records.map fun cells => wrap (cells.map Cell.text)).map [',', ' '].intercalate := by
    rw [List.map_map]
    exact List.map_congr_left fun cells _ => (intercalate_wrap _ _).symm
  rw [printed, hmap, intercalate_flatten]
  · rfl
  · intro ls hls
    obtain ⟨cells, -, rfl⟩ := List.mem_map.mp hls
    exact wrap_ne_nil _

/-! ## Section 2: Lines -/

theorem unbracket_brackets (t : Text) : unbracket ('[' :: (t ++ [']'])) = t := by
  simp [unbracket]

theorem breakCommas_append {t : Text} (h : ',' ∉ t) (u : Text) :
    breakCommas (t ++ u) = t ++ breakCommas u := by
  induction t with
  | nil => rfl
  | cons c t ih =>
    rw [List.mem_cons, not_or] at h
    rw [List.cons_append, breakCommas, ih h.2, List.cons_append]
    intro t' heq
    exact absurd heq.symm h.1

theorem breakCommas_intercalate {ls : List Text} (h : ∀ l ∈ ls, ',' ∉ l) :
    breakCommas ([',', ' '].intercalate ls) = ['\n'].intercalate ls := by
  have hself : ∀ {t : Text}, ',' ∉ t → breakCommas t = t := by
    intro t ht
    simpa [breakCommas] using breakCommas_append ht []
  induction ls with
  | nil => rfl
  | cons l ls ih =>
    rw [List.forall_mem_cons] at h
    cases ls with
    | nil => simpa using hself h.1
    | cons l' ls =>
      rw [List.intercalate_cons_cons, List.append_assoc, breakCommas_append h.1,
        List.cons_append, List.cons_append, List.nil_append, breakCommas, ih h.2,
        List.intercalate_cons_cons]
      simp

/-- The line of a cell. -/
def IsLine (c : Cell) (l : Text) : Prop :=
  ∃ opened closed, l = opened ++ c.text ++ closed ∧ (opened = [] ∨ opened = ['{']) ∧
    (closed = [] ∨ closed = ['}'])

theorem isLine_wrap {cells : List Cell} (h : cells ≠ []) :
    List.Forall₂ IsLine cells (wrap (cells.map Cell.text)) := by
  have hclose : ∀ (cs : List Cell) (c : Cell) (opened : Text), (opened = [] ∨ opened = ['{']) →
      List.Forall₂ IsLine (c :: cs) (closeLast ((opened ++ c.text) :: cs.map Cell.text)) := by
    intro cs
    induction cs with
    | nil => exact fun c opened ho => .cons ⟨opened, ['}'], by simp, ho, .inr rfl⟩ .nil
    | cons c' cs ih =>
      exact fun c opened ho => .cons ⟨opened, [], by simp, ho, .inl rfl⟩ (ih c' [] (.inl rfl))
  obtain ⟨c, cs, rfl⟩ := List.exists_cons_of_ne_nil h
  exact hclose cs c ['{'] (.inr rfl)

theorem isLine_recordLines {records : List (List Cell)} (h : ∀ cells ∈ records, cells ≠ []) :
    List.Forall₂ IsLine records.flatten (recordLines records) := by
  induction records with
  | nil => exact .nil
  | cons cells records ih =>
    rw [List.forall_mem_cons] at h
    exact List.rel_append (isLine_wrap h.1) (ih h.2)

theorem Cell.Clean.not_mem_text {c : Cell} (hc : c.Clean) (ch : Char) (h : ch ∈ layout)
    (hne : ch ≠ ' ') : ch ∉ c.text := by
  have hquote : ch ≠ '\'' ∧ ch ≠ ':' := by
    rcases List.mem_cons.mp h with rfl | h
    · exact absurd rfl hne
    · constructor <;> rintro rfl <;> simp at h
  simp [Cell.text, hc.key ch h, hc.value ch h, hne, hquote.1, hquote.2]

/-- The last word of a line is the value. -/
theorem lastField_line {c : Cell} (hc : c.Clean) {l : Text} (h : IsLine c l) :
    lastField ' ' (l.erase '}') = c.value := by
  obtain ⟨opened, closed, rfl, hopened, hclosed⟩ := h
  have hopened' : '}' ∉ opened := by rcases hopened with rfl | rfl <;> simp
  have htext := hc.not_mem_text '}' (by decide) (by decide)
  have herase : (opened ++ c.text ++ closed).erase '}' = opened ++ c.text := by
    rw [List.erase_append_right _ (by simp [hopened', htext])]
    rcases hclosed with rfl | rfl <;> simp
  have hvalue : ∀ ch ∈ c.value.reverse, decide (ch ≠ ' ') = true := by
    intro ch hch
    rw [decide_eq_true_eq]
    rintro rfl
    exact hc.value ' ' (by decide) (List.mem_reverse.mp hch)
  have hline : opened ++ c.text = opened ++ '\'' :: c.key ++ ['\'', ':', ' '] ++ c.value := by
    simp [Cell.text]
  rw [herase, hline, lastField, List.reverse_append, List.takeWhile_append_of_pos hvalue]
  simp

/-! ## Section 3: Columns -/

theorem findIdx?_closeLast {ts : List Text} (hne : ts ≠ []) (h : ∀ t ∈ ts, '}' ∉ t) :
    (closeLast ts).findIdx? ('}' ∈ ·) = some (ts.length - 1) := by
  induction ts using closeLast.induct with
  | case1 => exact absurd rfl hne
  | case2 t => simp [closeLast, List.findIdx?_cons]
  | case3 t t' ts ih =>
    rw [List.forall_mem_cons] at h
    rw [closeLast, List.findIdx?_cons, ih (by simp) h.2]
    simp [h.1]

theorem findIdx?_wrap_open (ts : List Text) (more : List Text) :
    (wrap ts ++ more).findIdx? ('{' ∈ ·) = some 0 := by
  cases ts with
  | nil => simp [wrap, List.findIdx?_cons]
  | cons t ts => cases ts <;> simp [wrap, closeLast, List.findIdx?_cons]

theorem findIdx?_wrap_close {ts : List Text} (hne : ts ≠ []) (h : ∀ t ∈ ts, '}' ∉ t)
    (more : List Text) : (wrap ts ++ more).findIdx? ('}' ∈ ·) = some (ts.length - 1) := by
  obtain ⟨t, ts, rfl⟩ := List.exists_cons_of_ne_nil hne
  rw [List.forall_mem_cons] at h
  have hfirst : ∀ u ∈ ('{' :: t) :: ts, '}' ∉ u := by
    rw [List.forall_mem_cons]
    exact ⟨by simp [h.1], h.2⟩
  rw [List.findIdx?_append, wrap, findIdx?_closeLast (by simp) hfirst]
  rfl

/-- One turn through the delimiters, after which the next begins if lines are left. -/
theorem pasteFrom_turn (ds : List Char) {ws : List Text} (hne : ws ≠ []) (rest : List Text) :
    pasteFrom ds (List.replicate (ws.length - 1) ',' ++ ['\n']) (ws ++ rest) =
      [','].intercalate ws ++ '\n' :: if rest = [] then [] else pasteFrom ds ds rest := by
  induction ws with
  | nil => exact absurd rfl hne
  | cons w ws ih =>
    cases ws with
    | nil =>
      cases rest with
      | nil => simp [pasteFrom]
      | cons r rest => simp [pasteFrom]
    | cons w' ws =>
      have ih := ih (by simp)
      simp only [List.length_cons, Nat.add_sub_cancel, List.replicate_succ, List.cons_append,
        List.intercalate_cons_cons] at ih ⊢
      rw [pasteFrom, if_neg (by simp), ih]
      simp

/-- Records of `n` cells with `n - 1` commas and a line break. -/
theorem paste_rows {n : ℕ} (hn : 0 < n) {wss : List (List Text)} (hne : wss ≠ [])
    (h : ∀ ws ∈ wss, ws.length = n) : paste (delims n) wss.flatten =
      ['\n'].intercalate (wss.map [','].intercalate) ++ ['\n'] := by
  have hdelims : delims n = List.replicate (n - 1) ',' ++ ['\n'] := by
    rw [delims, if_pos (by omega), Int.toNat_natCast]
  rw [paste, if_neg (by simp [hdelims])]
  induction wss with
  | nil => exact absurd rfl hne
  | cons ws wss ih =>
    rw [List.forall_mem_cons] at h
    have hws : ws ≠ [] := List.ne_nil_of_length_pos (by omega)
    have hturn := pasteFrom_turn (delims n) hws wss.flatten
    rw [h.1, ← hdelims] at hturn
    cases wss with
    | nil => simpa using hturn
    | cons ws' wss =>
      have hrest : (ws' :: wss).flatten ≠ [] := by
        have hlen := h.2 ws' List.mem_cons_self
        have hws' : ws' ≠ [] := List.ne_nil_of_length_pos (by omega)
        simp [hws']
      rw [if_neg hrest, ih (by simp) h.2] at hturn
      rw [List.flatten_cons, hturn]
      simp [List.intercalate_cons_cons]

/-! ## Section 4: The table -/

/-- Records of the same number of cells. -/
structure Even (n : ℕ) (records : List (List Cell)) : Prop where
  pos : 0 < n
  length : ∀ cells ∈ records, cells.length = n

def Clean (records : List (List Cell)) : Prop := ∀ cells ∈ records, ∀ c ∈ cells, c.Clean

/-- What the script keeps of the printed text. -/
def resText (records : List (List Cell)) : Text := ['\n'].intercalate (recordLines records)

section table
variable {n : ℕ} {cells : List Cell} {records : List (List Cell)} {echo : Echo}

theorem Even.ne_nil (h : Even n records) : ∀ cells ∈ records, cells ≠ [] := fun cells hcells =>
  List.ne_nil_of_length_pos (h.length cells hcells ▸ h.pos)

theorem mem_recordLines {l : Text} (hl : l ∈ recordLines records) :
    l = ['{', '}'] ∨ ∃ cells ∈ records, ∃ c ∈ cells, IsLine c l := by
  obtain ⟨ls, hls, hmem⟩ := List.mem_flatten.mp hl
  obtain ⟨cells, hcells, rfl⟩ := List.mem_map.mp hls
  by_cases hnil : cells = []
  · subst hnil
    exact .inl (by simpa [wrap] using hmem)
  · have hforall := isLine_wrap hnil
    obtain ⟨i, hi, rfl⟩ := List.getElem_of_mem hmem
    have hi' : i < cells.length := hforall.length_eq ▸ hi
    exact .inr ⟨cells, hcells, _, List.getElem_mem hi', hforall.get hi' hi⟩

theorem not_mem_recordLines (h : Clean records) {l : Text} (hl : l ∈ recordLines records) :
    ',' ∉ l ∧ '\n' ∉ l := by
  rcases mem_recordLines hl with rfl | ⟨cells, hcells, c, hc, opened, closed, rfl, ho, hcl⟩
  · simp
  · have hclean := h cells hcells c hc
    have hcomma := hclean.not_mem_text ',' (by decide) (by decide)
    have hbreak := hclean.not_mem_text '\n' (by decide) (by decide)
    rcases ho with rfl | rfl <;> rcases hcl with rfl | rfl <;> simp [hcomma, hbreak]

theorem recordLines_cons (cells : List Cell) (records : List (List Cell)) :
    recordLines (cells :: records) = wrap (cells.map Cell.text) ++ recordLines records := by
  rw [recordLines, List.map_cons, List.flatten_cons, recordLines]

theorem recordLines_ne_nil (cells : List Cell) (records : List (List Cell)) :
    recordLines (cells :: records) ≠ [] := by
  rw [recordLines_cons]
  exact List.append_ne_nil_of_left_ne_nil (wrap_ne_nil _) _

/-- The text ends with a brace. -/
theorem getLast?_resText (cells : List Cell) (records : List (List Cell)) :
    (resText (cells :: records)).getLast? ≠ some '\n' := by
  have hne : ∀ ls ∈ (cells :: records).map fun cs => wrap (cs.map Cell.text), ls ≠ [] := by
    intro ls hls
    obtain ⟨cs, -, rfl⟩ := List.mem_map.mp hls
    exact wrap_ne_nil _
  have hend : ∀ l ∈ (cells :: records).map fun cs => ['\n'].intercalate (wrap (cs.map Cell.text)),
      ∃ x, l.getLast? = some x ∧ x = '}' := by
    intro l hl
    obtain ⟨cs, -, rfl⟩ := List.mem_map.mp hl
    refine ⟨'}', ?_, rfl⟩
    rw [intercalate_wrap, ← List.cons_append, List.getLast?_append]
    rfl
  obtain ⟨x, hx, rfl⟩ := getLast?_intercalate ['\n'] (by simp) hend
  rw [resText, recordLines, ← intercalate_flatten ['\n'] hne, List.map_map]
  exact fun heq => absurd (hx.symm.trans heq) (by decide)

theorem command_substitution_printed (h : Clean (cells :: records)) :
    command_substitution (sed (breakCommas ∘ unbracket) (printed (cells :: records) ++ ['\n'])) =
      resText (cells :: records) := by
  have hcommas : ∀ l ∈ recordLines (cells :: records), ',' ∉ l :=
    fun l hl => (not_mem_recordLines h hl).1
  have hbreak : '\n' ∉ printed (cells :: records) := by
    rw [printed_eq]
    simp only [List.mem_cons, List.mem_append, not_or]
    refine ⟨by decide, fun hmem => ?_, by decide, by simp⟩
    rcases mem_intercalate hmem with hmem | ⟨l, hl, hmem⟩
    · simp at hmem
    · exact (not_mem_recordLines h hl).2 hmem
  have hline : ∀ l : Text, l ++ ['\n'] = TextLines.join [l] [] := by simp [TextLines.join]
  rw [sed, hline, lines_join (by simpa using hbreak), printed_eq, List.map_singleton,
    Function.comp_apply, unbracket_brackets, breakCommas_intercalate hcommas, ← hline]
  exact command_substitution_ended (getLast?_resText cells records)

theorem lines_resText (h : Clean (cells :: records))
    (hecho : echo.print (resText (cells :: records)) = resText (cells :: records) ++ ['\n']) :
    echoed echo (resText (cells :: records)) = recordLines (cells :: records) := by
  rw [echoed, hecho, resText, ← join_eq_intercalate (recordLines_ne_nil cells records)]
  exact lines_join fun l hl => (not_mem_recordLines h hl).2

/-- The number of the first line with a brace tells where the first record ends. -/
theorem linenum_resText (h : Even n (cells :: records)) (hclean : Clean (cells :: records))
    (hecho : echo.print (resText (cells :: records)) = resText (cells :: records) ++ ['\n']) :
    linenum '{' (echo.print (resText (cells :: records))) = some 1 ∧
      linenum '}' (echo.print (resText (cells :: records))) = some n := by
  have hlines := lines_resText hclean hecho
  have hlen := h.length cells List.mem_cons_self
  have hcells : cells.map Cell.text ≠ [] := by
    simpa using h.ne_nil cells List.mem_cons_self
  have hbrace : ∀ t ∈ cells.map Cell.text, '}' ∉ t := by
    intro t ht
    obtain ⟨c, hc, rfl⟩ := List.mem_map.mp ht
    exact (hclean cells List.mem_cons_self c hc).not_mem_text '}' (by decide) (by decide)
  rw [echoed] at hlines
  rw [linenum, linenum, hlines, recordLines_cons, findIdx?_wrap_open,
    findIdx?_wrap_close hcells hbrace, List.length_map, hlen]
  have hpos := h.pos
  exact ⟨rfl, congrArg some (Nat.sub_add_cancel hpos)⟩

theorem getLast?_rows (h : Even n (cells :: records)) (hclean : Clean (cells :: records)) :
    (['\n'].intercalate ((cells :: records).map fun cs =>
      [','].intercalate (cs.map Cell.value))).getLast? ≠ some '\n' := by
  have hvalue : ∀ cs ∈ cells :: records, ∀ t ∈ cs.map Cell.value,
      ∃ x, t.getLast? = some x ∧ x ≠ '\n' := by
    intro cs hcs t ht
    obtain ⟨c, hc, rfl⟩ := List.mem_map.mp ht
    have hc := hclean cs hcs c hc
    refine ⟨_, List.getLast?_eq_some_getLast hc.value_ne, fun heq => ?_⟩
    exact hc.value '\n' (by decide) (heq ▸ List.getLast_mem hc.value_ne)
  have hrow : ∀ l ∈ (cells :: records).map fun cs => [','].intercalate (cs.map Cell.value),
      ∃ x, l.getLast? = some x ∧ x ≠ '\n' := by
    intro l hl
    obtain ⟨cs, hcs, rfl⟩ := List.mem_map.mp hl
    exact getLast?_intercalate [','] (by simpa using h.ne_nil cs hcs) (hvalue cs hcs)
  obtain ⟨x, hx, hne⟩ := getLast?_intercalate ['\n'] (by simp) hrow
  rw [hx]
  exact fun heq => hne (Option.some.inj heq)

/-- The header comes from the lines of the first record, and the values from all
    lines. -/
theorem table_records (array : Text) (h : Even n (cells :: records)) (hclean : Clean (cells :: records))
    (hecho : echo.print (resText (cells :: records)) = resText (cells :: records) ++ ['\n']) :
    table echo array (printed (cells :: records) ++ ['\n']) =
      (command_substitution ([','].intercalate ((wrap (cells.map Cell.text)).map quoted) ++ ['\n']),
        ['\n'].intercalate ((cells :: records).map fun cs =>
          [','].intercalate (cs.map Cell.value))) := by
  obtain ⟨hopen, hclose⟩ := linenum_resText h hclean hecho
  have hlines := lines_resText hclean hecho
  have hlen := h.length cells List.mem_cons_self
  have hcells := h.ne_nil cells List.mem_cons_self
  have hpos := h.pos
  -- the lines of the header
  have hhead : head n (recordLines (cells :: records)) = wrap (cells.map Cell.text) := by
    have hwrap : (wrap (cells.map Cell.text)).length = n := by
      rw [length_wrap (by simpa using hcells), List.length_map, hlen]
    rw [head, if_pos (by omega), Int.toNat_natCast, recordLines_cons, ← hwrap, List.take_left]
  -- the last words
  have hvalues : (recordLines (cells :: records)).map (fun l => lastField ' ' (l.erase '}')) =
      ((cells :: records).map fun cs => cs.map Cell.value).flatten := by
    rw [map_eq_of_forall₂ (isLine_recordLines h.ne_nil) (g := Cell.value) fun c hc l hl => ?_]
    · exact List.map_flatten
    · obtain ⟨cs, hcs, hmem⟩ := List.mem_flatten.mp hc
      exact lastField_line (hclean cs hcs c hmem) hl
  have hwidth : ∀ ws ∈ (cells :: records).map fun cs => cs.map Cell.value, ws.length = n := by
    intro ws hws
    obtain ⟨cs, hcs, rfl⟩ := List.mem_map.mp hws
    rw [List.length_map, h.length cs hcs]
  have hrows := paste_rows hpos (by simp) hwidth
  have hheader : (wrap (cells.map Cell.text)).map quoted ≠ [] := by
    simpa using wrap_ne_nil _
  have hstride : ((n : ℕ) : ℤ) - (1 : ℕ) + 1 = n := by omega
  simp only [table, command_substitution_printed hclean, hopen, hclose, hlines, hstride, hhead, hvalues,
    hrows, paste_single]
  rw [List.map_map]
  exact congrArg (Prod.mk _) (command_substitution_ended (getLast?_rows h hclean))

/-- Without cells the braces themselves become the header. -/
theorem table_empty (array : Text) (h : Clean ([] :: records))
    (hecho : echo.print (resText ([] :: records)) = resText ([] :: records) ++ ['\n']) :
    (table echo array (printed ([] :: records) ++ ['\n'])).1 = ['{', '}'] := by
  have hlines := lines_resText h hecho
  have hfirst : recordLines ([] :: records) = ['{', '}'] :: recordLines records := by
    rw [recordLines_cons]
    rfl
  have hnum : ∀ c ∈ ['{', '}'], linenum c (echo.print (resText ([] :: records))) = some 1 := by
    intro c hc
    rw [echoed] at hlines
    rw [linenum, hlines, hfirst, List.findIdx?_cons, if_pos (by simpa using hc)]
    rfl
  have hhead : head ((1 : ℕ) - (1 : ℕ) + 1) (['{', '}'] :: recordLines records) = [['{', '}']] := by
    simp [head]
  simp only [table, command_substitution_printed h, hnum '{' (by simp), hnum '}' (by simp), hlines,
    hfirst, hhead]
  decide +kernel

end table

end ArrCsv
