import Catbench.CsvMerge.Rounds
import Catbench.Framework.TextLines

/-! # The columns of `csvmerge`

    What becomes of the columns of files about which nothing is known but that
    their lines have the same number of delimiters: cells may be empty, the
    delimiter may be a space to `strip`, the keys come in any order.

    The script strips the header, the rest of the header and the rest of every
    row.  It keeps the columns aligned iff that takes nothing away that counts.
-/

open Json (intText)
open Jaguar (Text isspace strip splitAt int readlines)

namespace CsvMerge

variable {delim : Char} {d : ℕ}

/-! ## Section 1: Files -/

/-- The text after the first delimiter. -/
def remainder (delim : Char) (t : Text) : Text := t.drop (t.idxOf delim + 1)

/-- A line with an integer in its first column. -/
structure DataRow (delim : Char) (d : ℕ) where
  line : Text
  key : ℤ
  count_line : line.count delim = d
  int_key : int ((splitAt (· = delim) line).headD []) = some key

/-- The columns after the first one. -/
def DataRow.columns (row : DataRow delim d) : List Text := (splitAt (· = delim) row.line).tail

/-- A file: a header, and data rows in any order. -/
structure Csv (delim : Char) (d : ℕ) where
  text : Text
  header : Text
  rows : List (DataRow delim d)
  lines_eq : TextLines.lines text = header :: rows.map DataRow.line
  count_header : header.count delim = d

/-- The blocks are the rows in their order, and placeholders between them. -/
inductive Padded (d : ℕ) : List (List Text) → List (List Text) → Prop where
  | nil : Padded d [] []
  | pad {rows blocks : List (List Text)} (h : Padded d rows blocks) :
    Padded d rows (List.replicate d [] :: blocks)
  | row {rows blocks : List (List Text)} (row : List Text) (h : Padded d rows blocks) :
    Padded d (row :: rows) (row :: blocks)

/-- The columns of a file in a line of the output. -/
def block (delim : Char) (d i : ℕ) (line : Text) : List Text :=
  ((splitAt (· = delim) line).drop (1 + i * d)).take d

/-- The lines have the columns of all files, and for each file its rows. -/
def Aligned (files : List (Csv delim d)) (lines : List Text) : Prop :=
  (∀ line ∈ lines, line.count delim = files.length * d) ∧
    ∀ i file, files[i]? = some file →
      Padded d (file.rows.map DataRow.columns) (lines.tail.map (block delim d i))

/-- Stripping does not take anything away that counts, and there are rows. -/
structure Unstripped (file : Csv delim d) (files : List (Csv delim d)) : Prop where
  rows_ne : ∀ f ∈ file :: files, f.rows ≠ []
  header : (strip isspace file.header).count delim = d
  header_columns : files ≠ [] →
    (strip isspace (remainder delim file.header)).count delim + 1 = d
  rows : ∀ f ∈ file :: files, ∀ row ∈ f.rows,
    strip isspace (remainder delim row.line) = remainder delim row.line

/-! ## Section 2: Stripping and splitting -/

theorem strip_sublist (t : Text) : (strip isspace t).Sublist t := by
  have h := (List.dropWhile_sublist isspace (l := (t.dropWhile isspace).reverse)).reverse
  rw [List.reverse_reverse] at h
  exact h.trans (List.dropWhile_sublist _)

theorem strip_append_space (t : Text) {w : Text} (hw : ∀ c ∈ w, isspace c = true) :
    strip isspace (t ++ w) = strip isspace t := by
  have hdrop : ∀ u : Text, (∀ c ∈ u, isspace c = true) → u.dropWhile isspace = [] := by
    intro u hu
    exact List.dropWhile_eq_nil_iff.mpr hu
  unfold strip
  rw [List.dropWhile_append]
  split
  · rename_i hnil
    rw [hdrop w hw, List.isEmpty_iff.mp hnil]
  · rw [List.reverse_append, List.dropWhile_append,
      hdrop w.reverse fun c hc => hw c (List.mem_reverse.mp hc)]
    rfl

theorem splitAt_delim (t : Text) :
    splitAt (· = delim) (delim :: t) = [] :: splitAt (· = delim) t := by
  simp [splitAt]

/-- Another character belongs to the first cell. -/
theorem splitAt_other {c : Char} (hc : c ≠ delim) (t : Text) :
    ∃ u us, splitAt (· = delim) t = u :: us ∧ splitAt (· = delim) (c :: t) = (c :: u) :: us := by
  obtain ⟨u, us, hsplit⟩ := List.exists_cons_of_ne_nil (Jaguar.splitAt_ne_nil (· = delim) t)
  refine ⟨u, us, hsplit, ?_⟩
  rw [splitAt, hsplit]
  simp [hc]

theorem splitAt_append (a b : Text) :
    splitAt (· = delim) (a ++ delim :: b) = splitAt (· = delim) a ++ splitAt (· = delim) b := by
  induction a with
  | nil => rw [List.nil_append, splitAt_delim]; rfl
  | cons c a ih =>
    by_cases hc : c = delim
    · subst hc
      rw [List.cons_append, splitAt_delim, splitAt_delim, ih, List.cons_append]
    · obtain ⟨u, us, hsplit, hcons⟩ := splitAt_other hc a
      obtain ⟨u', us', hsplit', hcons'⟩ := splitAt_other hc (a ++ delim :: b)
      rw [ih, hsplit, List.cons_append, List.cons.injEq] at hsplit'
      rw [List.cons_append, hcons, hcons', ← hsplit'.1, ← hsplit'.2, List.cons_append]

/-- A text has a cell more than it has delimiters. -/
theorem length_splitAt (t : Text) : (splitAt (· = delim) t).length = t.count delim + 1 := by
  induction t with
  | nil => rfl
  | cons c t ih =>
    by_cases hc : c = delim
    · subst hc
      rw [splitAt_delim, List.length_cons, ih, List.count_cons_self]
    · obtain ⟨u, us, hsplit, hcons⟩ := splitAt_other hc t
      rw [List.count_cons_of_ne hc, ← ih, hsplit, hcons, List.length_cons, List.length_cons]

/-- The cells are the text without its delimiters. -/
theorem length_flatten_splitAt (t : Text) :
    (splitAt (· = delim) t).flatten.length + t.count delim = t.length := by
  induction t with
  | nil => rfl
  | cons c t ih =>
    by_cases hc : c = delim
    · subst hc
      rw [splitAt_delim, List.flatten_cons, List.nil_append, List.count_cons_self, ← Nat.add_assoc,
        ih, List.length_cons]
    · obtain ⟨u, us, hsplit, hcons⟩ := splitAt_other hc t
      rw [hsplit] at ih
      rw [hcons, List.count_cons_of_ne hc]
      simp only [List.flatten_cons, List.length_append, List.length_cons] at ih ⊢
      omega

theorem splitAt_of_notMem {t : Text} (h : delim ∉ t) : splitAt (· = delim) t = [t] := by
  induction t with
  | nil => rfl
  | cons c t ih =>
    rw [List.mem_cons, not_or] at h
    obtain ⟨u, us, hsplit, hcons⟩ := splitAt_other (Ne.symm h.1) t
    rw [ih h.2, List.cons.injEq] at hsplit
    rw [hcons, ← hsplit.1, ← hsplit.2]

theorem splitAt_replicate (n : ℕ) :
    splitAt (· = delim) (List.replicate n delim) = List.replicate (n + 1) [] := by
  induction n with
  | zero => rfl
  | succ n ih => rw [List.replicate_succ, splitAt_delim, ih, ← List.replicate_succ]

/-- A line with a delimiter is its first cell, and the remainder. -/
theorem first_cell {t : Text} (h : delim ∈ t) :
    ∃ cell, delim ∉ cell ∧ t = cell ++ delim :: remainder delim t := by
  obtain ⟨cell, r, ht, hcell⟩ := List.eq_append_cons_of_mem h
  refine ⟨cell, hcell, ?_⟩
  rw [remainder, ht, drop_idxOf hcell]

/-! ## Section 3: What the script finds in a line -/

theorem isSpace_breaks {w : Text} (hw : ∀ c ∈ w, c = '\n') : ∀ c ∈ w, isspace c = true := by
  intro c hc
  rw [hw c hc]
  rfl

/-- Line breaks at the end of a line make no difference to `firstcol`. -/
theorem firstcol_isLine {line t : Text} (h : delim ∈ line) (ht : IsLine line t) {z : ℤ}
    (hz : int ((splitAt (· = delim) line).headD []) = some z) :
    firstcol delim (some t) = .ok (.int z) := by
  obtain ⟨w, -, rfl⟩ := ht
  obtain ⟨cell, hcell, hline⟩ := first_cell h
  rw [hline, splitAt_head hcell] at hz
  rw [hline, List.append_assoc, List.cons_append, firstcol, splitAt_head hcell, hz]

/-- Nor do they to `restcols`. -/
theorem restcols_isLine {line t : Text} (h : delim ∈ line) (ht : IsLine line t) :
    restcols delim (some t) = .ok (some (strip isspace (remainder delim line))) := by
  obtain ⟨w, hw, rfl⟩ := ht
  obtain ⟨cell, hcell, hline⟩ := first_cell h
  rw [restcols, if_pos (List.mem_append_left _ h)]
  generalize remainder delim line = r at *
  subst hline
  rw [List.append_assoc, List.cons_append, drop_idxOf hcell, strip_append_space r (isSpace_breaks hw)]

theorem DataRow.mem_line (hd : 0 < d) (row : DataRow delim d) : delim ∈ row.line := by
  apply List.count_pos_iff.mp
  rw [row.count_line]
  exact hd

/-- The data rows, as the merge loop sees them. -/
def DataRow.view (hd : 0 < d) : RowView delim (DataRow delim d) where
  line := DataRow.line
  key := DataRow.key
  cols row := strip isspace (remainder delim row.line)
  firstcol_line {row _} h := firstcol_isLine (row.mem_line hd) h row.int_key
  restcols_line {row _} h := restcols_isLine (row.mem_line hd) h

/-- Reading a text finds its lines. -/
theorem forall₂_isLine_readlines (t : Text) :
    List.Forall₂ IsLine (TextLines.lines t) (readlines t) := by
  induction t with
  | nil => exact List.Forall₂.nil
  | cons c t ih =>
    rw [readlines]
    by_cases hc : c = '\n'
    · subst hc
      rw [if_pos rfl, TextLines.lines_break]
      exact List.Forall₂.cons ⟨['\n'], by simp, rfl⟩ ih
    · rw [if_neg hc, TextLines.lines_cons hc]
      generalize TextLines.lines t = lines at ih
      generalize readlines t = fd at ih
      cases ih with
      | nil => exact List.Forall₂.cons ⟨[], by simp, rfl⟩ List.Forall₂.nil
      | cons hline hrest =>
        obtain ⟨w, hw, rfl⟩ := hline
        exact List.Forall₂.cons ⟨w, hw, rfl⟩ hrest

/-! ## Section 4: What is printed -/

theorem Csv.mem_header (hd : 0 < d) (file : Csv delim d) : delim ∈ file.header := by
  apply List.count_pos_iff.mp
  rw [file.count_header]
  exact hd

theorem Csv.no_break (file : Csv delim d) :
    '\n' ∉ file.header ∧ ∀ row ∈ file.rows, '\n' ∉ row.line := by
  have hlines : ∀ line ∈ file.header :: file.rows.map DataRow.line, '\n' ∉ line := by
    intro line hline
    rw [← file.lines_eq] at hline
    exact TextLines.no_break_lines hline
  obtain ⟨hheader, hrows⟩ := List.forall_mem_cons.mp hlines
  exact ⟨hheader, fun row hrow => hrows _ (List.mem_map_of_mem hrow)⟩

/-- A line break is no delimiter, since there is one in the header. -/
theorem Csv.ne_break (hd : 0 < d) (file : Csv delim d) : delim ≠ '\n' := by
  rintro rfl
  exact file.no_break.1 (file.mem_header hd)

/-- What `readlines` finds in a file. -/
theorem Csv.reads (hd : 0 < d) (file : Csv delim d) :
    ∃ t fd, readlines file.text = t :: fd ∧ IsLine file.header t ∧ t.count delim = d ∧
      List.Forall₂ (fun row t => IsLine (DataRow.line row) t) file.rows fd := by
  have hlines := forall₂_isLine_readlines file.text
  rw [file.lines_eq] at hlines
  generalize hfd : readlines file.text = fd at hlines
  cases hlines with
  | @cons _ t _ fd hheader hrows =>
    refine ⟨t, fd, rfl, hheader, ?_, List.forall₂_map_left_iff.mp hrows⟩
    obtain ⟨w, hw, rfl⟩ := hheader
    have hbreak : w.count delim = 0 := by
      apply List.count_eq_zero.mpr
      intro hmem
      exact file.ne_break hd (hw delim hmem)
    rw [List.count_append, file.count_header, hbreak, Nat.add_zero]

/-- The header, as it is printed. -/
def header_text (file : Csv delim d) (files : List (Csv delim d)) : Text :=
  strip isspace file.header ++
    (List.replicate files.length (delim :: strip isspace (remainder delim file.header))).flatten

/-- The files after their headers: the lines that are left. -/
theorem headers_csv (hd : 0 < d) (file : Csv delim d) (files : List (Csv delim d)) :
    ∃ fds, headers delim (file :: files).length none
        ((file :: files).map fun f => readlines f.text) =
          (.ok (some d, fds), header_text file files ++ ['\n']) ∧
      List.Forall₂ (fun f fd => List.Forall₂ (fun row t => IsLine (DataRow.line row) t) f.rows fd)
        (file :: files) fds := by
  obtain ⟨t, fd, hread, hheader, hcount, hrows⟩ := file.reads hd
  have hothers : ∀ fd' ∈ files.map fun f => readlines f.text,
      ∃ t rest, fd' = t :: rest ∧ t.count delim = d := by
    intro fd' hfd'
    obtain ⟨f, -, rfl⟩ := List.mem_map.mp hfd'
    obtain ⟨t, fd, hread, -, hcount, -⟩ := f.reads hd
    exact ⟨t, fd, hread, hcount⟩
  have hstrip : strip isspace t = strip isspace file.header := by
    obtain ⟨w, hw, rfl⟩ := hheader
    exact strip_append_space _ (isSpace_breaks hw)
  refine ⟨fd :: (files.map fun f => readlines f.text).map List.tail, ?_,
    List.Forall₂.cons hrows ?_⟩
  · rw [List.map_cons, hread, headers_none_eq _ hcount
      (restcols_isLine (file.mem_header hd) hheader) hothers, hstrip]
    rfl
  · rw [List.map_map, List.forall₂_map_right_iff]
    refine List.forall₂_same.mpr fun f _ => ?_
    obtain ⟨t, fd, hread, -, -, hrows⟩ := f.reads hd
    rw [Function.comp_apply, hread]
    exact hrows

/-- `main`, once the headers are read. -/
theorem main_eq {fuel : ℕ} {argv0 : Text} {file : Csv delim d} {files : List (Csv delim d)}
    {fds : List (List Text)} {t : Text}
    (h : headers delim (file :: files).length none
      ((file :: files).map fun f => readlines f.text) = (.ok (some d, fds), t)) :
    main fuel argv0 delim ((file :: files).map Csv.text) =
      ((lookaheads fds >>= merge delim (List.replicate d delim) fuel).1,
        t ++ (lookaheads fds >>= merge delim (List.replicate d delim) fuel).2) := by
  have hmap : ((file :: files).map Csv.text).map readlines =
      (file :: files).map fun f => readlines f.text := by rw [List.map_map]; rfl
  rw [main, if_neg (by simp), hmap, List.length_map]
  exact Out.bind_run h

/-- The rows that are left are in the files. -/
theorem nil_mem_of_rows {f : Csv delim d} (hrows : f.rows = []) {files : List (Csv delim d)}
    {fds : List (List Text)} (hf : f ∈ files)
    (h : List.Forall₂ (fun f fd => List.Forall₂ (fun row t => IsLine (DataRow.line row) t) f.rows fd)
      files fds) : [] ∈ fds := by
  induction h with
  | nil => cases hf
  | cons hrest _ ih =>
    rcases List.mem_cons.mp hf with rfl | hmem
    · rw [hrows, List.forall₂_nil_left_iff] at hrest
      rw [hrest]
      exact List.mem_cons_self
    · exact List.mem_cons_of_mem _ (ih hmem)

/-- A file without data rows ends the script with an error. -/
theorem main_stops (hd : 0 < d) (argv0 : Text) {file : Csv delim d} {files : List (Csv delim d)}
    {f : Csv delim d} (hf : f ∈ file :: files) (hrows : f.rows = []) (fuel : ℕ) (out : Text) :
    main fuel argv0 delim ((file :: files).map Csv.text) ≠ (.ok (), out) := by
  obtain ⟨fds, hheaders, hfds⟩ := headers_csv hd file files
  obtain ⟨u, hu⟩ := lookaheads_stops (nil_mem_of_rows hrows hf hfds)
  rw [main_eq hheaders, Out.bind_error hu]
  intro h
  have hstop : Except.error Stop.stop_iteration = Except.ok () := congrArg Prod.fst h
  cases hstop

/-- With data rows everywhere, the script prints the header and goes on with
    the merge. -/
theorem main_merges (hd : 0 < d) (argv0 : Text) {file : Csv delim d} {files : List (Csv delim d)}
    (hrows : ∀ f ∈ file :: files, f.rows ≠ []) :
    ∃ rs, List.Forall₂ (DataRow.view hd).Shows ((file :: files).map Csv.rows) rs ∧
      ∀ fuel, main fuel argv0 delim ((file :: files).map Csv.text) =
        ((merge delim (List.replicate d delim) fuel rs).1,
          header_text file files ++ ['\n'] ++ (merge delim (List.replicate d delim) fuel rs).2) := by
  obtain ⟨fds, hheaders, hfds⟩ := headers_csv hd file files
  have hne : ∀ fd ∈ fds, fd ≠ [] := by
    clear hheaders
    generalize file :: files = all at hrows hfds
    induction hfds with
    | nil => simp
    | cons hrest _ ih =>
      obtain ⟨hfront, hothers⟩ := List.forall_mem_cons.mp hrows
      refine List.forall_mem_cons.mpr ⟨?_, ih hothers⟩
      rintro rfl
      exact hfront (List.forall₂_nil_right_iff.mp hrest)
  refine ⟨fds.map fun fd => Reader.advance ⟨none, fd⟩, ?_, fun fuel => ?_⟩
  · rw [List.forall₂_map_left_iff, List.forall₂_map_right_iff]
    exact hfds.imp fun _ _ h => RowView.Shows.advance (v := DataRow.view hd) h
  · rw [main_eq hheaders, Out.bind_run (lookaheads_eq hne), List.nil_append]

/-! ## Section 5: The lines of the output -/

/-- What a file contributes to a row, after a delimiter. -/
def body (delim : Char) : Option (DataRow delim d) → Text
  | none => List.replicate (d - 1) delim
  | some row => strip isspace (remainder delim row.line)

/-- The line of a round. -/
def round_line (p : ℤ × List (Option (DataRow delim d))) : Text :=
  intText p.1 ++ p.2.flatMap fun o => delim :: body delim o

theorem view_row_text_eq (hd : 0 < d) (p : ℤ × List (Option (DataRow delim d))) :
    (DataRow.view hd).row_text (List.replicate d delim) p = round_line p ++ ['\n'] := by
  have hblock : (DataRow.view hd).block_text (List.replicate d delim) =
      fun o => delim :: body delim o := by
    funext o
    cases o with
    | none =>
      obtain ⟨n, rfl⟩ := Nat.exists_eq_succ_of_ne_zero hd.ne'
      exact List.replicate_succ
    | some row => rfl
  rw [RowView.row_text, hblock, round_line]

/-- The rounds of some files. -/
def IsRounds (files : List (Csv delim d))
    (rounds : List (ℤ × List (Option (DataRow delim d)))) : Prop :=
  ∃ fuel, OuterJoin.join DataRow.key fuel (files.map Csv.rows) = some rounds

/-- **Output**: with data rows everywhere the script ends, and there is only one
    text it prints: the header and a line for each round. -/
theorem main_prints (hd : 0 < d) (argv0 : Text) {file : Csv delim d} {files : List (Csv delim d)}
    (hrows : ∀ f ∈ file :: files, f.rows ≠ []) :
    ∃ rounds, IsRounds (file :: files) rounds ∧
      ∀ out, (∃ fuel, main fuel argv0 delim ((file :: files).map Csv.text) = (.ok (), out)) ↔
        out = TextLines.join (header_text file files :: rounds.map round_line) [] := by
  obtain ⟨rs, hshows, hmain⟩ := main_merges hd argv0 hrows
  obtain ⟨rounds, hrounds⟩ :=
    OuterJoin.join_ends DataRow.key ((file :: files).map Csv.rows)
  have hjoin := hrounds _ (Nat.lt_succ_self _)
  have hmerge := RowView.merge_shows (v := DataRow.view hd) (List.replicate d delim) hshows hjoin
  have htext : header_text file files ++ ['\n'] ++
      rounds.flatMap ((DataRow.view hd).row_text (List.replicate d delim)) =
      TextLines.join (header_text file files :: rounds.map round_line) [] := by
    rw [TextLines.join, List.flatMap_cons, List.flatMap_map, List.append_nil,
      funext (view_row_text_eq hd)]
  refine ⟨rounds, ⟨_, hjoin⟩, fun out => ?_⟩
  constructor
  · rintro ⟨fuel, hout⟩
    rw [hmain] at hout
    have hended : (merge delim (List.replicate d delim) fuel rs).1 = .ok () :=
      congrArg Prod.fst hout
    have hsame := merge_unique (Prod.ext hended rfl) hmerge
    rw [← htext, ← hsame]
    exact (congrArg Prod.snd hout).symm
  · rintro rfl
    refine ⟨OuterJoin.total ((file :: files).map Csv.rows) + 1, ?_⟩
    rw [hmain, hmerge, ← htext]

/-! ### Line breaks -/

theorem remainder_sublist (t : Text) : (remainder delim t).Sublist t := List.drop_sublist _ _

/-- A character that is neither a minus nor a digit cannot occur in an integer. -/
theorem notMem_intText {c : Char} (hminus : c ≠ '-') (hdigit : c.isDigit = false) (z : ℤ) :
    c ∉ intText z := by
  have hdigits : c ∉ Nat.toDigits 10 z.natAbs := by
    intro hmem
    rw [Json.isDigits_toDigits _ _ hmem] at hdigit
    cases hdigit
  unfold intText
  split
  · rw [List.mem_cons, not_or]
    exact ⟨hminus, hdigits⟩
  · exact hdigits

theorem break_notMem_header_text (hd : 0 < d) (file : Csv delim d) (files : List (Csv delim d)) :
    '\n' ∉ header_text file files := by
  have hheader := file.no_break.1
  have hne := file.ne_break hd
  rw [header_text, List.mem_append, not_or]
  refine ⟨fun h => hheader ((strip_sublist _).subset h), fun h => ?_⟩
  obtain ⟨b, hb, hmem⟩ := List.mem_flatten.mp h
  rw [List.eq_of_mem_replicate hb, List.mem_cons] at hmem
  rcases hmem with heq | hmem
  · exact hne heq.symm
  · exact hheader ((remainder_sublist _).subset ((strip_sublist _).subset hmem))

theorem break_notMem_round_line (hne : delim ≠ '\n') {files : List (Csv delim d)}
    {rounds : List (ℤ × List (Option (DataRow delim d)))} (h : IsRounds files rounds)
    {p : ℤ × List (Option (DataRow delim d))} (hp : p ∈ rounds) : '\n' ∉ round_line p := by
  obtain ⟨fuel, hjoin⟩ := h
  rw [round_line, List.mem_append, not_or]
  refine ⟨notMem_intText (by decide) (by decide) p.1, fun hmem => ?_⟩
  obtain ⟨o, ho, hmem⟩ := List.mem_flatMap.mp hmem
  rcases List.mem_cons.mp hmem with heq | hmem
  · exact hne heq.symm
  · cases o with
    | none => exact hne (List.eq_of_mem_replicate hmem).symm
    | some row =>
      obtain ⟨rs, hrs, hrow⟩ := OuterJoin.mem_of_join hjoin hp ho
      obtain ⟨f, -, rfl⟩ := List.mem_map.mp hrs
      exact f.no_break.2 row hrow ((remainder_sublist _).subset ((strip_sublist _).subset hmem))

/-! ### Delimiters -/

/-- A delimiter of a line is the first one or in the remainder. -/
theorem count_remainder {t : Text} (h : delim ∈ t) :
    (remainder delim t).count delim + 1 = t.count delim := by
  obtain ⟨cell, hcell, ht⟩ := first_cell h
  generalize remainder delim t = r at *
  rw [ht, List.count_append, List.count_cons_self, List.count_eq_zero.mpr hcell, Nat.zero_add]

theorem count_strip_le (t : Text) : (strip isspace t).count delim ≤ t.count delim :=
  (strip_sublist t).count_le delim

theorem count_remainder_row (hd : 0 < d) (row : DataRow delim d) :
    (remainder delim row.line).count delim + 1 = d := by
  rw [count_remainder (row.mem_line hd), row.count_line]

/-- A file contributes at most `d` delimiters to a line. -/
theorem count_body_le (hd : 0 < d) (o : Option (DataRow delim d)) :
    (body delim o).count delim + 1 ≤ d := by
  cases o with
  | none =>
    rw [body, List.count_replicate_self]
    omega
  | some row =>
    have hle : (strip isspace (remainder delim row.line)).count delim ≤
        (remainder delim row.line).count delim := count_strip_le _
    have hrow := count_remainder_row hd row
    show (strip isspace (remainder delim row.line)).count delim + 1 ≤ d
    omega

theorem count_flatten_replicate (n : ℕ) (t : Text) :
    (List.replicate n t).flatten.count delim = n * t.count delim := by
  induction n with
  | zero => simp
  | succ n ih => rw [List.replicate_succ, List.flatten_cons, List.count_append, ih, Nat.succ_mul,
      Nat.add_comm]

theorem count_header_text (hd : 0 < d) (file : Csv delim d) (files : List (Csv delim d)) :
    (header_text file files).count delim = (file :: files).length * d ↔
      (strip isspace file.header).count delim = d ∧
        (files ≠ [] → (strip isspace (remainder delim file.header)).count delim + 1 = d) := by
  have hcount : (header_text file files).count delim =
      (strip isspace file.header).count delim +
        files.length * ((strip isspace (remainder delim file.header)).count delim + 1) := by
    rw [header_text, List.count_append, count_flatten_replicate, List.count_cons_self]
  have hheader : (strip isspace file.header).count delim ≤ file.header.count delim :=
    count_strip_le _
  rw [file.count_header] at hheader
  have hcols : (strip isspace (remainder delim file.header)).count delim ≤
      (remainder delim file.header).count delim := count_strip_le _
  have hrem := count_remainder (file.mem_header hd)
  rw [file.count_header] at hrem
  generalize (strip isspace file.header).count delim = a at *
  generalize (strip isspace (remainder delim file.header)).count delim = b at *
  rw [hcount, List.length_cons, Nat.add_mul, Nat.one_mul]
  have hb : b + 1 ≤ d := by omega
  have hle : files.length * (b + 1) ≤ files.length * d := Nat.mul_le_mul_left _ hb
  constructor
  · intro h
    refine ⟨by omega, fun hne => ?_⟩
    have heq : files.length * (b + 1) = files.length * d := by omega
    exact Nat.eq_of_mul_eq_mul_left (List.length_pos_of_ne_nil hne) heq
  · rintro ⟨rfl, h⟩
    by_cases hnil : files = []
    · simp [hnil]
    · rw [h hnil, Nat.add_comm]

/-- A line has all its delimiters iff every file contributes all of its own. -/
theorem count_bodies (hd : 0 < d) (os : List (Option (DataRow delim d))) :
    (os.flatMap fun o => delim :: body delim o).count delim ≤ os.length * d ∧
      ((os.flatMap fun o => delim :: body delim o).count delim = os.length * d ↔
        ∀ o ∈ os, (body delim o).count delim + 1 = d) := by
  induction os with
  | nil => simp
  | cons o os ih =>
    obtain ⟨hle, hiff⟩ := ih
    have ho := count_body_le hd o
    rw [List.flatMap_cons, List.count_append, List.count_cons_self, List.length_cons, Nat.add_mul,
      Nat.one_mul, List.forall_mem_cons, ← hiff]
    omega

theorem count_round_line (hd : 0 < d) (hdelim : ∀ z, delim ∉ intText z)
    (p : ℤ × List (Option (DataRow delim d))) :
    (round_line p).count delim = p.2.length * d ↔
      ∀ o ∈ p.2, (body delim o).count delim + 1 = d := by
  rw [round_line, List.count_append, List.count_eq_zero.mpr (hdelim p.1), Nat.zero_add]
  exact (count_bodies hd p.2).2

/-! ### Blocks -/

theorem splitAt_bodies (a : Text) (os : List (Option (DataRow delim d))) :
    splitAt (· = delim) (a ++ os.flatMap fun o => delim :: body delim o) =
      splitAt (· = delim) a ++ os.flatMap fun o => splitAt (· = delim) (body delim o) := by
  induction os generalizing a with
  | nil => simp
  | cons o os ih =>
    rw [List.flatMap_cons, List.flatMap_cons, List.cons_append, splitAt_append, ih]

theorem drop_take_flatMap {α β : Type} {g : α → List β} {n : ℕ} {xs : List α}
    (h : ∀ x ∈ xs, (g x).length = n) {i : ℕ} {x : α} (hi : xs[i]? = some x) :
    ((xs.flatMap g).drop (i * n)).take n = g x := by
  induction xs generalizing i with
  | nil => simp at hi
  | cons y xs ih =>
    obtain ⟨hy, hxs⟩ := List.forall_mem_cons.mp h
    cases i with
    | zero =>
      obtain rfl : y = x := by simpa using hi
      rw [Nat.zero_mul, List.drop_zero, List.flatMap_cons, ← hy, List.take_left]
    | succ i =>
      have hshift : (i + 1) * n = (g y).length + i * n := by rw [hy, Nat.add_mul]; omega
      rw [List.flatMap_cons, hshift, ← List.drop_drop, List.drop_left]
      exact ih hxs (by simpa using hi)

/-- A file's block of a line is what the file contributes to it. -/
theorem block_round_line (hdelim : ∀ z, delim ∉ intText z)
    {p : ℤ × List (Option (DataRow delim d))}
    (h : ∀ o ∈ p.2, (body delim o).count delim + 1 = d) {i : ℕ} (hi : i < p.2.length) :
    block delim d i (round_line p) = splitAt (· = delim) (body delim (p.2.getD i none)) := by
  have hget : p.2[i]? = some (p.2.getD i none) := by
    rw [List.getD_eq_getElem?_getD, List.getElem?_eq_getElem hi]
    rfl
  have hlen : ∀ o ∈ p.2, (splitAt (· = delim) (body delim o)).length = d := by
    intro o ho
    rw [length_splitAt, h o ho]
  rw [block, round_line, splitAt_bodies, splitAt_of_notMem (hdelim p.1), ← List.drop_drop]
  exact drop_take_flatMap hlen hget

/-! ## Section 6: The rows of a file -/

theorem DataRow.columns_eq (hd : 0 < d) (row : DataRow delim d) :
    row.columns = splitAt (· = delim) (remainder delim row.line) := by
  obtain ⟨cell, hcell, hline⟩ := first_cell (row.mem_line hd)
  rw [DataRow.columns]
  generalize remainder delim row.line = r at *
  rw [hline, splitAt_append, splitAt_of_notMem hcell]
  rfl

theorem splitAt_body_none (hd : 0 < d) :
    splitAt (· = delim) (body delim (none : Option (DataRow delim d))) = List.replicate d [] := by
  rw [body, splitAt_replicate, Nat.sub_add_cancel hd]

/-- What a file contributes to the rounds, where nothing is stripped away. -/
theorem padded_of_unstripped (hd : 0 < d) {os : List (Option (DataRow delim d))}
    (h : ∀ row, some row ∈ os →
      strip isspace (remainder delim row.line) = remainder delim row.line) :
    Padded d ((os.flatMap Option.toList).map DataRow.columns)
      (os.map fun o => splitAt (· = delim) (body delim o)) := by
  induction os with
  | nil => exact Padded.nil
  | cons o os ih =>
    have hrest := ih fun row hrow => h row (List.mem_cons_of_mem _ hrow)
    cases o with
    | none =>
      rw [List.map_cons, splitAt_body_none hd]
      exact hrest.pad
    | some row =>
      have hrow : splitAt (· = delim) (body delim (some row)) = row.columns := by
        rw [body, h row List.mem_cons_self, row.columns_eq hd]
      rw [List.map_cons, hrow]
      exact hrest.row row.columns

/-- The characters in the cells of some blocks. -/
def characters (blocks : List (List Text)) : ℕ := (blocks.map fun b => b.flatten.length).sum

@[simp] theorem characters_cons (b : List Text) (blocks : List (List Text)) :
    characters (b :: blocks) = b.flatten.length + characters blocks := rfl

theorem length_flatten_replicate_nil (n : ℕ) :
    (List.replicate n ([] : Text)).flatten.length = 0 := by
  simp

/-- Placeholders have no characters. -/
theorem Padded.characters_eq {rows blocks : List (List Text)} (h : Padded d rows blocks) :
    characters blocks = characters rows := by
  induction h with
  | nil => rfl
  | pad _ ih => rw [characters_cons, length_flatten_replicate_nil, Nat.zero_add, ih]
  | row row _ ih => rw [characters_cons, characters_cons, ih]

/-- Stripping a row that keeps its delimiters keeps its characters only if it
    takes nothing away. -/
theorem characters_bodies (hd : 0 < d) {os : List (Option (DataRow delim d))}
    (h : ∀ o ∈ os, (body delim o).count delim + 1 = d) :
    characters (os.map fun o => splitAt (· = delim) (body delim o)) ≤
        characters ((os.flatMap Option.toList).map DataRow.columns) ∧
      (characters (os.map fun o => splitAt (· = delim) (body delim o)) =
          characters ((os.flatMap Option.toList).map DataRow.columns) →
        ∀ row, some row ∈ os →
          strip isspace (remainder delim row.line) = remainder delim row.line) := by
  induction os with
  | nil => simp [characters]
  | cons o os ih =>
    obtain ⟨ho, hos⟩ := List.forall_mem_cons.mp h
    obtain ⟨hle, hiff⟩ := ih hos
    cases o with
    | none =>
      rw [List.map_cons, characters_cons, splitAt_body_none hd, length_flatten_replicate_nil,
        Nat.zero_add, List.flatMap_cons, Option.toList_none, List.nil_append]
      refine ⟨hle, fun heq row hrow => hiff heq row ?_⟩
      exact (List.mem_cons.mp hrow).resolve_left (by simp)
    | some row =>
      have hpieces : ∀ t : Text, (splitAt (· = delim) t).flatten.length + t.count delim = t.length :=
        length_flatten_splitAt
      have hstrip := hpieces (strip isspace (remainder delim row.line))
      have hcols := hpieces (remainder delim row.line)
      have hcount := count_remainder_row hd row
      have hlen := (strip_sublist (remainder delim row.line)).length_le
      have hkept : (strip isspace (remainder delim row.line)).count delim + 1 = d := ho
      rw [List.map_cons, characters_cons, List.flatMap_cons, Option.toList_some,
        List.singleton_append, List.map_cons, characters_cons, row.columns_eq hd]
      rw [show body delim (some row) = strip isspace (remainder delim row.line) from rfl]
      constructor
      · omega
      · intro heq row' hrow'
        rcases List.mem_cons.mp hrow' with hfront | hmem
        · obtain rfl : row' = row := Option.some.inj hfront
          exact (strip_sublist _).eq_of_length (by omega)
        · exact hiff (by omega) row' hmem

/-! ## Section 7: The program -/

/-- What a file contributes to the rounds, one after the other. -/
def contributions (i : ℕ) (rounds : List (ℤ × List (Option (DataRow delim d)))) :
    List (Option (DataRow delim d)) := rounds.map fun p => p.2.getD i none

theorem contributions_rows {files : List (Csv delim d)}
    {rounds : List (ℤ × List (Option (DataRow delim d)))} (h : IsRounds files rounds) {i : ℕ}
    {f : Csv delim d} (hf : files[i]? = some f) :
    (contributions i rounds).flatMap Option.toList = f.rows := by
  obtain ⟨fuel, hjoin⟩ := h
  rw [contributions, List.flatMap_map]
  exact OuterJoin.join_records hjoin (by rw [List.getElem?_map, hf]; rfl)

/-- Every line of a round has a part for every file. -/
theorem places_eq {files : List (Csv delim d)}
    {rounds : List (ℤ × List (Option (DataRow delim d)))} (h : IsRounds files rounds) :
    ∀ p ∈ rounds, p.2.length = files.length := by
  obtain ⟨fuel, hjoin⟩ := h
  intro p hp
  rw [OuterJoin.join_places hjoin p hp, List.length_map]

theorem blocks_eq (hdelim : ∀ z, delim ∉ intText z) {files : List (Csv delim d)}
    {rounds : List (ℤ × List (Option (DataRow delim d)))} (h : IsRounds files rounds)
    (hfull : ∀ p ∈ rounds, ∀ o ∈ p.2, (body delim o).count delim + 1 = d) {i : ℕ}
    (hi : i < files.length) :
    (rounds.map round_line).map (block delim d i) =
      (contributions i rounds).map fun o => splitAt (· = delim) (body delim o) := by
  rw [contributions, List.map_map, List.map_map]
  apply List.map_congr_left
  intro p hp
  exact block_round_line hdelim (hfull p hp) (places_eq h p hp ▸ hi)

/-- Rows that stripping leaves alone contribute all their delimiters. -/
theorem full_of_kept (hd : 0 < d) {files : List (Csv delim d)}
    {rounds : List (ℤ × List (Option (DataRow delim d)))} (h : IsRounds files rounds)
    (hkept : ∀ f ∈ files, ∀ row ∈ f.rows,
      strip isspace (remainder delim row.line) = remainder delim row.line) :
    ∀ p ∈ rounds, ∀ o ∈ p.2, (body delim o).count delim + 1 = d := by
  intro p hp o ho
  cases o with
  | none =>
    rw [body, List.count_replicate_self]
    omega
  | some row =>
    obtain ⟨fuel, hjoin⟩ := h
    obtain ⟨rs, hrs, hrow⟩ := OuterJoin.mem_of_join hjoin hp ho
    obtain ⟨f, hf, rfl⟩ := List.mem_map.mp hrs
    rw [body, hkept f hf row hrow]
    exact count_remainder_row hd row

/-- Rows that are found again in their columns have lost nothing to stripping. -/
theorem kept_of_padded (hdelim : ∀ z, delim ∉ intText z) (hd : 0 < d)
    {files : List (Csv delim d)} {rounds : List (ℤ × List (Option (DataRow delim d)))}
    (h : IsRounds files rounds)
    (hfull : ∀ p ∈ rounds, ∀ o ∈ p.2, (body delim o).count delim + 1 = d)
    (hpadded : ∀ i f, files[i]? = some f →
      Padded d (f.rows.map DataRow.columns) ((rounds.map round_line).map (block delim d i))) :
    ∀ f ∈ files, ∀ row ∈ f.rows,
      strip isspace (remainder delim row.line) = remainder delim row.line := by
  intro f hf row hrow
  obtain ⟨i, hi, rfl⟩ := List.getElem_of_mem hf
  have hget := List.getElem?_eq_getElem hi
  have hpad := hpadded i _ hget
  rw [blocks_eq hdelim h hfull hi, ← contributions_rows h hget] at hpad
  have hmem : ∀ o ∈ contributions i rounds, (body delim o).count delim + 1 = d := by
    intro o ho
    obtain ⟨p, hp, rfl⟩ := List.mem_map.mp ho
    apply hfull p hp
    rw [List.getD_eq_getElem?_getD, List.getElem?_eq_getElem (places_eq h p hp ▸ hi)]
    exact List.getElem_mem _
  rw [← contributions_rows h hget] at hrow
  obtain ⟨o, ho, hrow⟩ := List.mem_flatMap.mp hrow
  rw [Option.mem_toList.mp hrow] at ho
  exact (characters_bodies hd hmem).2 hpad.characters_eq row ho

/-- The output is aligned iff stripping takes nothing away that counts. -/
theorem aligned_iff (hdelim : ∀ z, delim ∉ intText z) (hd : 0 < d) (file : Csv delim d)
    (files : List (Csv delim d)) (hrows : ∀ f ∈ file :: files, f.rows ≠ [])
    {rounds : List (ℤ × List (Option (DataRow delim d)))} (h : IsRounds (file :: files) rounds) :
    Aligned (file :: files) (header_text file files :: rounds.map round_line) ↔
      Unstripped file files := by
  have hcounts : (∀ line ∈ rounds.map round_line,
      line.count delim = (file :: files).length * d) ↔
      ∀ p ∈ rounds, ∀ o ∈ p.2, (body delim o).count delim + 1 = d := by
    rw [List.forall_mem_map]
    refine forall₂_congr fun p hp => ?_
    rw [← places_eq h p hp, count_round_line hd hdelim]
  rw [Aligned, List.forall_mem_cons, count_header_text hd, hcounts, List.tail_cons]
  constructor
  · rintro ⟨⟨⟨hheader, hcols⟩, hfull⟩, hpadded⟩
    exact ⟨hrows, hheader, hcols, kept_of_padded hdelim hd h hfull hpadded⟩
  · rintro ⟨-, hheader, hcols, hkept⟩
    have hfull := full_of_kept hd h hkept
    refine ⟨⟨⟨hheader, hcols⟩, hfull⟩, fun i f hf => ?_⟩
    have hi : i < (file :: files).length := (List.getElem?_eq_some_iff.mp hf).1
    rw [blocks_eq hdelim h hfull hi, ← contributions_rows h hf]
    apply padded_of_unstripped hd
    intro row hrow
    apply hkept f (List.mem_of_getElem? hf) row
    rw [← contributions_rows h hf, List.mem_flatMap]
    exact ⟨some row, hrow, by simp⟩

/-- **Alignment**: the script ends, with lines that all have the columns of all
    files and with the rows of each file in its columns, iff every file has a
    data row and stripping takes no delimiter from the header, none from its
    remainder if there are other files, and nothing from the remainder of a row. -/
theorem csvmerge_aligned_iff (argv0 : Text) {delim : Char} (hdelim : ∀ z, delim ∉ intText z)
    {d : ℕ} (hd : 0 < d) (file : Csv delim d) (files : List (Csv delim d)) :
    (∃ fuel out, main fuel argv0 delim ((file :: files).map Csv.text) = (.ok (), out) ∧
        TextLines.rest out = [] ∧ Aligned (file :: files) (TextLines.ended out)) ↔
      Unstripped file files := by
  by_cases hrows : ∀ f ∈ file :: files, f.rows ≠ []
  · obtain ⟨rounds, hrounds, hprints⟩ := main_prints hd argv0 hrows
    have hbreak : ∀ line ∈ header_text file files :: rounds.map round_line, '\n' ∉ line := by
      rw [List.forall_mem_cons, List.forall_mem_map]
      exact ⟨break_notMem_header_text hd file files,
        fun p hp => break_notMem_round_line (file.ne_break hd) hrounds hp⟩
    have hsplit := TextLines.split_join hbreak (List.not_mem_nil : '\n' ∉ ([] : Text))
    rw [← aligned_iff hdelim hd file files hrows hrounds]
    constructor
    · rintro ⟨fuel, out, hmain, -, haligned⟩
      rw [(hprints out).mp ⟨fuel, hmain⟩, TextLines.ended, hsplit] at haligned
      exact haligned
    · intro haligned
      obtain ⟨fuel, hmain⟩ := (hprints _).mpr rfl
      refine ⟨fuel, _, hmain, ?_, ?_⟩
      · rw [TextLines.rest, hsplit]
      · rw [TextLines.ended, hsplit]
        exact haligned
  · constructor
    · rintro ⟨fuel, out, hmain, -⟩
      push Not at hrows
      obtain ⟨f, hf, hnil⟩ := hrows
      exact absurd hmain (main_stops hd argv0 hf hnil fuel out)
    · intro h
      exact absurd h.rows_ne hrows

/-- A row whose cells are full. -/
def full_cells : Csv '\t' 2 where
  text := "k\ta\tb\n1\tx\ty\n".toList
  header := "k\ta\tb".toList
  rows := [⟨"1\tx\ty".toList, 1, by decide, by decide⟩]
  lines_eq := by decide
  count_header := by decide

theorem csvmerge_aligned_full :
    ∃ fuel out, main fuel [] '\t' ([full_cells, full_cells].map Csv.text) = (.ok (), out) ∧
      TextLines.rest out = [] ∧ Aligned [full_cells, full_cells] (TextLines.ended out) := by
  have hboth : ∀ f ∈ [full_cells, full_cells], f = full_cells := by
    intro f hf
    simpa using hf
  have hkept : Unstripped full_cells [full_cells] := by
    refine ⟨fun f hf => ?_, by decide, fun _ => by decide, fun f hf row hrow => ?_⟩
    · rw [hboth f hf]
      exact List.cons_ne_nil _ _
    · rw [hboth f hf] at hrow
      rw [List.mem_singleton.mp hrow]
      decide
  exact (csvmerge_aligned_iff [] (notMem_intText (by decide) (by decide)) (by decide)
    full_cells [full_cells]).mpr hkept

/-- There is only one text that the script can print. -/
theorem main_unique (hd : 0 < d) {argv0 : Text} {file : Csv delim d} {files : List (Csv delim d)}
    {fuel fuel' : ℕ} {out out' : Text}
    (h : main fuel argv0 delim ((file :: files).map Csv.text) = (.ok (), out))
    (h' : main fuel' argv0 delim ((file :: files).map Csv.text) = (.ok (), out')) : out = out' := by
  have hrows : ∀ f ∈ file :: files, f.rows ≠ [] := by
    intro f hf hnil
    exact main_stops hd argv0 hf hnil fuel out h
  obtain ⟨rounds, -, hprints⟩ := main_prints hd argv0 hrows
  rw [(hprints out).mp ⟨fuel, h⟩, (hprints out').mp ⟨fuel', h'⟩]

/-- A row whose last cell is empty. -/
def empty_cell : Csv '\t' 2 where
  text := "k\ta\tb\n1\tx\t\n".toList
  header := "k\ta\tb".toList
  rows := [⟨"1\tx\t".toList, 1, by decide, by decide⟩]
  lines_eq := by decide
  count_header := by decide

/-- The empty cell is stripped away with its delimiter. -/
theorem csvmerge_strips_cell :
    (∀ z, '\t' ∉ intText z) ∧
      main 2 [] '\t' [empty_cell.text] = (.ok (), "k\ta\tb\n1\tx\n".toList) ∧
      ¬∃ fuel out, main fuel [] '\t' [empty_cell.text] = (.ok (), out) ∧
        TextLines.rest out = [] ∧ Aligned [empty_cell] (TextLines.ended out) := by
  have hmain : main 2 [] '\t' [empty_cell.text] = (.ok (), "k\ta\tb\n1\tx\n".toList) :=
    Prod.ext (by decide) (by decide)
  refine ⟨notMem_intText (by decide) (by decide), hmain, ?_⟩
  rintro ⟨fuel, out, hout, -, haligned⟩
  obtain rfl := @main_unique '\t' 2 (by decide) [] empty_cell [] fuel 2 _ _ hout hmain
  have hcount := haligned.1 "1\tx".toList (by decide)
  revert hcount
  decide

end CsvMerge
