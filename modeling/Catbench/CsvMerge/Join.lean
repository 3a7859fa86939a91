import Catbench.CsvMerge.Rounds

/-! # `csvmerge` is a full outer join

    The unread parts of the files are lists of rows, and a round of the script
    is a round of `OuterJoin.join` on them.  So the script prints the header and
    then one row for each key that occurs in some file, in increasing order,
    with the cells that each file has for the key.
-/

open Json (intText)
open Jaguar (Text isspace strip splitAt int readlines)

namespace CsvMerge

variable {delim : Char} {d : ℕ}

/-! ## Section 1: What is printed -/

/-- The header: the columns of the first file, once more for every other file. -/
def header_cells (header : List Text) (numfiles : ℕ) : List Text :=
  header ++ (List.replicate (numfiles - 1) header.tail).flatten

/-- The cells of a file in a row: empty ones if it has no such row. -/
def block_cells (d : ℕ) : Option (Row delim d) → List Text
  | none => List.replicate d []
  | some row => row.rest

/-- The row of a key in the join. -/
def merged_cells (tables : List (Table delim d)) (k : ℤ) : List Text :=
  intText k :: tables.flatMap fun table => block_cells d (table.row k)

/-- The lines of the join of some tables, for the keys that occur in them. -/
def joined (delim : Char) (rows : List (List Text)) : Text :=
  rows.flatMap fun cells => line_of delim cells ++ ['\n']

/-! ## Section 2: Unread rows -/

/-- What is left to read of a file: the lookahead has the next row. -/
inductive Shows : List (Row delim d) → Reader → Prop where
  | done : Shows [] ⟨none, []⟩
  | row {row : Row delim d} {rows : List (Row delim d)} {t : Text} {fd : List Text}
    (hline : IsLine row.line t) (hrest : List.Forall₂ (fun row t => IsLine row.line t) rows fd) :
    Shows (row :: rows) ⟨some t, fd⟩

/-! ## Section 3: Rounds -/

/-- The block of a file in a row, as the script appends it. -/
def block_text (delim : Char) (placeholder : Text) : Option (Row delim d) → Text
  | none => placeholder
  | some row => delim :: line_of delim row.rest

/-- The row of a round, as the script prints it. -/
def row_text (placeholder : Text) (row : ℤ × List (Option (Row delim d))) : Text :=
  intText row.1 ++ row.2.flatMap (block_text delim placeholder) ++ ['\n']

theorem Row.rest_ne (hd : 0 < d) (row : Row delim d) : row.rest ≠ [] :=
  List.ne_nil_of_length_pos (by rw [row.length_rest]; exact hd)

/-- The rows of a table, as the merge loop sees them. -/
def Row.view (hdelim : isspace delim = false) (hd : 0 < d) : RowView delim (Row delim d) where
  line := Row.line
  key := Row.key
  cols row := line_of delim row.rest
  firstcol_line := firstcol_row hd _
  restcols_line {row _} h := restcols_line hdelim (row.rest_ne hd) row.is_cell h

theorem Shows.advance {rows : List (Row delim d)} {fd : List Text} {x : Option Text}
    (h : List.Forall₂ (fun row t => IsLine row.line t) rows fd) :
    Shows rows (Reader.advance ⟨x, fd⟩) := by
  cases h with
  | nil => exact Shows.done
  | cons hline hrest => exact Shows.row hline hrest

theorem Shows.view (hdelim : isspace delim = false) (hd : 0 < d) {rows : List (Row delim d)}
    {r : Reader} (h : Shows rows r) : (Row.view hdelim hd).Shows rows r := by
  cases h with
  | done => exact RowView.Shows.done
  | row hline hrest => exact RowView.Shows.row hline hrest

theorem view_row_text (hdelim : isspace delim = false) (hd : 0 < d) (placeholder : Text) :
    (Row.view hdelim hd).row_text placeholder = row_text placeholder := by
  have hblock : (Row.view hdelim hd).block_text placeholder = block_text delim placeholder := by
    funext o
    cases o <;> rfl
  funext row
  rw [RowView.row_text, row_text, hblock]

/-- **Merge loop**: with the fuel that the join needs, the script prints its rounds. -/
theorem merge_shows (hdelim : isspace delim = false) (hd : 0 < d) (placeholder : Text) {fuel : ℕ}
    {rss : List (List (Row delim d))} {rs : List Reader} (h : List.Forall₂ Shows rss rs)
    {rows : List (ℤ × List (Option (Row delim d)))}
    (hjoin : OuterJoin.join Row.key fuel rss = some rows) :
    merge delim placeholder fuel rs = (.ok (), rows.flatMap (row_text placeholder)) := by
  have hview := h.imp fun _ _ => Shows.view hdelim hd
  rw [RowView.merge_shows placeholder hview hjoin, view_row_text]

/-! ## Section 4: Headers -/

/-- The lines of a file, before its header is read. -/
def Reads (table : Table delim d) (fd : List Text) : Prop := List.Forall₂ IsLine table.lines fd

/-- The lines of a file, after its header is read. -/
def ReadsRows (table : Table delim d) (fd : List Text) : Prop :=
  List.Forall₂ (fun row t => IsLine row.line t) table.rows fd

theorem Table.header_eq (table : Table delim d) :
    ∃ cell cells, table.header = cell :: cells ∧ cells.length = d := by
  have hlen := table.length_header
  cases hheader : table.header with
  | nil =>
    rw [hheader] at hlen
    cases hlen
  | cons cell cells =>
    rw [hheader] at hlen
    exact ⟨cell, cells, rfl, Nat.succ.inj hlen⟩

/-- The header has `d` delimiters, since a line break is no delimiter. -/
theorem count_header (hdelim : isspace delim = false) (table : Table delim d) {t : Text}
    (ht : IsLine (line_of delim table.header) t) : t.count delim = d := by
  obtain ⟨w, hw, rfl⟩ := ht
  have hne : table.header ≠ [] :=
    List.ne_nil_of_length_pos (by rw [table.length_header]; exact Nat.succ_pos d)
  have hcount := count_line_of hne fun cell hcell => (table.is_cell cell hcell).no_delim
  have hbreak : w.count delim = 0 := by
    apply List.count_eq_zero.mpr
    intro hmem
    rw [hw delim hmem] at hdelim
    cases hdelim
  rw [table.length_header] at hcount
  rw [List.count_append, hbreak]
  omega

/-- The header of a file comes first, and has `d` delimiters. -/
theorem Reads.split (hdelim : isspace delim = false) {table : Table delim d} {fd : List Text}
    (h : Reads table fd) :
    ∃ t rest, fd = t :: rest ∧ IsLine (line_of delim table.header) t ∧ t.count delim = d ∧
      ReadsRows table rest := by
  unfold Reads Table.lines at h
  cases h with
  | cons hheader hrows =>
    exact ⟨_, _, rfl, hheader, count_header hdelim table hheader,
      List.forall₂_map_left_iff.mp hrows⟩

/-- The headers of the other files. -/
theorem reads_tails (hdelim : isspace delim = false) {tables : List (Table delim d)}
    {fds : List (List Text)} (h : List.Forall₂ Reads tables fds) :
    (∀ fd ∈ fds, ∃ t rest, fd = t :: rest ∧ t.count delim = d) ∧
      List.Forall₂ ReadsRows tables (fds.map List.tail) := by
  induction h with
  | nil => exact ⟨by simp, List.Forall₂.nil⟩
  | cons hreads _ ih =>
    obtain ⟨t, rest, rfl, -, hcount, hrows⟩ := hreads.split hdelim
    exact ⟨List.forall_mem_cons.mpr ⟨⟨t, rest, rfl, hcount⟩, ih.1⟩, List.Forall₂.cons hrows ih.2⟩

theorem restcols_header (hdelim : isspace delim = false) (hd : 0 < d) (table : Table delim d)
    {t : Text} (ht : IsLine (line_of delim table.header) t) :
    restcols delim (some t) = .ok (some (line_of delim table.header.tail)) := by
  obtain ⟨cell, cells, hheader, hlen⟩ := table.header_eq
  have hne : cells ≠ [] := List.ne_nil_of_length_pos (by rw [hlen]; exact hd)
  rw [hheader] at ht ⊢
  exact restcols_line hdelim hne (hheader ▸ table.is_cell) ht

/-! ## Section 5: Rows as cells -/

theorem line_of_eq (cell : Text) (cells : List Text) :
    line_of delim (cell :: cells) = cell ++ cells.flatMap (delim :: ·) := by
  induction cells generalizing cell with
  | nil => simp
  | cons cell' cells ih => rw [line_of_cons cell (List.cons_ne_nil _ _), ih, List.flatMap_cons]; rfl

theorem flatMap_delim {cells : List Text} (hne : cells ≠ []) :
    cells.flatMap (delim :: ·) = delim :: line_of delim cells := by
  cases cells with
  | nil => exact absurd rfl hne
  | cons cell cells =>
    rw [List.flatMap_cons, line_of_eq]
    rfl

/-- Appending the blocks one by one is joining all the cells. -/
theorem line_of_flatten (cell : Text) {blocks : List (List Text)} (hne : ∀ b ∈ blocks, b ≠ []) :
    line_of delim (cell :: blocks.flatten) =
      cell ++ blocks.flatMap fun b => delim :: line_of delim b := by
  rw [line_of_eq]
  congr 1
  induction blocks with
  | nil => rfl
  | cons b blocks ih =>
    rw [List.flatten_cons, List.flatMap_append, List.flatMap_cons,
      flatMap_delim (hne b List.mem_cons_self), ih fun b' hb' => hne b' (List.mem_cons_of_mem _ hb')]

/-- The placeholder is `d` empty cells. -/
theorem placeholder_eq (hd : 0 < d) :
    List.replicate d delim = delim :: line_of delim (List.replicate d []) := by
  rw [← flatMap_delim (by simpa using Nat.ne_of_gt hd), List.flatMap_replicate]
  simp

theorem block_cells_ne (hd : 0 < d) (o : Option (Row delim d)) : block_cells d o ≠ [] := by
  cases o with
  | none => simpa [block_cells] using Nat.ne_of_gt hd
  | some row => exact row.rest_ne hd

theorem block_text_eq (hd : 0 < d) (o : Option (Row delim d)) :
    block_text delim (List.replicate d delim) o = delim :: line_of delim (block_cells d o) := by
  cases o with
  | none => exact placeholder_eq hd
  | some row => rfl

theorem joined_cons (cells : List Text) (rows : List (List Text)) :
    joined delim (cells :: rows) = (line_of delim cells ++ ['\n']) ++ joined delim rows :=
  List.flatMap_cons

theorem row_text_eq (hd : 0 < d) (tables : List (Table delim d)) (k : ℤ) :
    row_text (List.replicate d delim) (k, tables.map fun table => table.row k) =
      line_of delim (merged_cells tables k) ++ ['\n'] := by
  unfold row_text merged_cells
  rw [List.flatMap_def (l := tables), line_of_flatten, List.flatMap_map, List.flatMap_map]
  · simp only [block_text_eq hd]
  · intro b hb
    obtain ⟨table, -, rfl⟩ := List.mem_map.mp hb
    exact block_cells_ne hd _

theorem header_text_eq (hd : 0 < d) (table : Table delim d) (n : ℕ) :
    line_of delim table.header ++
        (List.replicate (n - 1) (delim :: line_of delim table.header.tail)).flatten =
      line_of delim (header_cells table.header n) := by
  obtain ⟨cell, cells, hheader, hlen⟩ := table.header_eq
  have hne : cells ≠ [] := List.ne_nil_of_length_pos (by rw [hlen]; exact hd)
  have hflat : header_cells table.header n =
      cell :: (cells :: List.replicate (n - 1) cells).flatten := by
    rw [header_cells, hheader]
    rfl
  rw [hflat, line_of_flatten, hheader, line_of_cons cell hne, List.flatMap_cons,
    List.flatMap_replicate]
  · simp
  · intro b hb
    rcases List.mem_cons.mp hb with heq | hmem
    · rw [heq]
      exact hne
    · rw [List.eq_of_mem_replicate hmem]
      exact hne

/-! ## Section 6: The program -/

theorem Table.line_facts (hd : 0 < d) (hdelim : isspace delim = false) (table : Table delim d) :
    ∀ line ∈ table.lines, '\n' ∉ line ∧ line ≠ [] := by
  have hbreak : delim ≠ '\n' := by
    intro h
    rw [h] at hdelim
    cases hdelim
  have hfacts : ∀ cell cells, cells ≠ [] → (∀ c ∈ cell :: cells, IsCell delim c) →
      '\n' ∉ line_of delim (cell :: cells) ∧ line_of delim (cell :: cells) ≠ [] := by
    intro cell cells hne hcells
    constructor
    · intro hmem
      rcases mem_line_of hmem with h | ⟨c, hc, h⟩
      · exact hbreak h.symm
      · exact (hcells c hc).no_break h
    · rw [line_of_cons cell hne]
      simp
  intro line hline
  rcases List.mem_cons.mp hline with heq | hmem
  · obtain ⟨cell, cells, hheader, hlen⟩ := table.header_eq
    rw [heq, hheader]
    exact hfacts cell cells (List.ne_nil_of_length_pos (by rw [hlen]; exact hd))
      (hheader ▸ table.is_cell)
  · obtain ⟨row, -, rfl⟩ := List.mem_map.mp hmem
    exact hfacts row.key_cell row.rest (row.rest_ne hd) row.is_cell

theorem reads_text (hd : 0 < d) (hdelim : isspace delim = false) (table : Table delim d) :
    Reads table (readlines table.text) := by
  have hfacts := table.line_facts hd hdelim
  unfold Reads Table.text
  rw [readlines_broken _ (fun line h => (hfacts line h).1) (fun line h => (hfacts line h).2)]
  exact forall₂_isLine_broken _ _

theorem headers_none (hdelim : isspace delim = false) (hd : 0 < d) (numfiles : ℕ)
    {table : Table delim d} {tables : List (Table delim d)} {fds : List (List Text)}
    (h : List.Forall₂ Reads (table :: tables) fds) :
    ∃ fds', headers delim numfiles none fds =
        (.ok (some d, fds'), line_of delim (header_cells table.header numfiles) ++ ['\n']) ∧
      List.Forall₂ ReadsRows (table :: tables) fds' := by
  cases h with
  | cons hreads hothers =>
    obtain ⟨t, rest, rfl, hheader, hcount, hrows⟩ := hreads.split hdelim
    obtain ⟨hcounts, htails⟩ := reads_tails hdelim hothers
    have hstrip : strip isspace t = line_of delim table.header := by
      obtain ⟨w, hw, rfl⟩ := hheader
      apply strip_append
      · exact trimmed_line_of hdelim fun cell hcell => (table.is_cell cell hcell).trimmed
      · intro c hc
        rw [hw c hc]
        rfl
    refine ⟨_, ?_, List.Forall₂.cons hrows htails⟩
    rw [headers_none_eq numfiles hcount (restcols_header hdelim hd table hheader) hcounts, hstrip,
      header_text_eq hd]

theorem lookaheads_shows {tables : List (Table delim d)} {fds : List (List Text)}
    (h : List.Forall₂ ReadsRows tables fds) :
    ∃ rs, lookaheads fds = (.ok rs, []) ∧ List.Forall₂ Shows (tables.map Table.rows) rs := by
  have hne : ∀ fd ∈ fds, fd ≠ [] := by
    induction h with
    | nil => simp
    | cons hrows _ ih =>
      refine List.forall_mem_cons.mpr ⟨?_, ih⟩
      rintro rfl
      exact Table.rows_ne _ (List.forall₂_nil_right_iff.mp hrows)
  refine ⟨_, lookaheads_eq hne, ?_⟩
  rw [List.forall₂_map_left_iff, List.forall₂_map_right_iff]
  exact h.imp fun _ _ hrows => Shows.advance hrows

/-- **Full outer join**: `csvmerge` ends, after the header and one row for each
    key of the files, in increasing order; in the row of a key stand, file by
    file, the other cells of the file's row with that key, or empty cells. -/
theorem csvmerge_outer_join (argv0 : Text) {delim : Char} (hdelim : isspace delim = false) {d : ℕ}
    (hd : 0 < d) (table : Table delim d) (tables : List (Table delim d)) :
    ∃ ks : List ℤ, ks.Pairwise (· < ·) ∧
      (∀ k, k ∈ ks ↔ ∃ t ∈ table :: tables, ∃ row ∈ t.rows, row.key = k) ∧
      ∃ needed, ∀ fuel, needed ≤ fuel →
        main fuel argv0 delim ((table :: tables).map Table.text) = (.ok (),
          joined delim (header_cells table.header (tables.length + 1) ::
            ks.map (merged_cells (table :: tables)))) := by
  have hreads : List.Forall₂ Reads (table :: tables)
      (((table :: tables).map Table.text).map readlines) := by
    rw [List.map_map, List.forall₂_map_right_iff]
    exact List.forall₂_same.mpr fun t _ => reads_text hd hdelim t
  obtain ⟨fds, hheaders, hrows⟩ := headers_none hdelim hd (tables.length + 1) hreads
  obtain ⟨rs, hrs, hshows⟩ := lookaheads_shows hrows
  have hsorted : ∀ rows ∈ (table :: tables).map Table.rows, OuterJoin.Sorted Row.key rows := by
    intro rows hmem
    obtain ⟨t, -, rfl⟩ := List.mem_map.mp hmem
    exact t.sorted
  obtain ⟨ks, hks, hoccurs, hjoin⟩ := OuterJoin.join_spec hsorted
  refine ⟨ks, hks, ?_, OuterJoin.total ((table :: tables).map Table.rows) + 1, ?_⟩
  · intro k
    rw [hoccurs]
    unfold OuterJoin.Occurs
    simp only [List.mem_map, exists_exists_and_eq_and]
  · intro fuel hfuel
    have hmerge := merge_shows hdelim hd (List.replicate d delim) hshows (hjoin fuel hfuel)
    -- the rounds, one row for each key, are the lines of the join
    have htext : ((ks.map fun k => (k, ((table :: tables).map Table.rows).map
        (OuterJoin.lookup Row.key k))).flatMap (row_text (List.replicate d delim))) =
        joined delim (ks.map (merged_cells (table :: tables))) := by
      unfold joined
      rw [List.flatMap_map, List.flatMap_map]
      congr 1
      funext k
      rw [List.map_map]
      exact row_text_eq hd (table :: tables) k
    unfold main
    rw [if_neg (by simp), List.length_map, joined_cons, ← htext]
    refine Out.bind_ok hheaders ?_
    exact Out.bind_ok (t := []) hrs hmerge

/-- A row with one cell after its key. -/
def pair_row (key_cell cell : Text) (key : ℤ) (hkey : int key_cell = some key)
    (hcells : ∀ c ∈ [key_cell, cell], IsCell ',' c) : Row ',' 1 :=
  ⟨key_cell, key, [cell], hkey, rfl, hcells⟩

/-- A file with the keys 1 and 3. -/
def odd_rows : Table ',' 1 where
  header := ["pages".toList, "ns".toList]
  rows := [pair_row ['1'] ['x'] 1 (by decide) (by decide),
    pair_row ['3'] ['y'] 3 (by decide) (by decide)]
  ended := true
  length_header := rfl
  is_cell := by decide
  rows_ne := List.cons_ne_nil _ _
  sorted := by simp [pair_row]

/-- A file with the keys 2 and 3, whose last line is not ended. -/
def late_rows : Table ',' 1 where
  header := ["pages".toList, "ns".toList]
  rows := [pair_row ['2'] ['z'] 2 (by decide) (by decide),
    pair_row ['3'] [] 3 (by decide) (by decide)]
  ended := false
  length_header := rfl
  is_cell := by decide
  rows_ne := List.cons_ne_nil _ _
  sorted := by simp [pair_row]

theorem csvmerge_outer_join_two : isspace ',' = false ∧ ∃ ks : List ℤ, ks.Pairwise (· < ·) ∧
    (∀ k, k ∈ ks ↔ ∃ t ∈ [odd_rows, late_rows], ∃ row ∈ t.rows, row.key = k) ∧
    ∃ needed, ∀ fuel, needed ≤ fuel →
      main fuel [] ',' ([odd_rows, late_rows].map Table.text) = (.ok (),
        joined ',' (header_cells odd_rows.header 2 ::
          ks.map (merged_cells [odd_rows, late_rows]))) :=
  ⟨rfl, csvmerge_outer_join [] rfl Nat.one_pos odd_rows [late_rows]⟩

example : (main 5 [] ',' ([odd_rows, late_rows].map Table.text)).2 =
    "pages,ns,ns\n1,x,\n2,,z\n3,y,\n".toList := by
  decide

end CsvMerge
