import Catbench.CsvMerge.Table
import Catbench.Framework.OuterJoin

/-! # The rounds of `csvmerge`

    For the merge loop a row is its line, the key that `firstcol` finds in it
    and the text that `restcols` finds in it.  The unread parts of the files are
    lists of rows, and a round of the script is a round of `OuterJoin.join` on
    them, in whatever order the keys come.
-/

open Json (intText)
open Jaguar (Text isspace strip)

namespace CsvMerge

variable {delim : Char} {ρ : Type}

/-! ## Section 1: Rows and what the script finds in them -/

/-- A kind of rows, with what the script finds in their lines. -/
structure RowView (delim : Char) (ρ : Type) where
  line : ρ → Text
  key : ρ → ℤ
  cols : ρ → Text
  firstcol_line : ∀ {row : ρ} {t : Text}, IsLine (line row) t →
    firstcol delim (some t) = .ok (.int (key row))
  restcols_line : ∀ {row : ρ} {t : Text}, IsLine (line row) t →
    restcols delim (some t) = .ok (some (cols row))

namespace RowView

/-- What is left to read of a file: the lookahead has the next row. -/
inductive Shows (v : RowView delim ρ) : List ρ → Reader → Prop where
  | done : Shows v [] ⟨none, []⟩
  | row {row : ρ} {rows : List ρ} {t : Text} {fd : List Text}
    (hline : IsLine (v.line row) t)
    (hrest : List.Forall₂ (fun row t => IsLine (v.line row) t) rows fd) :
    Shows v (row :: rows) ⟨some t, fd⟩

variable (v : RowView delim ρ)

/-- The key of the next row. -/
def front : List ρ → Key
  | [] => .inf
  | row :: _ => .int (v.key row)

/-- The block of a file in a row, as the script appends it. -/
def block_text (placeholder : Text) : Option ρ → Text
  | none => placeholder
  | some row => delim :: v.cols row

/-- The row of a round, as the script prints it. -/
def row_text (placeholder : Text) (row : ℤ × List (Option ρ)) : Text :=
  intText row.1 ++ row.2.flatMap (v.block_text placeholder) ++ ['\n']

end RowView

/-! ## Section 2: The least key -/

/-- No line is less than the one that `min` finds. -/
theorem least_line_spec (best : Option Text × Key) (kxs : List (Option Text × Key)) :
    least_line best kxs ∈ best :: kxs ∧
      ∀ p ∈ best :: kxs, p.2.lt (least_line best kxs).2 = false := by
  have hirrefl : ∀ k : Key, k.lt k = false := by
    intro k
    cases k <;> simp [Key.lt]
  have htrans : ∀ a b c : Key, a.lt b = false → b.lt c = false → a.lt c = false := by
    intro a b c
    cases a <;> cases b <;> cases c <;> simp [Key.lt]
    omega
  induction kxs generalizing best with
  | nil =>
    refine ⟨List.mem_singleton_self best, ?_⟩
    intro p hp
    rw [List.mem_singleton.mp hp]
    exact hirrefl _
  | cons q kxs ih =>
    have hstep : least_line best (q :: kxs) =
        least_line (if q.2.lt best.2 then q else best) kxs := rfl
    rw [hstep]
    by_cases hlt : q.2.lt best.2 = true
    · -- `q` replaces the best line so far, so that one is not less
      obtain ⟨hmem, hmin⟩ := ih q
      have hbest : best.2.lt q.2 = false := by
        cases hb : best.2 <;> cases hq : q.2 <;> rw [hb, hq] at hlt <;> simp [Key.lt] at hlt ⊢
        omega
      rw [if_pos hlt]
      refine ⟨List.mem_cons_of_mem _ hmem, ?_⟩
      rw [List.forall_mem_cons]
      exact ⟨htrans _ _ _ hbest (hmin q List.mem_cons_self), hmin⟩
    · -- the best line so far stays, and `q` is not less
      obtain ⟨hmem, hmin⟩ := ih best
      have hq : q.2.lt best.2 = false := Bool.eq_false_iff.mpr hlt
      obtain ⟨hbest, hothers⟩ := List.forall_mem_cons.mp hmin
      rw [if_neg hlt]
      constructor
      · rcases List.mem_cons.mp hmem with heq | hmem
        · rw [heq]
          exact List.mem_cons_self
        · exact List.mem_cons_of_mem _ (List.mem_cons_of_mem _ hmem)
      · rw [List.forall_mem_cons, List.forall_mem_cons]
        exact ⟨hbest, htrans _ _ _ hq hbest, hothers⟩

namespace RowView

variable {v : RowView delim ρ}

theorem Shows.advance {rows : List ρ} {fd : List Text} {x : Option Text}
    (h : List.Forall₂ (fun row t => IsLine (v.line row) t) rows fd) :
    v.Shows rows (Reader.advance ⟨x, fd⟩) := by
  cases h with
  | nil => exact Shows.done
  | cons hline hrest => exact Shows.row hline hrest

theorem Shows.firstcol {rows : List ρ} {r : Reader} (h : v.Shows rows r) :
    CsvMerge.firstcol delim r.nextel = .ok (v.front rows) := by
  cases h with
  | done => rfl
  | row hline _ => exact v.firstcol_line hline

/-- The rounds end when no file has a row. -/
theorem count_none_iff {rss : List (List ρ)} {rs : List Reader}
    (h : List.Forall₂ v.Shows rss rs) :
    (rs.map (·.nextel)).count none = rs.length ↔ OuterJoin.least v.key rss = none := by
  rw [← List.length_map (f := (·.nextel)), List.count_eq_length]
  unfold OuterJoin.least
  rw [List.argmin_eq_none]
  induction h with
  | nil => simp [OuterJoin.heads]
  | cons hshows _ ih =>
    cases hshows with
    | done => simpa [OuterJoin.heads] using ih
    | row _ _ => simp [OuterJoin.heads]

theorem keyed_shows {rss : List (List ρ)} {rs : List Reader}
    (h : List.Forall₂ v.Shows rss rs) :
    ∃ kxs, keyed delim (rs.map (·.nextel)) = .ok kxs ∧ kxs.map Prod.snd = rss.map v.front ∧
      ∀ p ∈ kxs, firstcol delim p.1 = .ok p.2 := by
  induction h with
  | nil => exact ⟨[], rfl, rfl, by simp⟩
  | @cons rows r rss rs hshows _ ih =>
    obtain ⟨kxs, hkeyed, hsnd, hall⟩ := ih
    have hkey := hshows.firstcol
    refine ⟨(r.nextel, v.front rows) :: kxs, ?_, ?_, ?_⟩
    · rw [List.map_cons, keyed, hkey, hkeyed]
      rfl
    · rw [List.map_cons, List.map_cons, hsnd]
    · intro p hp
      rcases List.mem_cons.mp hp with heq | hmem
      · rw [heq]
        exact hkey
      · exact hall p hmem

/-- The least of the keys in front, where the key of an exhausted file is infinite. -/
theorem front_least {rss : List (List ρ)} {k : ℤ}
    (hleast : OuterJoin.least v.key rss = some k) {m : Key} (hmem : m ∈ rss.map v.front)
    (hmin : ∀ m' ∈ rss.map v.front, m'.lt m = false) : m = .int k := by
  have hheads : k ∈ OuterJoin.heads v.key rss := OuterJoin.least_mem hleast
  obtain ⟨row, rows, hrows, hkey⟩ := OuterJoin.mem_heads.mp hheads
  have hfront : Key.int k ∈ rss.map v.front := by
    rw [← hkey]
    exact List.mem_map.mpr ⟨row :: rows, hrows, rfl⟩
  have hle := hmin _ hfront
  obtain ⟨rows', hrows', hm⟩ := List.mem_map.mp hmem
  cases rows' with
  | nil =>
    rw [← hm] at hle
    cases hle
  | cons row' rows' =>
    -- the least key of all is at the front somewhere, so none is below it
    have hge : k ≤ v.key row' :=
      OuterJoin.least_le_heads hleast (OuterJoin.mem_heads.mpr ⟨row', rows', hrows', rfl⟩)
    rw [← hm] at hle ⊢
    have hnot : ¬k < v.key row' := of_decide_eq_false hle
    show Key.int (v.key row') = .int k
    congr 1
    omega

/-- The script takes the key of the round. -/
theorem minimum_shows {rss : List (List ρ)} {rs : List Reader} {k : ℤ}
    (h : List.Forall₂ v.Shows rss rs) (hleast : OuterJoin.least v.key rss = some k) :
    ∃ x, minimum delim (rs.map (·.nextel)) = .ok x ∧ firstcol delim x = .ok (.int k) := by
  obtain ⟨kxs, hkeyed, hsnd, hall⟩ := keyed_shows h
  unfold minimum
  rw [hkeyed]
  cases kxs with
  | nil =>
    -- Some file has a row, so there are files.
    have hnil : rss = [] := List.map_eq_nil_iff.mp hsnd.symm
    rw [hnil] at hleast
    cases hleast
  | cons p kxs =>
    obtain ⟨hmem, hmin⟩ := least_line_spec p kxs
    refine ⟨(least_line p kxs).1, rfl, ?_⟩
    rw [hall _ hmem]
    congr 1
    apply front_least hleast
    · rw [← hsnd]
      exact List.mem_map.mpr ⟨_, hmem, rfl⟩
    · intro m hm
      rw [← hsnd] at hm
      obtain ⟨q, hq, rfl⟩ := List.mem_map.mp hm
      exact hmin q hq

/-! ## Section 3: Rounds -/

/-- One file in a round: it gives its block and moves on if its key is the one
    of the round, and stays otherwise. -/
theorem blocks_shows (placeholder : Text) (k : ℤ) {rss : List (List ρ)} {rs : List Reader}
    (h : List.Forall₂ v.Shows rss rs) :
    ∃ rs', blocks delim placeholder (.int k) rs =
        .ok ((rss.map (OuterJoin.pick v.key k)).flatMap (v.block_text placeholder), rs') ∧
      List.Forall₂ v.Shows (rss.map (OuterJoin.skip v.key k)) rs' := by
  induction h with
  | nil => exact ⟨[], rfl, List.Forall₂.nil⟩
  | @cons rows r rss rs hshows _ ih =>
    obtain ⟨rs', hblocks, hrest⟩ := ih
    have hkey := hshows.firstcol
    cases hshows with
    | done =>
      refine ⟨⟨none, []⟩ :: rs', ?_, List.Forall₂.cons Shows.done hrest⟩
      rw [blocks, hkey, hblocks]
      rfl
    | @row row rows t fd hline hlines =>
      by_cases hfront : v.key row = k
      · refine ⟨Reader.advance ⟨some t, fd⟩ :: rs', ?_, ?_⟩
        · -- the file has the key of the round: it appends its cells and moves on
          have hcols := v.restcols_line hline
          have hpick : OuterJoin.pick v.key k (row :: rows) = some row := by
            simp [OuterJoin.pick, Option.filter_some, hfront]
          rw [blocks, hkey, List.map_cons, hpick, List.flatMap_cons]
          show (if Key.int (v.key row) = .int k then _ else _) = _
          rw [if_pos (by rw [hfront]), hcols, hblocks]
          rfl
        · rw [List.map_cons, OuterJoin.skip_cons, if_pos hfront]
          exact List.Forall₂.cons (Shows.advance hlines) hrest
      · refine ⟨⟨some t, fd⟩ :: rs', ?_, ?_⟩
        · -- another key: the placeholder stands for the file, which stays
          have hpick : OuterJoin.pick v.key k (row :: rows) = none := by
            simp [OuterJoin.pick, Option.filter_some, hfront]
          rw [blocks, hkey, List.map_cons, hpick, List.flatMap_cons]
          show (if Key.int (v.key row) = .int k then _ else _) = _
          rw [if_neg (fun h => hfront (Key.int.inj h)), hblocks]
          rfl
        · rw [List.map_cons, OuterJoin.skip_cons, if_neg hfront]
          exact List.Forall₂.cons (Shows.row hline hlines) hrest

/-- **Round**: the script does a round of the join. -/
theorem round_shows (placeholder : Text) {rss : List (List ρ)} {rs : List Reader} {k : ℤ}
    (h : List.Forall₂ v.Shows rss rs) (hleast : OuterJoin.least v.key rss = some k) :
    ∃ res rs', round delim placeholder rs = .ok (res, rs') ∧
      res ++ ['\n'] = v.row_text placeholder (k, rss.map (OuterJoin.pick v.key k)) ∧
      List.Forall₂ v.Shows (rss.map (OuterJoin.skip v.key k)) rs' := by
  obtain ⟨x, hminimum, hkey⟩ := minimum_shows h hleast
  obtain ⟨rs', hblocks, hrest⟩ := blocks_shows placeholder k h
  refine ⟨_, rs', ?_, rfl, hrest⟩
  unfold round
  rw [hminimum]
  show (firstcol delim x >>= _) = _
  rw [hkey]
  show (blocks delim placeholder (.int k) rs >>= _) = _
  rw [hblocks]
  rfl

/-- **Merge loop**: with the fuel that the join needs, the script prints its rounds. -/
theorem merge_shows (placeholder : Text) {fuel : ℕ} {rss : List (List ρ)} {rs : List Reader}
    (h : List.Forall₂ v.Shows rss rs) {rows : List (ℤ × List (Option ρ))}
    (hjoin : OuterJoin.join v.key fuel rss = some rows) :
    merge delim placeholder fuel rs = (.ok (), rows.flatMap (v.row_text placeholder)) := by
  induction fuel generalizing rss rs rows with
  | zero => cases hjoin
  | succ fuel ih =>
    unfold OuterJoin.join at hjoin
    unfold merge
    cases hleast : OuterJoin.least v.key rss with
    | none =>
      rw [hleast] at hjoin
      rw [if_pos ((count_none_iff h).mpr hleast), ← Option.some.inj hjoin]
      rfl
    | some k =>
      rw [hleast] at hjoin
      obtain ⟨rest, hrest, hrows⟩ := Option.map_eq_some_iff.mp hjoin
      obtain ⟨res, rs', hround, hres, hshows⟩ := round_shows placeholder h hleast
      -- some file has a row, so the condition of the loop holds
      have hnot : ¬(rs.map (·.nextel)).count none = rs.length := by
        rw [count_none_iff h, hleast]
        exact Option.some_ne_none k
      rw [if_neg hnot, ← hrows, List.flatMap_cons, ← hres]
      refine Out.bind_ok (t := []) (by rw [hround]; rfl) ?_
      exact Out.bind_ok rfl (ih hshows hrest)

end RowView

/-! ## Section 4: What is read before the rounds -/

theorem header_columns_eq {t cols : Text} (h : restcols delim (some t) = .ok (some cols)) (n : ℕ) :
    header_columns delim t n = (.ok (), (List.replicate n (delim :: cols)).flatten) := by
  induction n with
  | zero => rfl
  | succ n ih =>
    rw [header_columns, List.replicate_succ, List.flatten_cons]
    refine Out.bind_ok (t := [delim]) rfl ?_
    refine Out.bind_ok (t := []) (by rw [h]; rfl) ?_
    exact Out.bind_ok rfl ih

/-- The headers of the other files are read without a word. -/
theorem headers_some_eq (numfiles : ℕ) {d : ℕ} {fds : List (List Text)}
    (h : ∀ fd ∈ fds, ∃ t rest, fd = t :: rest ∧ t.count delim = d) :
    headers delim numfiles (some d) fds = (.ok (some d, fds.map List.tail), []) := by
  induction fds with
  | nil => rfl
  | cons fd fds ih =>
    obtain ⟨⟨t, rest, rfl, hcount⟩, hothers⟩ := List.forall_mem_cons.mp h
    rw [headers]
    refine Out.bind_ok (t := []) rfl ?_
    show (if t.count delim ≠ d then _ else _) = _
    rw [if_neg (not_not.mpr hcount)]
    exact Out.bind_ok (t := []) (ih hothers) rfl

/-- The header of the first file is printed, and its columns once more for each
    other file. -/
theorem headers_none_eq (numfiles : ℕ) {d : ℕ} {t cols : Text} {rest : List Text}
    {fds : List (List Text)} (hcount : t.count delim = d)
    (hcols : restcols delim (some t) = .ok (some cols))
    (h : ∀ fd ∈ fds, ∃ t rest, fd = t :: rest ∧ t.count delim = d) :
    headers delim numfiles none ((t :: rest) :: fds) =
      (.ok (some d, rest :: fds.map List.tail),
        strip isspace t ++ (List.replicate (numfiles - 1) (delim :: cols)).flatten ++ ['\n']) := by
  rw [headers, List.append_assoc]
  refine Out.bind_ok (t := []) rfl ?_
  refine Out.bind_ok rfl ?_
  refine Out.bind_ok (header_columns_eq hcols _) ?_
  refine Out.bind_ok (t := ['\n']) (u := []) rfl ?_
  rw [hcount]
  exact Out.bind_ok (t := []) (headers_some_eq numfiles h) rfl

theorem lookaheads_eq {fds : List (List Text)} (h : ∀ fd ∈ fds, fd ≠ []) :
    lookaheads fds = (.ok (fds.map fun fd => Reader.advance ⟨none, fd⟩), []) := by
  induction fds with
  | nil => rfl
  | cons fd fds ih =>
    obtain ⟨hne, hothers⟩ := List.forall_mem_cons.mp h
    obtain ⟨t, rest, rfl⟩ := List.exists_cons_of_ne_nil hne
    rw [lookaheads]
    refine Out.bind_ok (t := []) rfl ?_
    exact Out.bind_ok (t := []) (ih hothers) rfl

/-- A file without a row ends the script. -/
theorem lookaheads_stops {fds : List (List Text)} (h : [] ∈ fds) :
    ∃ t, lookaheads fds = (.error .stop_iteration, t) := by
  induction fds with
  | nil => cases h
  | cons fd fds ih =>
    cases fd with
    | nil => exact ⟨[], rfl⟩
    | cons t rest =>
      obtain ⟨u, hu⟩ := ih ((List.mem_cons.mp h).resolve_left (by simp))
      have hrest : (do
          let rs ← lookaheads fds
          pure (⟨some t, rest⟩ :: rs) : Out (List Reader)) = (.error .stop_iteration, u) :=
        Out.bind_error hu
      exact ⟨u, hrest⟩

/-! ## Section 5: Fuel -/

/-- More fuel makes no difference to a merge that ends. -/
theorem merge_succ {placeholder : Text} {fuel : ℕ} {rs : List Reader} {t : Text}
    (h : merge delim placeholder fuel rs = (.ok (), t)) :
    merge delim placeholder (fuel + 1) rs = (.ok (), t) := by
  induction fuel generalizing rs t with
  | zero =>
    have hstop : Except.error Stop.running = Except.ok () := congrArg Prod.fst h
    cases hstop
  | succ fuel ih =>
    rw [merge] at h ⊢
    by_cases hdone : (rs.map (·.nextel)).count none = rs.length
    · rw [if_pos hdone] at h ⊢
      exact h
    · rw [if_neg hdone] at h ⊢
      obtain ⟨⟨res, rs'⟩, u, v, hround, hrest, ht⟩ := Out.of_bind_ok h
      obtain ⟨_, u', v', hprint, hmerge, hv⟩ := Out.of_bind_ok hrest
      rw [ht, hv]
      exact Out.bind_ok hround (Out.bind_ok hprint (ih hmerge))

/-- There is only one text that a merge can print. -/
theorem merge_unique {placeholder : Text} {fuel fuel' : ℕ} {rs : List Reader} {t t' : Text}
    (h : merge delim placeholder fuel rs = (.ok (), t))
    (h' : merge delim placeholder fuel' rs = (.ok (), t')) : t = t' := by
  have hmono : ∀ {n t} (k : ℕ), merge delim placeholder n rs = (.ok (), t) →
      merge delim placeholder (n + k) rs = (.ok (), t) := by
    intro n t k hn
    induction k with
    | zero => exact hn
    | succ k ih => exact merge_succ ih
  have hboth := (hmono fuel' h).symm.trans (Nat.add_comm fuel' fuel ▸ hmono fuel h')
  exact (Prod.mk.inj hboth).2

end CsvMerge
