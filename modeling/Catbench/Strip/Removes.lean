import Catbench.Strip.Lines
import Catbench.Strip.Patterns

/-! # What `strip` removes

    The script removes the lines of the members with the four names, and with them
    the members, as long as no other line has a pattern.
-/

open Json Layouts TextLines
open Jaguar (Text)

namespace Strip

variable {F : Type}

/-! ## Section 1: Documents -/

/-- The names of the members. -/
def names : List Str :=
  (perf_data :: words).map Str.ofText

mutual

/-- The document without the members of these names. -/
def without : Val F → Val F
  | .list xs => .list (withoutList xs)
  | .dict d => .dict (withoutItems d)
  | .null => .null
  | .bool b => .bool b
  | .int z => .int z
  | .float x => .float x
  | .str s => .str s

def withoutList : List (Val F) → List (Val F)
  | [] => []
  | x :: xs => without x :: withoutList xs

def withoutItems : List (Key × Val F) → List (Key × Val F)
  | [] => []
  | (k, v) :: d =>
    if k.text ∈ names then withoutItems d else (k, without v) :: withoutItems d

end

/-- The members of these names are strings. -/
inductive StringNames : Val F → Prop where
  | null : StringNames .null
  | bool (b : Bool) : StringNames (.bool b)
  | int (z : ℤ) : StringNames (.int z)
  | float (x : PyFloat F) : StringNames (.float x)
  | str (s : Str) : StringNames (.str s)
  | list {xs : List (Val F)} (h : ∀ x ∈ xs, StringNames x) : StringNames (.list xs)
  | dict {d : List (Key × Val F)} (hnames : ∀ p ∈ d, p.1.text ∈ names → ∃ s, p.2 = .str s)
      (h : ∀ p ∈ d, StringNames p.2) : StringNames (.dict d)

/-- A key that does not bring its member into danger. -/
def SafeKey (k : Key) (v : Val F) : Prop :=
  ¬Marked k.text ∧ ∀ s, v = .str s → ¬IsPerfData k.text

/-- Apart from the members of these names, no string is marked, and no key of a string
    is one of performance data. -/
inductive Harmless : Val F → Prop where
  | null : Harmless .null
  | bool (b : Bool) : Harmless (.bool b)
  | int (z : ℤ) : Harmless (.int z)
  | float (x : PyFloat F) : Harmless (.float x)
  | str {s : Str} (h : ¬Marked s) : Harmless (.str s)
  | list {xs : List (Val F)} (h : ∀ x ∈ xs, Harmless x) : Harmless (.list xs)
  | dict {d : List (Key × Val F)}
      (hkeys : ∀ p ∈ d, p.1.text ∉ names → SafeKey p.1 p.2)
      (h : ∀ p ∈ d, p.1.text ∉ names → Harmless p.2) : Harmless (.dict d)

theorem withoutList_eq_map (xs : List (Val F)) : withoutList xs = xs.map without := by
  induction xs with
  | nil => rfl
  | cons x xs ih => rw [withoutList, ih, List.map_cons]

theorem withoutItems_eq_map (d : List (Key × Val F)) : withoutItems d =
    (d.filter fun p => p.1.text ∉ names).map fun p => (p.1, without p.2) := by
  induction d with
  | nil => rfl
  | cons p d ih =>
    obtain ⟨k, v⟩ := p
    by_cases hk : k.text ∈ names <;> simp [withoutItems, hk, ih]

/-- A name of the four is what its patterns look for. -/
theorem marked_of_name {s : Str} (h : s ∈ names) : Marked s ∨ IsPerfData s := by
  have hall : ∀ s ∈ names, Marked s ∨ IsPerfData s := by decide
  exact hall s h

/-! ## Section 2: Lines -/

/-- What keeps the line of a value behind its key. -/
def SafeFront (k : Option Key) (v : Val F) : Prop := ∀ key ∈ k, SafeKey key v

theorem quote_not_mem_of_silent {t : Text} (h : Silent t) : '"' ∉ t := fun hmem =>
  (h _ hmem).1 rfl

/-- A line without a string value stays exactly if its key is not marked. -/
theorem keep_front (k : Option Key) {t : Text} (ht : '"' ∉ t) :
    keep (front k ++ t) = true ↔ ∀ key ∈ k, ¬Marked key.text := by
  cases k with
  | none => simpa [front] using keep_silent ht
  | some k => simpa [front] using keep_item k ht

theorem keep_front_strText (k : Option Key) (s : Str) :
    keep (front k ++ strText s) = true ↔ SafeFront k (.str s : Val F) ∧ ¬Marked s := by
  cases k with
  | none => simpa [front, SafeFront] using keep_strText s
  | some k =>
    rw [front, keep_item_strText]
    simp [SafeFront, SafeKey]
    tauto

theorem safeFront_of_not_str {k : Option Key} {v : Val F} (hv : ∀ s, v ≠ .str s) :
    SafeFront k v ↔ ∀ key ∈ k, ¬Marked key.text := by
  refine forall_congr' fun key => imp_congr_right fun _ => ?_
  exact ⟨fun h => h.1, fun h => ⟨h, fun s hs => absurd hs (hv s)⟩⟩

section removal

variable [FloatFormat F]

/-- No opening line of a harmless document has a pattern. -/
theorem whole_layout {v : Val F} (hv : StringNames v) (hsafe : Harmless v) :
    ∀ k, SafeFront k v → Whole keep (front k) (layout v) := by
  induction v using Val.layout_induct with
  | atom v h =>
    intro k hk
    obtain ⟨t, ht⟩ := h.text
    rw [ht.layout]
    exact .leaf _ t
  | str s => exact fun k _ => .leaf _ _
  | list x xs ih =>
    intro k hk
    cases hv with
    | list hv =>
    cases hsafe with
    | list hsafe =>
      have hopen := (keep_front k (t := ['[']) (by decide)).mpr
        ((safeFront_of_not_str (by simp)).mp hk)
      refine .node hopen (by decide) fun m hm => ?_
      rw [layoutList_eq_map] at hm
      obtain ⟨y, hy, rfl⟩ := List.mem_map.mp hm
      exact ih y hy (hv y hy) (hsafe y hy) none (by simp [SafeFront])
  | dict p d ih =>
    intro k hk
    cases hv with
    | dict hnames hv =>
    cases hsafe with
    | dict hkeys hsafe =>
      have hopen := (keep_front k (t := ['{']) (by decide)).mpr
        ((safeFront_of_not_str (by simp)).mp hk)
      refine .node hopen (by decide) fun m hm => ?_
      rw [layoutItems_eq_map] at hm
      obtain ⟨q, hq, rfl⟩ := List.mem_map.mp hm
      by_cases hname : q.1.text ∈ names
      · -- the member with the name is on one line
        obtain ⟨s, hs⟩ := hnames q hq hname
        rw [hs]
        exact .leaf _ _
      · refine ih q hq (hv q hq) (hsafe q hq hname) (some q.1) ?_
        simpa [SafeFront] using hkeys q hq hname

/-- The values of a harmless document are still there behind safe keys. -/
theorem dropped_safe {k : Option Key} {v : Val F} (hk : SafeFront k v) (hsafe : Harmless v) :
    dropped keep (front k) (layout v) = false := by
  induction v using Val.layout_induct with
  | atom v h =>
    obtain ⟨t, ht⟩ := h.text
    have hkeep := (keep_front k (quote_not_mem_of_silent ht.silent)).mpr fun key hkey =>
      (hk key hkey).1
    rw [ht.layout, dropped, hkeep]
    rfl
  | str s =>
    cases hsafe with
    | str hmarked =>
      have hkeep := (keep_front_strText k s).mpr ⟨hk, hmarked⟩
      rw [layout, dropped, hkeep]
      rfl
  | list x xs => rfl
  | dict p d => rfl

theorem dropped_name {k : Key} (s : Str) (h : k.text ∈ names) :
    dropped keep (front (some k)) (layout (.str s : Val F)) = true := by
  have hkeep : ¬keep (front (some k) ++ strText s) = true := by
    intro hkeep
    have hsafe := ((keep_front_strText (F := F) (some k) s).mp hkeep).1 k rfl
    rcases marked_of_name h with hmarked | hperf
    · exact hsafe.1 hmarked
    · exact hsafe.2 s rfl hperf
  rw [layout, dropped, eq_false_of_ne_true hkeep]
  rfl

theorem prune_elements {xs : List (Val F)} (hsafe : ∀ x ∈ xs, Harmless x) :
    pruneMembers keep (layoutList xs) = xs.map fun x => ([], prune keep (layout x)) := by
  induction xs with
  | nil => rfl
  | cons x xs ih =>
    rw [List.forall_mem_cons] at hsafe
    have hstays : dropped keep [] (layout x) = false :=
      dropped_safe (k := none) (by simp [SafeFront]) hsafe.1
    rw [layoutList, pruneMembers, hstays, if_neg (by simp), ih hsafe.2, List.map_cons]

theorem prune_items {d : List (Key × Val F)}
    (hnames : ∀ p ∈ d, p.1.text ∈ names → ∃ s, p.2 = .str s)
    (hkeys : ∀ p ∈ d, p.1.text ∉ names → SafeKey p.1 p.2)
    (hsafe : ∀ p ∈ d, p.1.text ∉ names → Harmless p.2) :
    pruneMembers keep (layoutItems d) = (d.filter fun p => p.1.text ∉ names).map
      fun p => (itemFront p.1, prune keep (layout p.2)) := by
  induction d with
  | nil => rfl
  | cons p d ih =>
    rw [List.forall_mem_cons] at hnames hkeys hsafe
    have hrest := ih hnames.2 hkeys.2 hsafe.2
    obtain ⟨k, v⟩ := p
    rw [layoutItems, pruneMembers]
    by_cases hname : k.text ∈ names
    · obtain ⟨s, rfl⟩ := hnames.1 hname
      have hgoes : dropped keep (itemFront k) (layout (.str s : Val F)) = true := dropped_name s hname
      rw [hgoes, if_pos rfl, hrest, List.filter_cons_of_neg (by simpa using hname)]
    · have hstays : dropped keep (itemFront k) (layout v) = false :=
        dropped_safe (k := some k) (by simpa [SafeFront] using hkeys.1 hname) (hsafe.1 hname)
      rw [hstays, if_neg (by simp), hrest, List.filter_cons_of_pos (by simpa using hname),
        List.map_cons]

/-! ## Section 3: What the output reads as -/

/-- A dictionary that has lost its last member. -/
theorem reads_empty (level : ℕ) :
    Reads ('{' :: '\n' :: indent level ++ ['}']) (.dict [] : Val F) := by
  refine ⟨fun fuel rest hfuel _ => ?_, '{', _, rfl, by decide⟩
  obtain ⟨fuel, rfl⟩ : ∃ n, fuel = n + 1 := ⟨fuel - 1, by simp at hfuel; omega⟩
  have hskip : skipSpace ('\n' :: indent level ++ ['}'] ++ rest) = '}' :: rest := by
    have hskip := skipSpace_newline level (c := '}') (by decide) rest
    simpa [newline, indent] using hskip
  rw [List.cons_append, List.cons_append, scanOnce]
  simp only [List.cons_append] at hskip ⊢
  rw [hskip]
  rfl

theorem reads_without {v : Val F} (hplain : Plain v) (hv : StringNames v) (hsafe : Harmless v) :
    ∀ level, Reads (flat level (prune keep (layout v))) (without v) := by
  induction v using Val.layout_induct with
  | atom v h =>
    intro level
    obtain ⟨t, ht⟩ := h.text
    have hsame : without v = v := by cases h <;> rfl
    rw [ht.layout, prune, flat, hsame]
    exact ht.reads
  | str s => exact fun _ => reads_str s
  | list x xs ih =>
    intro level
    cases hplain with
    | list hplain =>
    cases hv with
    | list hv =>
    cases hsafe with
    | list hsafe =>
      have hreads := reads_list level ((x :: xs).map fun y =>
        (flat (level + 1) (prune keep (layout y)), without y)) (by simp) fun p hp => by
          obtain ⟨y, hy, rfl⟩ := List.mem_map.mp hp
          exact ih y hy (hplain y hy) (hv y hy) (hsafe y hy) (level + 1)
      rw [List.map_map, List.map_map] at hreads
      rw [layout, prune, prune_elements hsafe, flat_node level '[' ']' (by simp), List.map_map,
        without, withoutList_eq_map]
      exact hreads
  | dict p d ih =>
    intro level
    cases hplain with
    | dict hstr hnodup hplain =>
    cases hv with
    | dict hnames hv =>
    cases hsafe with
    | dict hkeys hsafe =>
      rw [layout, prune, prune_items hnames hkeys hsafe, without, withoutItems_eq_map]
      have hmem : ∀ q ∈ (p :: d).filter (fun q => q.1.text ∉ names),
          q ∈ p :: d ∧ q.1.text ∉ names := fun q hq => by simpa using hq
      have hsublist : ((p :: d).filter fun q => q.1.text ∉ names).Sublist (p :: d) :=
        List.filter_sublist
      generalize (p :: d).filter (fun q => q.1.text ∉ names) = left at hmem hsublist ⊢
      by_cases hleft : left = []
      · rw [hleft]
        exact reads_empty level
      · have hreads := reads_dict level (left.map fun q =>
          (itemFront q.1 ++ flat (level + 1) (prune keep (layout q.2)), (q.1, without q.2)))
          (by simpa using hleft) fun r hr => by
            obtain ⟨q, hq, rfl⟩ := List.mem_map.mp hr
            obtain ⟨hqd, hname⟩ := hmem q hq
            have hkey := hstr q.1 (Dict.mem_keys_of_mem hqd)
            obtain ⟨k, v⟩ := q
            cases k with
            | int i => cases hkey
            | str s =>
              exact ⟨s, _, without v, by simp [itemFront, Key.text], ih _ hqd (hplain _ hqd)
                (hv _ hqd) (hsafe _ hqd hname) (level + 1), rfl⟩
        have honce : (Dict.keys (left.map fun q => (q.1, without q.2))).Nodup := by
          rw [Dict.keys, List.map_map]
          exact hnodup.sublist (hsublist.map Prod.fst)
        rw [List.map_map, List.map_map] at hreads
        rw [flat_node level '{' '}' (by simpa using hleft), List.map_map,
          ← Dict.ofPairs_of_nodup honce]
        exact hreads

/-- The text of a file that `jaguar` has written. -/
def written (v : Val F) : Text := (dump v).text ++ ['\n']

/-- The lines of the file. -/
theorem written_eq_join {v : Val F} (hplain : Plain v) :
    written v = join (lines 0 [] [] (layout (reload v))) [] := by
  have hjoin := break_join (lines 0 [] [] (layout (reload v)))
  rw [breaks_lines, ← text_eq_flat hplain] at hjoin
  simpa [written, dump, indent] using (List.cons.inj hjoin).2.symm

variable {v : Val F}

theorem isLine_written (v : Val F) : ∀ l ∈ lines 0 [] [] (layout v), IsLine l :=
  isLine_lines (layout v) 0 [] [] (formed_layout v none) (.inl rfl)

theorem strip_of_harmless (hplain : Plain v) (hv : StringNames (reload v))
    (hsafe : Harmless (reload v)) : load (strip (written v)) = some (without (reload v)) := by
  have hfront : SafeFront none (reload v) := by simp [SafeFront]
  have hformed : Formed [] (layout (reload v)) := formed_layout (reload v) none
  have hwhole : Whole keep [] (layout (reload v)) := whole_layout hv hsafe none hfront
  have hstays : dropped keep [] (layout (reload v)) = false := dropped_safe hfront hsafe
  have hkeep : ∀ level t back, IsBack back → keep (indent level ++ t ++ back) = keep t :=
    fun level t _ hback => keep_line level t hback
  have hsettle := settle_lines hkeep (layout (reload v)) 0 [] [] false hformed hwhole hstays
    (.inl rfl)
  obtain ⟨t, ls, hfirst, -⟩ := filter_first hkeep 0 hformed hwhole hstays (.inl rfl)
  have hstrip := strip_lines (isLine_written (reload v)) (hfirst ▸ List.cons_ne_nil _ ls)
  rw [hsettle, breaks_lines] at hstrip
  have htext : strip (join (lines 0 [] [] (layout (reload v))) []) =
      flat 0 (prune keep (layout (reload v))) ++ ['\n'] := by
    simpa [indent] using (List.cons.inj hstrip).2
  rw [written_eq_join hplain, htext]
  exact (reads_without (plain_reload v) hv hsafe 0).load

end removal

end Strip
