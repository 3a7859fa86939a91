import Catbench.Strip.Removes

/-! # Where `strip` removes something else

    A line that is left out takes its strings along.  The lines that stay have too
    few quotation marks then to be read as the document without the members, whatever
    else the output may be.
-/

open Json Layouts
open TextLines (join)
open Jaguar (Text)

namespace Strip

/-! ## Section 1: Quotation marks of the lines -/

/-- The quotation marks of the text and of what follows it do not interfere. -/
def Balanced (t : Text) : Prop := ∀ u, quotes (t ++ u) = quotes t + quotes u

theorem Balanced.append {t u : Text} (ht : Balanced t) (hu : Balanced u) : Balanced (t ++ u) := by
  intro w
  rw [List.append_assoc, ht, hu, ht]
  omega

theorem balanced_silent {t : Text} (h : Silent t) : Balanced t := by
  intro u
  rw [quotes_silent_append h, quotes_silent h]
  omega

theorem quotes_string (s : Str) : quotes (strText s) = 2 := by
  have h := quotes_strText s []
  rwa [List.append_nil, quotes, Nat.zero_add] at h

theorem balanced_strText (s : Str) : Balanced (strText s) := by
  intro u
  rw [quotes_strText, quotes_string]
  omega

theorem balanced_front (k : Option Key) : Balanced (front k) := by
  cases k with
  | none => exact balanced_silent (by decide)
  | some k => exact (balanced_strText k.text).append (balanced_silent (by decide))

theorem quotes_front (k : Key) : quotes (front (some k)) = 2 := by
  have hcolon : quotes [':', ' '] = 0 := rfl
  rw [front, itemFront, balanced_strText k.text, quotes_string, hcolon]

/-- A line and what follows it, with its comma or without. -/
def Weighs (l : Text) : Prop :=
  ∀ u, quotes (l ++ u) = quotes l + quotes u ∧ quotes (trim l ++ u) = quotes l + quotes u

theorem silent_indent (level : ℕ) : Silent (indent level) := by
  intro c hc
  rw [(List.mem_replicate.mp hc).2]
  decide

theorem silent_back {back : Text} (h : IsBack back) : Silent back := by
  rcases h with rfl | rfl
  · decide
  · decide

theorem quotes_line (level : ℕ) {t back : Text} (ht : Balanced t) (hback : IsBack back) (u : Text) :
    quotes (indent level ++ t ++ back ++ u) = quotes t + quotes u := by
  rw [List.append_assoc, List.append_assoc, quotes_silent_append (silent_indent level), ht,
    quotes_silent_append (silent_back hback)]

theorem quotes_line_nil (level : ℕ) {t back : Text} (ht : Balanced t) (hback : IsBack back) :
    quotes (indent level ++ t ++ back) = quotes t := by
  have h := quotes_line level ht hback []
  rwa [List.append_nil, quotes, Nat.add_zero] at h

theorem weighs_line (level : ℕ) {t back : Text} (ht : Balanced t) (hlast : t.getLast? ≠ some ',')
    (hne : t ≠ []) (hback : IsBack back) : Weighs (indent level ++ t ++ back) := by
  intro u
  have htrim := quotes_line level ht (.inl rfl) u
  rw [List.append_nil] at htrim
  rw [quotes_line_nil level ht hback, trim_line level hlast hne hback]
  exact ⟨quotes_line level ht hback u, htrim⟩

theorem weighs_content (level : ℕ) {t back : Text} (ht : Balanced t) (h : IsContent t)
    (hback : IsBack back) : Weighs (indent level ++ t ++ back) := by
  refine weighs_line level ht h.no_comma ?_ hback
  obtain ⟨c, u, rfl, -⟩ := h.opens
  exact List.cons_ne_nil c u

/-- The quotation marks of lines. -/
def weight (ls : List Text) : ℕ := (ls.map quotes).sum

theorem quotes_settle {ls : List Text} (h : ∀ l ∈ ls, Weighs l) (next : Bool) (u : Text) :
    quotes (breaks '\n' (settle next ls) ++ u) = weight ls + quotes u := by
  induction ls with
  | nil => simp [settle, weight]
  | cons l ls ih =>
    obtain ⟨hl, hls⟩ := List.forall_mem_cons.mp h
    have hrest := ih hls
    rw [settle, breaks_cons, List.cons_append, List.cons_append, List.append_assoc,
      quotes_cons (by decide) (by decide), weight, List.map_cons, List.sum_cons]
    rw [weight] at hrest
    split
    · rw [(hl _).2, hrest, Nat.add_assoc]
    · rw [(hl _).1, hrest, Nat.add_assoc]

/-- The output has the quotation marks of the lines that stay. -/
theorem quotes_strip {ls : List Text} (hline : ∀ l ∈ ls, IsLine l) (hweighs : ∀ l ∈ ls, Weighs l) :
    quotes (strip (join ls [])) = weight (ls.filter keep) := by
  by_cases hnil : ls.filter keep = []
  · rw [strip_join hline, hnil]
    rfl
  · have hstrip := congrArg quotes (strip_lines hline hnil)
    rw [quotes_settle fun l hl => hweighs l (List.mem_of_mem_filter hl),
      quotes_cons (by decide) (by decide)] at hstrip
    exact hstrip

section exact

variable {F : Type} [FloatFormat F]

theorem weighs_node (level : ℕ) (k : Option Key) {o c : Char} {ms : List (Text × Layout)}
    {back : Text} (hback : IsBack back) (ho : IsContent [o]) (hsilent : Silent [o, c])
    (hc : isClosing c = true) (h : ∀ m ∈ ms, ∀ back, IsBack back →
      ∀ l ∈ lines (level + 1) m.1 back m.2, Weighs l) :
    ∀ l ∈ lines level (front k) back (.node o c ms), Weighs l := by
  intro l hl
  have hopen : Silent [o] := fun d hd => hsilent d (by simpa using .inl (List.mem_singleton.mp hd))
  have hclose : Silent [c] := fun d hd => hsilent d (by simpa using .inr (List.mem_singleton.mp hd))
  rw [lines, List.mem_append, List.mem_cons, List.mem_singleton] at hl
  rcases hl with (rfl | hl) | rfl
  · have hweighs := weighs_content level ((balanced_front k).append (balanced_silent hopen))
      (isContent_front k ho) (.inl rfl)
    rwa [List.append_nil] at hweighs
  · obtain ⟨m, hm, back', hback', hl⟩ := mem_linesMembers hl
    exact h m hm back' hback' l hl
  · have hcomma : [c].getLast? ≠ some ',' := by
      intro hlast
      obtain rfl : c = ',' := by simpa using hlast
      cases hc
    have hweighs := weighs_line level (balanced_silent hclose) hcomma (by simp) hback
    rwa [List.append_assoc] at hweighs

theorem weighs_lines (v : Val F) : ∀ level k back, IsBack back →
    ∀ l ∈ lines level (front k) back (layout v), Weighs l := by
  induction v using Val.layout_induct with
  | atom v h =>
    intro level k back hback l hl
    obtain ⟨t, ht⟩ := h.text
    rw [ht.layout, lines, List.mem_singleton] at hl
    rw [hl]
    exact weighs_content level ((balanced_front k).append (balanced_silent ht.silent))
      (isContent_front k ht.content) hback
  | str s =>
    intro level k back hback l hl
    rw [layout, lines, List.mem_singleton] at hl
    rw [hl]
    exact weighs_content level ((balanced_front k).append (balanced_strText s))
      (isContent_front k (isContent_strText s)) hback
  | list x xs ih =>
    intro level k back hback
    refine weighs_node level k hback isContent_bracket (by decide) (by decide) fun m hm back hb => ?_
    rw [layoutList_eq_map] at hm
    obtain ⟨y, hy, rfl⟩ := List.mem_map.mp hm
    exact ih y hy (level + 1) none back hb
  | dict p d ih =>
    intro level k back hback
    refine weighs_node level k hback isContent_brace (by decide) (by decide) fun m hm back hb => ?_
    rw [layoutItems_eq_map] at hm
    obtain ⟨q, hq, rfl⟩ := List.mem_map.mp hm
    exact ih q hq (level + 1) (some q.1) back hb

/-! ## Section 2: What a line takes along -/

/-- At most so many quotation marks stay, and fewer if it is not safe. -/
structure Loses (ls : List Text) (n : ℕ) (safe : Prop) : Prop where
  le : weight (ls.filter keep) ≤ n
  lt : ¬safe → weight (ls.filter keep) < n

theorem Loses.append {ls ms : List Text} {m n : ℕ} {p q : Prop} (hl : Loses ls m p)
    (hm : Loses ms n q) : Loses (ls ++ ms) (m + n) (p ∧ q) := by
  have hsum : weight ((ls ++ ms).filter keep) =
      weight (ls.filter keep) + weight (ms.filter keep) := by
    simp [weight]
  have hle := Nat.add_le_add hl.le hm.le
  refine ⟨hsum ▸ hle, fun hnot => hsum ▸ ?_⟩
  rcases not_and_or.mp hnot with h | h
  · exact Nat.add_lt_add_of_lt_of_le (hl.lt h) hm.le
  · exact Nat.add_lt_add_of_le_of_lt hl.le (hm.lt h)

theorem Loses.imp {ls : List Text} {n : ℕ} {p q : Prop} (h : Loses ls n p) (hpq : p → q) :
    Loses ls n q :=
  ⟨h.le, fun hq => h.lt fun hp => hq (hpq hp)⟩

theorem loses_line {l : Text} {n : ℕ} {safe : Prop} (hn : quotes l = n)
    (h : ¬safe → keep l = false ∧ 0 < n) : Loses [l] n safe := by
  have hweight : weight ([l].filter keep) = if keep l then n else 0 := by
    by_cases hl : keep l = true
    · simp [weight, hl, hn]
    · simp [weight, hl]
  rw [← hn] at h
  constructor
  · rw [hweight]
    split
    · exact le_rfl
    · exact Nat.zero_le n
  · intro hnot
    obtain ⟨hl, hpos⟩ := h hnot
    rw [hweight, hl, if_neg (by simp), ← hn]
    exact hpos

/-- The lines of a value at one place. -/
def LosesAt (v : Val F) : Prop := ∀ level k back, IsBack back →
  Loses (lines level (front k) back (layout v)) (quotes (front k) + 2 * strings (without v))
    (SafeFront k v ∧ Harmless v)

omit [FloatFormat F] in
/-- A line without a string value. -/
theorem loses_first (level : ℕ) (k : Option Key) {t back : Text} {v : Val F} (ht : Silent t)
    (hback : IsBack back) (hv : ∀ s, v ≠ .str s) :
    Loses [indent level ++ (front k ++ t) ++ back] (quotes (front k)) (SafeFront k v) := by
  refine loses_line ?_ fun hnot => ?_
  · rw [quotes_line_nil level ((balanced_front k).append (balanced_silent ht)) hback,
      balanced_front k, quotes_silent ht, Nat.add_zero]
  · rw [safeFront_of_not_str hv, ← keep_front k (quote_not_mem_of_silent ht)] at hnot
    rw [keep_line level _ hback]
    refine ⟨eq_false_of_ne_true hnot, ?_⟩
    cases k with
    | none => exact absurd (keep_silent (quote_not_mem_of_silent ht)) hnot
    | some k =>
      rw [quotes_front]
      decide

theorem loses_last (level : ℕ) {c : Char} {back : Text} (hc : Silent [c]) (hback : IsBack back) :
    Loses [indent level ++ c :: back] 0 True := by
  refine loses_line ?_ fun hnot => absurd trivial hnot
  have hquotes := quotes_line_nil level (balanced_silent hc) hback
  rwa [List.append_assoc, quotes_silent hc] at hquotes

omit [FloatFormat F] in
/-- The lines of a container, from those of its members. -/
theorem loses_node {level n : ℕ} {k : Option Key} {o c : Char} {ms : List (Text × Layout)}
    {back : Text} {v : Val F} {safe : Prop} (hback : IsBack back) (hsilent : Silent [o, c])
    (hv : ∀ s, v ≠ .str s) (h : Loses (linesMembers (level + 1) ms) n safe) :
    Loses (lines level (front k) back (.node o c ms)) (quotes (front k) + n)
      (SafeFront k v ∧ safe) := by
  have hopen : Silent [o] := fun d hd => hsilent d (by simpa using .inl (List.mem_singleton.mp hd))
  have hclose : Silent [c] := fun d hd => hsilent d (by simpa using .inr (List.mem_singleton.mp hd))
  have hfirst := loses_first level k hopen (.inl rfl) hv
  rw [List.append_nil] at hfirst
  have hall := (hfirst.append h).append (loses_last level hclose hback)
  rw [lines]
  exact hall.imp And.left

theorem loses_elements (level : ℕ) {xs : List (Val F)} (h : ∀ x ∈ xs, LosesAt x) :
    Loses (linesMembers level (layoutList xs)) (2 * stringsList (withoutList xs))
      (∀ x ∈ xs, Harmless x) := by
  induction xs with
  | nil => exact ⟨le_rfl, fun hnot => absurd (by simp) hnot⟩
  | cons x xs ih =>
    obtain ⟨hx, hxs⟩ := List.forall_mem_cons.mp h
    have hfirst := hx level none (comma (layoutList xs)) (isBack_comma _)
    have hall := hfirst.append (ih hxs)
    have hcount : quotes (front none) + 2 * strings (without x) + 2 * stringsList (withoutList xs) =
        2 * stringsList (withoutList (x :: xs)) := by
      have hzero : quotes (front none) = 0 := rfl
      rw [hzero, withoutList, stringsList]
      omega
    rw [hcount] at hall
    refine hall.imp fun hsafe => ?_
    rw [List.forall_mem_cons]
    exact ⟨hsafe.1.2, hsafe.2⟩

theorem loses_items (level : ℕ) {d : List (Key × Val F)}
    (hnames : ∀ p ∈ d, p.1.text ∈ names → ∃ s, p.2 = .str s) (h : ∀ p ∈ d, LosesAt p.2) :
    Loses (linesMembers level (layoutItems d)) (2 * stringsItems (withoutItems d))
      (∀ p ∈ d, p.1.text ∉ names → SafeKey p.1 p.2 ∧ Harmless p.2) := by
  induction d with
  | nil => exact ⟨le_rfl, fun hnot => absurd (by simp) hnot⟩
  | cons p d ih =>
    obtain ⟨hp, hd⟩ := List.forall_mem_cons.mp h
    obtain ⟨hname, hnames⟩ := List.forall_mem_cons.mp hnames
    have hrest := ih hnames hd
    obtain ⟨k, v⟩ := p
    by_cases hk : k.text ∈ names
    · -- the line of the member goes, and nobody expects its strings
      obtain ⟨s, rfl⟩ := hname hk
      have hgone : (lines level (itemFront k) (comma (layoutItems d)) (layout (.str s : Val F))).filter
          keep = [] :=
        filter_dropped (fun level t _ hback => keep_line level t hback) level (dropped_name s hk)
          (isBack_comma _)
      have hfirst : Loses (lines level (itemFront k) (comma (layoutItems d))
          (layout (.str s : Val F))) 0 True := by
        refine ⟨?_, fun hnot => absurd trivial hnot⟩
        rw [hgone]
        exact le_rfl
      have hall := hfirst.append hrest
      rw [Nat.zero_add] at hall
      rw [layoutItems, linesMembers, withoutItems, if_pos hk]
      refine hall.imp fun hsafe => ?_
      rw [List.forall_mem_cons]
      exact ⟨fun hnot => absurd hk hnot, hsafe.2⟩
    · have hall := (hp level (some k) (comma (layoutItems d)) (isBack_comma _)).append hrest
      have hcount : quotes (front (some k)) + 2 * strings (without v) +
          2 * stringsItems (withoutItems d) = 2 * stringsItems (withoutItems ((k, v) :: d)) := by
        rw [quotes_front, withoutItems, if_neg hk, stringsItems]
        omega
      rw [hcount] at hall
      refine hall.imp fun hsafe => ?_
      rw [List.forall_mem_cons]
      exact ⟨fun _ => ⟨hsafe.1.1 k rfl, hsafe.1.2⟩, hsafe.2⟩

theorem losesAt {v : Val F} (hv : StringNames v) : LosesAt v := by
  induction v using Val.layout_induct with
  | atom v h =>
    intro level k back hback
    obtain ⟨t, ht⟩ := h.text
    have hstr : ∀ s, v ≠ .str s := by cases h <;> simp
    have hsafe : Harmless v := by
      cases h with
      | null => exact .null
      | bool b => exact .bool b
      | int z => exact .int z
      | float x => exact .float x
      | list => exact .list (by simp)
      | dict => exact .dict (by simp) (by simp)
    have hzero : strings (without v) = 0 := by cases h <;> rfl
    rw [ht.layout, lines, hzero]
    exact (loses_first level k ht.silent hback hstr).imp fun hk => ⟨hk, hsafe⟩
  | str s =>
    intro level k back hback
    have hquotes : quotes (indent level ++ (front k ++ strText s) ++ back) =
        quotes (front k) + 2 * strings (without (.str s : Val F)) := by
      rw [quotes_line_nil level ((balanced_front k).append (balanced_strText s)) hback,
        balanced_front k, quotes_string]
      rfl
    refine loses_line hquotes fun hnot => ?_
    rw [keep_line level _ hback]
    constructor
    · refine eq_false_of_ne_true fun hkeep => hnot ?_
      obtain ⟨hk, hmarked⟩ := (keep_front_strText k s).mp hkeep
      exact ⟨hk, .str hmarked⟩
    · rw [without, strings]
      omega
  | list x xs ih =>
    intro level k back hback
    cases hv with
    | list hv =>
      have hmembers := loses_elements (level + 1) fun y hy => ih y hy (hv y hy)
      have hnode := loses_node (k := k) (v := .list (x :: xs)) hback (by decide : Silent ['[', ']'])
        (by simp) hmembers
      exact hnode.imp fun hsafe => ⟨hsafe.1, .list hsafe.2⟩
  | dict p d ih =>
    intro level k back hback
    cases hv with
    | dict hnames hv =>
      have hmembers := loses_items (level + 1) hnames fun q hq => ih q hq (hv q hq)
      have hnode := loses_node (k := k) (v := .dict (p :: d)) hback (by decide : Silent ['{', '}'])
        (by simp) hmembers
      refine hnode.imp fun hsafe => ⟨hsafe.1, .dict ?_ ?_⟩
      · exact fun q hq hname => (hsafe.2 q hq hname).1
      · exact fun q hq hname => (hsafe.2 q hq hname).2

/-! ## Section 3: The condition is exact -/

theorem harmless_of_strip {v : Val F} (hplain : Plain v) (hv : StringNames (reload v))
    (h : load (strip (written v)) = some (without (reload v))) : Harmless (reload v) := by
  by_contra hnot
  have hloses := losesAt hv 0 none [] (.inl rfl)
  have hfew := hloses.lt fun hsafe => hnot hsafe.2
  have hquotes := quotes_strip (isLine_written (reload v))
    (weighs_lines (reload v) 0 none [] (.inl rfl))
  have hread := strings_le_quotes h
  rw [written_eq_join hplain, hquotes] at hread
  have hzero : quotes (front none) = 0 := rfl
  rw [hzero, Nat.zero_add] at hfew
  exact absurd hread (Nat.not_le.mpr hfew)

/-- The script removes the four members and nothing else exactly from the harmless
    documents. -/
theorem strip_iff {v : Val F} (hplain : Plain v) (hv : StringNames (reload v)) :
    load (strip (written v)) = some (without (reload v)) ↔ Harmless (reload v) :=
  ⟨harmless_of_strip hplain hv, strip_of_harmless hplain hv⟩

end exact

def key (t : String) : Key := .str (Str.ofText t.toList)

/-- A log and a number. -/
def logged : Val Whole := .dict [(key "log", .str (Str.ofText ['x'])), (key "runs", .int 3)]

/-- A member whose value is one of the words. -/
def wordValue : Val Whole := .dict [(key "mode", .str (Str.ofText "log".toList))]

theorem strip_logged :
    load (strip (written logged)) = some (without (reload logged)) ↔ Harmless (reload logged) := by
  have hplain : Plain logged := .dict (by decide) (by decide) (by
    simp only [List.forall_mem_cons]
    exact ⟨.str _, .int 3, by simp⟩)
  have hnames : StringNames logged := .dict (by
    simp only [List.forall_mem_cons]
    exact ⟨fun _ => ⟨_, rfl⟩, fun h => absurd h (by decide), by simp⟩) (by
    simp only [List.forall_mem_cons]
    exact ⟨.str _, .int 3, by simp⟩)
  have hsame : reload logged = logged := rfl
  exact strip_iff hplain (hsame ▸ hnames)

/-- The member is gone, although its name is not one of the four. -/
theorem strip_wordValue : Plain wordValue ∧ StringNames (reload wordValue) ∧
    load (strip (written wordValue)) = some (.dict [] : Val Whole) ∧
    without (reload wordValue) = wordValue ∧
    load (strip (written wordValue)) ≠ some (without (reload wordValue)) := by
  have hplain : Plain wordValue := .dict (by decide) (by decide) (by simpa using .str _)
  have hnames : StringNames wordValue := .dict
    (by simp) (by simpa using .str _)
  have hsame : reload wordValue = wordValue := rfl
  have hread : load (strip (written wordValue)) = some (.dict [] : Val Whole) := rfl
  have hwithout : without (reload wordValue) = wordValue := rfl
  refine ⟨hplain, hsame ▸ hnames, hread, hwithout, ?_⟩
  rw [hread, hwithout]
  simp [wordValue]

end Strip
