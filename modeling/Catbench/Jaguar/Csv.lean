import Catbench.Framework.TextLines
import Catbench.Jaguar.Replace
import Catbench.Jaguar.Tokens

/-! # CSV arrays

    `arrayfromcsv` makes a record of each data line: it converts the cells by
    their types and pairs them with the keys, both by position.

    Neither step compares lengths.  The conversion goes by the cells of the
    line, so it raises on a cell without a type and leaves out a type without a
    cell; `zip` leaves out what has no partner.  And a string cell `-` is
    replaced by what is left of standard input.
    `arrayfromcsv_faithful_iff` says when nothing of that happens.
-/

open Json

namespace Jaguar

variable {F : Type}

/-! ## Section 1: Items -/

/-- The items of a line with as many values as keys. -/
def items (keys : List Text) (vs : List (Val F)) : List (Key × Val F) :=
  (keys.zip vs).map fun p => (.str (Str.ofText p.1), p.2)

theorem keys_items {keys : List Text} {vs : List (Val F)} (hlen : vs.length = keys.length) :
    Dict.keys (items keys vs) = keys.map fun key => Key.str (Str.ofText key) := by
  have hfst : (keys.zip vs).map Prod.fst = keys := List.map_fst_zip (by omega)
  rw [Dict.keys, items, List.map_map]
  conv_rhs => rw [← hfst, List.map_map]
  rfl

theorem nodup_keys_items {keys : List Text} {vs : List (Val F)} (hkeys : keys.Nodup)
    (hlen : vs.length = keys.length) : (Dict.keys (items keys vs)).Nodup := by
  rw [keys_items hlen]
  refine hkeys.map fun a b hab => ?_
  exact Str.ofText_injective (Key.str.inj hab)

/-- The value under a key is the one in its place. -/
theorem lookup_items {keys : List Text} {vs : List (Val F)} {j : ℕ} {key : Text} {v : Val F}
    (hkeys : keys.Nodup) (hlen : vs.length = keys.length) (hkey : keys[j]? = some key)
    (hv : vs[j]? = some v) : (items keys vs).lookup (.str (Str.ofText key)) = some v := by
  apply Dict.lookup_of_mem (nodup_keys_items hkeys hlen)
  apply List.mem_of_getElem? (i := j)
  rw [items, List.getElem?_map, List.getElem?_zip_eq_some (z := (key, v)).mpr ⟨hkey, hv⟩]
  rfl

/-! ## Section 2: Cells -/

variable [FloatFormat F]

/-- What a type makes of a cell: a string cell stays as it is. -/
def conversion (typ : Typ) (t : Text) : Except Exn (Val F) :=
  match typ with
  | .string => .ok (.str (Str.ofText t))
  | typ => (typ.scalar t []).1

/-- The cells that are taken from standard input. -/
def Reads (typ : Typ) (t : Text) : Prop := typ = .string ∧ t = ['-']

instance (typ : Typ) (t : Text) : Decidable (Reads typ t) := inferInstanceAs (Decidable (_ ∧ _))

theorem scalar_of_not_reads {typ : Typ} {t : Text} (h : ¬Reads typ t) (s : Text) :
    (typ.scalar t : Py (Val F)) s = (conversion typ t, s) := by
  cases typ with
  | string =>
    have ht : t ≠ ['-'] := fun ht => h ⟨rfl, ht⟩
    have hpure : (stringorstdin t : Py Text) = pure t := if_pos ht
    rw [Typ.scalar, hpure]
    rfl
  | integer =>
    simp only [conversion, Typ.scalar]
    cases int t <;> rfl
  | fraction =>
    simp only [conversion, Typ.scalar]
    cases (FloatFormat.float t : Option (PyFloat F)) <;> rfl
  | boolean =>
    simp only [conversion, Typ.scalar]
    split_ifs <;> rfl
  | dict =>
    simp only [conversion, Typ.scalar]
    split_ifs <;> rfl
  | array | none_type => rfl

theorem scalar_of_reads {typ : Typ} {t : Text} (h : Reads typ t) (s : Text) :
    (typ.scalar t : Py (Val F)) s = (.ok (.str (Str.ofText s)), []) := by
  obtain ⟨rfl, rfl⟩ := h
  rfl

/-- The standard input that is left when some cells were taken from it. -/
def leftover (n : ℕ) (s : Text) : Text := if n = 0 then s else []

/-- Cells that are taken from standard input keep their text: there are none, or
    it is one, and standard input has the same text. -/
def Keeps (n : ℕ) (s : Text) : Prop := n = 0 ∨ n = 1 ∧ s = ['-']

theorem leftover_add (m n : ℕ) (s : Text) : leftover (m + n) s = leftover n (leftover m s) := by
  unfold leftover
  by_cases hm : m = 0
  · simp [hm]
  · simp [hm]

theorem keeps_add {m n : ℕ} {s : Text} :
    Keeps (m + n) s ↔ Keeps m s ∧ Keeps n (leftover m s) := by
  unfold Keeps leftover
  by_cases hm : m = 0
  · simp [hm]
  · -- Nothing is left for a second one.
    simp only [hm, if_false, false_or, List.nil_eq, reduceCtorEq, and_false, or_false]
    constructor
    · rintro (h | ⟨h, hs⟩)
      · omega
      · exact ⟨⟨by omega, hs⟩, by omega⟩
    · rintro ⟨⟨h, hs⟩, hn⟩
      exact .inr ⟨by omega, hs⟩

/-- How many cells of a line are taken from standard input. -/
def dashes (types : List Typ) (xs : List Text) : ℕ :=
  (types.zip xs).countP fun p => decide (Reads p.1 p.2)

theorem dashes_cons (typ : Typ) (types : List Typ) (x : Text) (xs : List Text) :
    dashes (typ :: types) (x :: xs) = (if Reads typ x then 1 else 0) + dashes types xs := by
  unfold dashes
  rw [List.zip_cons_cons, List.countP_cons, Nat.add_comm]
  simp

/-- Such a cell keeps its text only if standard input has the same. -/
theorem scalar_keeps {typ : Typ} {t s s' : Text} {v : Val F}
    (h : typ.scalar t s = (.ok v, s')) :
    (conversion typ t = .ok v ↔ Keeps (if Reads typ t then 1 else 0) s) ∧
      s' = leftover (if Reads typ t then 1 else 0) s := by
  by_cases hreads : Reads typ t
  · rw [scalar_of_reads hreads, Prod.mk.injEq, Except.ok.injEq] at h
    obtain ⟨rfl, rfl⟩ := h
    obtain ⟨rfl, rfl⟩ := hreads
    rw [if_pos ⟨rfl, rfl⟩, conversion, Except.ok.injEq, Val.str.injEq,
      Str.ofText_injective.eq_iff]
    simp [Keeps, leftover, eq_comm]
  · rw [scalar_of_not_reads hreads, Prod.mk.injEq] at h
    rw [if_neg hreads]
    simp [Keeps, leftover, h.1, h.2]

/-- Each value is the conversion of its cell. -/
def Verbatim (types : List Typ) (xs : List Text) (vs : List (Val F)) : Prop :=
  ∀ (j : ℕ) (typ : Typ) (x : Text) (v : Val F), types[j]? = some typ → xs[j]? = some x →
    vs[j]? = some v → conversion typ x = .ok v

theorem verbatim_cons {typ : Typ} {types : List Typ} {x : Text} {xs : List Text} {v : Val F}
    {vs : List (Val F)} :
    Verbatim (typ :: types) (x :: xs) (v :: vs) ↔
      conversion typ x = .ok v ∧ Verbatim types xs vs := by
  unfold Verbatim
  rw [← Nat.and_forall_add_one]
  simp

theorem convertcells_keeps {types : List Typ} {xs : List Text} {s s' : Text} {vs : List (Val F)}
    (h : convertcells types xs s = (.ok vs, s')) :
    vs.length = xs.length ∧ (Verbatim types xs vs ↔ Keeps (dashes types xs) s) ∧
      s' = leftover (dashes types xs) s := by
  induction types, xs using convertcells.induct generalizing vs s s' with
  | case1 types =>
    rw [convertcells] at h
    obtain ⟨rfl, rfl⟩ := Py.pure_eq_ok.mp h
    simp [Verbatim, dashes, Keeps, leftover]
  -- A cell without a type.
  | case2 x xs => exact absurd h Py.raise_ne_ok
  | case3 typ types x xs ih =>
    rw [convertcells] at h
    obtain ⟨v, s₁, hv, h⟩ := Py.bind_eq_ok.mp h
    obtain ⟨vs', s₂, hvs, h⟩ := Py.bind_eq_ok.mp h
    obtain ⟨rfl, rfl⟩ := Py.pure_eq_ok.mp h
    obtain ⟨hconv, rfl⟩ := scalar_keeps hv
    obtain ⟨hlen, hverbatim, rfl⟩ := ih hvs
    rw [verbatim_cons, dashes_cons, keeps_add, leftover_add, hconv, hverbatim]
    exact ⟨by simp [hlen], Iff.rfl, rfl⟩

/-! ## Section 3: Records -/

/-- A record of a line: an object with exactly the keys, in which the value under
    each key is the conversion of the cell in its place. -/
def Record (keys : List Text) (types : List Typ) (xs : List Text) (v : Val F) : Prop :=
  ∃ d, v = .dict d ∧ (∀ k, k ∈ Dict.keys d ↔ ∃ key ∈ keys, k = .str (Str.ofText key)) ∧
    ∀ (j : ℕ) (key : Text) (typ : Typ) (x : Text), keys[j]? = some key → types[j]? = some typ →
      xs[j]? = some x → ∃ w, d.lookup (.str (Str.ofText key)) = some w ∧ conversion typ x = .ok w

theorem record_iff {keys : List Text} {types : List Typ} {xs : List Text} {vs : List (Val F)}
    (hkeys : keys.Nodup) (hxs : xs.length = keys.length) (hlen : vs.length = xs.length) :
    Record keys types xs (.dict (Dict.ofPairs (items keys vs))) ↔ Verbatim types xs vs := by
  have hvs : vs.length = keys.length := hlen.trans hxs
  rw [Dict.ofPairs_of_nodup (nodup_keys_items hkeys hvs)]
  constructor
  · rintro ⟨d, hd, -, hrecord⟩ j typ x v htyp hx hv
    obtain rfl := Val.dict.inj hd
    obtain ⟨key, hkey⟩ : ∃ key, keys[j]? = some key := by
      have hlt := (List.getElem?_eq_some_iff.mp hv).1
      exact ⟨keys[j], List.getElem?_eq_getElem (hvs ▸ hlt)⟩
    obtain ⟨w, hw, hconv⟩ := hrecord j key typ x hkey htyp hx
    rw [lookup_items hkeys hvs hkey hv, Option.some.injEq] at hw
    rw [hw, hconv]
  · intro hverbatim
    refine ⟨_, rfl, fun k => ?_, fun j key typ x hkey htyp hx => ?_⟩
    · rw [keys_items hvs, List.mem_map]
      simp only [eq_comm]
    · obtain ⟨v, hv⟩ : ∃ v, vs[j]? = some v := by
        have hlt := (List.getElem?_eq_some_iff.mp hx).1
        exact ⟨vs[j], List.getElem?_eq_getElem (hlen ▸ hlt)⟩
      exact ⟨v, lookup_items hkeys hvs hkey hv, hverbatim j typ x v htyp hx hv⟩

/-- The cells of a line as they stand there. -/
def fields (line : Text) : List Text := splitAt (· = ',') line

/-- How many cells of the lines are taken from standard input. -/
def totaldashes (types : List Typ) (data : List Text) : ℕ :=
  (data.map fun line => dashes types (fields line)).sum

theorem packlines_keeps {keys : List Text} {types : List Typ} {data : List Text} {s s' : Text}
    {vs : List (Val F)} (hkeys : keys.Nodup) (hcells : ∀ line ∈ data, cells line = fields line)
    (hlen : ∀ line ∈ data, (fields line).length = keys.length)
    (h : packlines (actuallypackstructured keys) types data s = (.ok vs, s')) :
    List.Forall₂ (fun line v => Record keys types (fields line) v) data vs ↔
      Keeps (totaldashes types data) s := by
  induction data generalizing vs s s' with
  | nil =>
    obtain ⟨rfl, -⟩ := Py.pure_eq_ok.mp h
    simp [totaldashes, Keeps]
  | cons line data ih =>
    rw [packlines, hcells line (by simp)] at h
    obtain ⟨values, s₁, hvalues, h⟩ := Py.bind_eq_ok.mp h
    obtain ⟨v, s₂, hv, h⟩ := Py.bind_eq_ok.mp h
    obtain ⟨vs', s₃, hvs, h⟩ := Py.bind_eq_ok.mp h
    obtain ⟨rfl, -⟩ := Py.pure_eq_ok.mp h
    obtain ⟨rfl, rfl⟩ := Py.pure_eq_ok.mp hv
    obtain ⟨hvlen, hverbatim, rfl⟩ := convertcells_keeps hvalues
    have hrecord : Record keys types (fields line) (.dict (Dict.ofPairs (items keys values))) ↔ _ :=
      record_iff hkeys (hlen line (by simp)) hvlen
    have htail := ih (fun l hl => hcells l (by simp [hl])) (fun l hl => hlen l (by simp [hl])) hvs
    have htotal : totaldashes types (line :: data) =
        dashes types (fields line) + totaldashes types data := rfl
    rw [List.forall₂_cons, htail, htotal, keeps_add, ← hverbatim, ← hrecord]
    rfl

/-! ## Section 4: Texts -/

theorem strip_break (t : Text) : strip isspace (t ++ ['\n']) = strip isspace t := by
  have hbreak : isspace '\n' = true := by decide
  unfold strip
  rw [List.dropWhile_append]
  cases h : t.dropWhile isspace with
  | nil => simp [hbreak]
  | cons c u => simp [hbreak]

/-- A line whose cells have no space around them is not stripped. -/
theorem cells_eq_fields {line : Text} (h : ∀ c ∈ fields line, strip isspace c = c) :
    cells line = fields line := by
  suffices hstrip : strip isspace line = line by
    rw [cells, hstrip, fields]
  unfold fields at h
  simp only [strip_eq_self_iff] at h ⊢
  revert h
  refine splitAt_induction (P := fun line xs =>
    (∀ c ∈ xs, (∀ d ∈ c.head?, isspace d = false) ∧ ∀ d ∈ c.getLast?, isspace d = false) →
      (∀ d ∈ line.head?, isspace d = false) ∧ ∀ d ∈ line.getLast?, isspace d = false) ?_ ?_ line
  · intro t _ h
    exact h t (by simp)
  · intro u c t _ hc ih h
    have hcomma : isspace c = false := by
      rw [of_decide_eq_true hc]
      decide
    obtain ⟨hu, -⟩ := h u (by simp)
    obtain ⟨-, ht⟩ := ih fun v hv => h v (by simp [hv])
    constructor
    · intro d hd
      cases u with
      | nil => rwa [← Option.some.inj hd]
      | cons e u => exact hu d hd
    · intro d hd
      rw [List.getLast?_append, List.getLast?_cons] at hd
      cases hlast : t.getLast? with
      | none =>
        rw [hlast] at hd
        rwa [← Option.some.inj hd]
      | some e =>
        rw [hlast] at hd
        exact ht d (by rwa [hlast])

/-- Each line that is read has its line break, or there was none. -/
theorem readlines_lines (t : Text) :
    List.Forall₂ (fun r l => r = l ∨ r = l ++ ['\n']) (readlines t) (TextLines.lines t) := by
  induction t with
  | nil => exact .nil
  | cons c t ih =>
    by_cases hc : c = '\n'
    · subst hc
      rw [TextLines.lines_break]
      exact .cons (.inr rfl) ih
    · rw [readlines, if_neg hc, TextLines.lines_cons hc]
      generalize readlines t = rs, TextLines.lines t = ls at ih
      cases ih with
      | nil => exact .cons (.inl rfl) .nil
      | cons hline hrest =>
        refine .cons ?_ hrest
        rcases hline with rfl | rfl
        · exact .inl rfl
        · exact .inr rfl

/-- The line break is stripped. -/
theorem cells_readlines (t : Text) : (readlines t).map cells = (TextLines.lines t).map cells := by
  rw [← List.forall₂_eq_eq_eq, List.forall₂_map_left_iff, List.forall₂_map_right_iff]
  refine (readlines_lines t).imp fun r l hrl => ?_
  rcases hrl with rfl | rfl
  · rfl
  · rw [cells, cells, strip_break]

theorem packlines_congr {pack : List (Val F) → Py (Val F)} {types : List Typ} {rs ls : List Text}
    (h : rs.map cells = ls.map cells) : packlines pack types rs = packlines pack types ls := by
  induction rs generalizing ls with
  | nil =>
    cases ls with
    | nil => rfl
    | cons l ls => cases h
  | cons r rs ih =>
    cases ls with
    | nil => cases h
    | cons l ls =>
      obtain ⟨hhead, htail⟩ := List.cons.inj h
      rw [packlines, packlines, hhead, ih htail]

/-! ## Section 5: `arrayfromcsv` -/

/-- The text that a file name stands for, and what is left of standard input. -/
def Given (files : Text → File) (fname stdin t rest : Text) : Prop :=
  fname ≠ ['-'] ∧ files fname = .text t ∧ rest = stdin ∨ fname = ['-'] ∧ stdin = t ∧ rest = []

/-- Every line has as many cells as there are keys. -/
def Rectangular (types : List Typ) (keys : List Text) (data : List Text) : Prop :=
  types.length = keys.length ∧ ∀ line ∈ data, (fields line).length = keys.length

instance (types : List Typ) (keys data : List Text) : Decidable (Rectangular types keys data) :=
  inferInstanceAs (Decidable (_ ∧ _))

/-- The text is a table, and was decoded as one: a record for each data line, in
    order. -/
structure Faithful (types : List Typ) (keys : List Text) (data : List Text) (vs : List (Val F)) :
    Prop where
  rectangular : Rectangular types keys data
  records : List.Forall₂ (fun line v => Record keys types (fields line) v) data vs

theorem csvlines_given {files : Text → File} {fname stdin t rest : Text}
    (h : Given files fname stdin t rest) :
    csvlines files fname stdin = (.ok (readlines t), rest) := by
  unfold csvlines
  rcases h with ⟨hne, hfile, rfl⟩ | ⟨rfl, rfl, rfl⟩
  · rw [if_pos hne, hfile]
    rfl
  · rfl

theorem parse_types_eq {words : List Text} {types : List Typ}
    (h : List.Forall₂ (fun word typ => parse_type word = .ok typ) words types) (s : Text) :
    parse_types words s = (.ok types, s) := by
  induction h with
  | nil => rfl
  | cons hword _ ih =>
    rw [parse_types, Py.bind_ok (Py.ofExcept_eq_ok.mpr ⟨hword, rfl⟩), Py.bind_ok ih]
    rfl

/-- A type word is not stripped. -/
theorem strip_of_parse_type {word : Text} {typ : Typ} (h : parse_type word = .ok typ) :
    strip isspace word = word := by
  unfold parse_type at h
  split_ifs at h with h₁ h₂ h₃ h₄ h₅
  all_goals
    subst word
    decide

/-- What is done with the lines after the header. -/
theorem arrayfromcsv_eq {files : Text → File} {fname stdin t rest : Text} {types : List Typ}
    {header keyline : Text} {data : List Text} (hgiven : Given files fname stdin t rest)
    (hlines : TextLines.lines t = header :: keyline :: data)
    (htypes : List.Forall₂ (fun word typ => parse_type word = .ok typ) (fields header) types) :
    (arrayfromcsv files fname : Py (List (Val F))) stdin =
      if .array ∈ types then (.error .exit, rest)
      else packlines (actuallypackstructured (cells keyline)) types data rest := by
  have hmap := cells_readlines t
  rw [hlines, List.map_cons, List.map_cons] at hmap
  obtain ⟨first, rs, hread, hfirst, hmap⟩ := List.map_eq_cons_iff.mp hmap
  obtain ⟨second, rs, rfl, hsecond, hmap⟩ := List.map_eq_cons_iff.mp hmap
  -- The type words are as they stand in the line, and `unstructured` is none.
  have hheader : cells header = fields header := by
    refine cells_eq_fields fun word hword => ?_
    obtain ⟨i, hi, rfl⟩ := List.getElem_of_mem hword
    exact strip_of_parse_type (htypes.get hi (htypes.length_eq ▸ hi))
  rw [hheader] at hfirst
  have hstructured : strip isspace first ≠ "unstructured".toList := by
    intro heq
    have hword : fields header = ["unstructured".toList] := by
      rw [← hfirst, cells, heq]
      decide
    rw [hword] at htypes
    cases htypes with
    | cons hparse _ => cases hparse
  unfold arrayfromcsv
  rw [Py.bind_ok (csvlines_given hgiven), hread,
    Py.bind_ok (show line (first :: second :: rs) 0 rest = (.ok first, rest) from rfl)]
  simp only [if_neg hstructured]
  rw [Py.bind_ok (show line (first :: second :: rs) 0 rest = (.ok first, rest) from rfl), hfirst,
    Py.bind_ok (parse_types_eq htypes rest)]
  split
  · rfl
  · rw [Py.bind_ok (show line (first :: second :: rs) 1 rest = (.ok second, rest) from rfl),
      hsecond, List.drop_succ_cons, List.drop_succ_cons, List.drop_zero, packlines_congr hmap]

/-- **CSV arrays are decoded faithfully or rejected**, exactly if the text is a
    table, and no string cell is `-`, or there is one and standard input holds
    just that. -/
theorem arrayfromcsv_faithful_iff (files : Text → File) (fname stdin s' t rest : Text)
    (header keyline : Text) (data : List Text) (types : List Typ) (vs : List (Val F))
    (hgiven : Given files fname stdin t rest)
    (hlines : TextLines.lines t = header :: keyline :: data)
    (htypes : List.Forall₂ (fun word typ => parse_type word = .ok typ) (fields header) types)
    (hkeys : (fields keyline).Nodup)
    (htrim : ∀ line ∈ keyline :: data, ∀ x ∈ fields line, strip isspace x = x)
    (hret : arrayfromcsv files fname stdin = (.ok vs, s')) :
    Faithful types (fields keyline) data vs ↔
      Rectangular types (fields keyline) data ∧
        (totaldashes types data = 0 ∨ totaldashes types data = 1 ∧ rest = ['-']) := by
  have hcells : ∀ line ∈ keyline :: data, cells line = fields line := fun line hline =>
    cells_eq_fields (htrim line hline)
  rw [arrayfromcsv_eq hgiven hlines htypes, hcells keyline (by simp)] at hret
  split_ifs at hret with harray
  · cases hret
  have hdata : ∀ line ∈ data, cells line = fields line := fun line hline =>
    hcells line (by simp [hline])
  constructor
  · rintro ⟨hrect, hrecords⟩
    exact ⟨hrect, (packlines_keeps hkeys hdata hrect.2 hret).mp hrecords⟩
  · rintro ⟨hrect, hkeeps⟩
    exact ⟨hrect, (packlines_keeps hkeys hdata hrect.2 hret).mpr hkeeps⟩

/-- A table of two records. -/
def tableText : Text := "string,integer\na,b\nx,1\ny,2\n".toList

/-- A table but for the last line. -/
def shortText : Text := "string,integer\na,b\nx,1\ny\n".toList

theorem arrayfromcsv_faithful_table :
    ∃ vs : List (Val Whole), (arrayfromcsv (fun _ => .missing) ['-'] tableText).1 = .ok vs ∧
      Faithful [.string, .integer] (fields "a,b".toList) ["x,1".toList, "y,2".toList] vs := by
  have hret : arrayfromcsv (F := Whole) (fun _ => .missing) ['-'] tableText = (.ok [
      .dict [(.str (Str.ofText ['a']), .str (Str.ofText ['x'])), (.str (Str.ofText ['b']), .int 1)],
      .dict [(.str (Str.ofText ['a']), .str (Str.ofText ['y'])),
        (.str (Str.ofText ['b']), .int 2)]], []) := by
    rfl
  refine ⟨_, congrArg Prod.fst hret, ?_⟩
  refine (arrayfromcsv_faithful_iff _ _ _ _ tableText [] "string,integer".toList _ _ _ _
    (.inr ⟨rfl, rfl, rfl⟩) ?_ ?_ ?_ ?_ hret).mpr ?_
  · decide
  · exact .cons rfl (.cons rfl .nil)
  · decide
  · decide
  · decide

/-- A line that is too short gives a record with a key less. -/
theorem arrayfromcsv_short_line :
    Given (fun _ => .missing) ['-'] shortText shortText [] ∧
      TextLines.lines shortText =
        ["string,integer".toList, "a,b".toList, "x,1".toList, "y".toList] ∧
      List.Forall₂ (fun word typ => parse_type word = .ok typ) (fields "string,integer".toList)
        [.string, .integer] ∧
      (fields "a,b".toList).Nodup ∧
      (∀ line ∈ ["a,b".toList, "x,1".toList, "y".toList],
        ∀ x ∈ fields line, strip isspace x = x) ∧
      ∃ vs : List (Val Whole), (arrayfromcsv (fun _ => .missing) ['-'] shortText).1 = .ok vs ∧
        ¬Faithful [.string, .integer] (fields "a,b".toList) ["x,1".toList, "y".toList] vs := by
  have hret : arrayfromcsv (F := Whole) (fun _ => .missing) ['-'] shortText = (.ok [
      .dict [(.str (Str.ofText ['a']), .str (Str.ofText ['x'])), (.str (Str.ofText ['b']), .int 1)],
      .dict [(.str (Str.ofText ['a']), .str (Str.ofText ['y']))]], []) := by
    rfl
  refine ⟨.inr ⟨rfl, rfl, rfl⟩, by decide, .cons rfl (.cons rfl .nil), by decide, by decide,
    _, congrArg Prod.fst hret, fun hfaithful => ?_⟩
  have hlen := hfaithful.rectangular.2 "y".toList (by simp)
  revert hlen
  decide

end Jaguar
