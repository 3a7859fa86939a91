import Catbench.Jaguar.Tokens

/-! # Zeros for missing results (`network_rtt`)

    Before a series is stored, `perl -pe 's/,,/,0,/g; s/,,/,0,/g'` is to put a
    zero into each empty field of its rows, because `jaguar` cannot convert an
    empty cell.  The matches of one substitution do not overlap, so of a run of
    empty fields it fills every other one, and the second one fills the rest.

    Rows are read as `arrayfromcsv` reads them.
-/

open Json (FloatFormat Val)
open Jaguar

namespace NetworkRtt

/-! ## Section 1: Model -/

/-- `s/,,/,0,/g`. -/
def fill_gaps : Text → Text
  | ',' :: ',' :: t => ',' :: '0' :: ',' :: fill_gaps t
  | c :: t => c :: fill_gaps t
  | [] => []

/-- What is stored for a row. -/
def stored_row (row : Text) : Text := fill_gaps (fill_gaps row)

/-- The fields of a row. -/
def fields (row : Text) : List Text := splitAt (· = ',') row

/-- A zero for an empty field. -/
def zeroed (field : Text) : Text := if field = [] then ['0'] else field

/-- `jaguar` converts the cell to a fraction. -/
def Convertible (F : Type) [FloatFormat F] (cell : Text) : Prop :=
  ∃ v : Val F, ∀ stdin, Typ.fraction.scalar cell stdin = (.ok v, stdin)

/-- A row is stored with a zero in each empty field and the others as they are,
    so that all cells can be converted if the nonempty ones can. -/
structure Filled (row : Text) : Prop where
  fields_eq : fields (stored_row row) = (fields row).map zeroed
  convertible : ∀ (F : Type) [FloatFormat F], Convertible F ['0'] →
    (∀ field ∈ fields row, field ≠ [] → Convertible F field) →
    ∀ cell ∈ fields (stored_row row), Convertible F cell

/-! ## Section 2: Two substitutions -/

/-- All gaps at once. -/
def close_gaps : Text → Text
  | ',' :: ',' :: t => ',' :: '0' :: close_gaps (',' :: t)
  | c :: t => c :: close_gaps t
  | [] => []

theorem fill_gaps_cons {c : Char} (hc : c ≠ ',') (t : Text) :
    fill_gaps (c :: t) = c :: fill_gaps t := by
  rw [fill_gaps]
  intro u h
  exact absurd h hc

theorem fill_gaps_comma {c : Char} (hc : c ≠ ',') (t : Text) :
    fill_gaps (',' :: c :: t) = ',' :: c :: fill_gaps t := by
  rw [fill_gaps, fill_gaps_cons hc]
  intro u _ h
  exact absurd (List.cons.inj h).1 hc

theorem close_gaps_cons {c : Char} (hc : c ≠ ',') (t : Text) :
    close_gaps (c :: t) = c :: close_gaps t := by
  rw [close_gaps]
  intro u h
  exact absurd h hc

theorem close_gaps_comma {c : Char} (hc : c ≠ ',') (t : Text) :
    close_gaps (',' :: c :: t) = ',' :: c :: close_gaps t := by
  rw [close_gaps, close_gaps_cons hc]
  intro u _ h
  exact absurd (List.cons.inj h).1 hc

/-- The second substitution closes the gaps that the first one leaves, also
    the one that begins with a comma before its result. -/
theorem fill_gaps_twice (n : ℕ) (t : Text) (hn : t.length ≤ n) :
    fill_gaps (fill_gaps t) = close_gaps t ∧
      fill_gaps (',' :: fill_gaps t) = close_gaps (',' :: t) := by
  induction n generalizing t with
  | zero =>
    rw [List.length_eq_zero_iff.mp (Nat.le_zero.mp hn)]
    exact ⟨rfl, rfl⟩
  | succ n ih =>
    cases t with
    | nil => exact ⟨rfl, rfl⟩
    | cons c t =>
      rw [List.length_cons] at hn
      have ht := ih t (by omega)
      by_cases hc : c = ','
      · subst hc
        cases t with
        | nil => exact ⟨rfl, rfl⟩
        | cons d u =>
          rw [List.length_cons] at hn
          have hu := ih u (by omega)
          by_cases hd : d = ','
          · -- a gap: what follows it begins with the comma that was consumed
            subst hd
            constructor
            · rw [fill_gaps, close_gaps, fill_gaps_comma (by decide), hu.2]
            · rw [fill_gaps, fill_gaps, fill_gaps_cons (by decide), close_gaps, close_gaps, hu.2]
          · constructor
            · rw [fill_gaps_comma hd, fill_gaps_comma hd, close_gaps_comma hd, hu.1]
            · rw [fill_gaps_comma hd, fill_gaps, fill_gaps_cons hd, close_gaps,
                close_gaps_comma hd, hu.1]
      · rw [fill_gaps_cons hc, fill_gaps_cons hc, fill_gaps_comma hc, close_gaps_cons hc,
          close_gaps_comma hc, ht.1]
        exact ⟨rfl, rfl⟩

theorem stored_row_eq (row : Text) : stored_row row = close_gaps row :=
  (fill_gaps_twice row.length row (Nat.le_refl _)).1

/-! ## Section 3: Fields -/

/-- Zeros in all fields but the last one. -/
def zeroed_front : List Text → List Text
  | [] => []
  | [field] => [field]
  | field :: next :: rest => zeroed field :: zeroed_front (next :: rest)

theorem fields_comma (t : Text) : fields (',' :: t) = [] :: fields t :=
  splitAt_cons_of_sep (by decide) t

theorem fields_cons {c : Char} (hc : c ≠ ',') {t field : Text} {rest : List Text}
    (h : fields t = field :: rest) : fields (c :: t) = (c :: field) :: rest := by
  unfold fields at h ⊢
  rw [splitAt, if_neg (by simpa using hc), h]

/-- Closing the gaps changes the fields between the first and the last one. -/
theorem fields_close_gaps (n : ℕ) (t : Text) (hn : t.length ≤ n) :
    ∃ field rest, fields t = field :: rest ∧
      fields (close_gaps t) = field :: zeroed_front rest := by
  induction n generalizing t with
  | zero =>
    rw [List.length_eq_zero_iff.mp (Nat.le_zero.mp hn)]
    exact ⟨[], [], rfl, rfl⟩
  | succ n ih =>
    cases t with
    | nil => exact ⟨[], [], rfl, rfl⟩
    | cons c t =>
      rw [List.length_cons] at hn
      obtain ⟨field, rest, ht, hclosed⟩ := ih t (by omega)
      by_cases hc : c = ','
      · subst hc
        refine ⟨[], field :: rest, by rw [fields_comma, ht], ?_⟩
        cases t with
        | nil =>
          cases ht
          rfl
        | cons d u =>
          by_cases hd : d = ','
          · -- a gap: the empty field before `u` gets its zero
            subst hd
            rw [fields_comma] at ht
            obtain ⟨rfl, rfl⟩ := List.cons.inj ht
            rw [close_gaps, fields_comma, fields_cons (by decide) hclosed]
            obtain ⟨next, more, hu⟩ := List.exists_cons_of_ne_nil (splitAt_ne_nil (· = ',') u)
            rw [show fields u = next :: more from hu]
            rfl
          · rw [close_gaps_comma hd, ← close_gaps_cons hd, fields_comma, hclosed]
            -- the field is not empty, so there is nothing to fill
            have hfield : zeroed field = field := by
              obtain ⟨next, more, hu⟩ := List.exists_cons_of_ne_nil (splitAt_ne_nil (· = ',') u)
              rw [fields_cons hd hu] at ht
              rw [← (List.cons.inj ht).1]
              rfl
            cases rest with
            | nil => rfl
            | cons next more => rw [zeroed_front, hfield]
      · refine ⟨c :: field, rest, fields_cons hc ht, ?_⟩
        rw [close_gaps_cons hc, fields_cons hc hclosed]

theorem zeroed_eq_self {field : Text} : field = zeroed field ↔ field ≠ [] := by
  unfold zeroed
  constructor
  · intro h hnil
    rw [if_pos hnil] at h
    rw [hnil] at h
    cases h
  · intro h
    rw [if_neg h]

/-- Only an empty last field makes a difference. -/
theorem zeroed_front_eq_map {rest : List Text} :
    zeroed_front rest = rest.map zeroed ↔ rest.getLast? ≠ some [] := by
  induction rest with
  | nil => simp [zeroed_front]
  | cons field rest ih =>
    cases rest with
    | nil =>
      rw [zeroed_front, List.map_cons, List.map_nil, List.cons.injEq, eq_self, and_true,
        zeroed_eq_self, List.getLast?_singleton]
      exact (not_congr (Option.some_inj)).symm
    | cons next rest =>
      rw [zeroed_front, List.map_cons, List.cons.injEq, eq_self, true_and, ih,
        List.getLast?_cons_cons]

/-! ## Section 4: Rows -/

theorem first_field_empty {row field : Text} {rest : List Text} (h : fields row = field :: rest) :
    field = [] ↔ row = [] ∨ row.head? = some ',' := by
  cases row with
  | nil =>
    cases h
    simp
  | cons c t =>
    by_cases hc : c = ','
    · subst hc
      rw [fields_comma] at h
      simp [(List.cons.inj h).1.symm]
    · obtain ⟨next, more, ht⟩ := List.exists_cons_of_ne_nil (splitAt_ne_nil (· = ',') t)
      rw [fields_cons hc ht] at h
      rw [← (List.cons.inj h).1]
      simp [hc]

theorem last_field_empty (row : Text) :
    (fields row).getLast? = some [] ↔ row = [] ∨ row.getLast? = some ',' := by
  unfold fields
  rw [getLast?_splitAt (by simp)]
  constructor
  · intro h
    rcases h with h | ⟨c, hc, front, rfl⟩
    · exact Or.inl h
    · right
      rw [List.getLast?_concat, of_decide_eq_true hc]
  · intro h
    rcases h with h | h
    · exact Or.inl h
    · right
      obtain ⟨front, rfl⟩ := List.getLast?_eq_some_iff.mp h
      exact ⟨',', by decide, front, rfl⟩

/-- A row whose ends are not empty has zeros in all its empty fields. -/
theorem fields_stored_row_iff (row : Text) :
    fields (stored_row row) = (fields row).map zeroed ↔
      row ≠ [] ∧ row.head? ≠ some ',' ∧ row.getLast? ≠ some ',' := by
  obtain ⟨field, rest, hrow, hclosed⟩ := fields_close_gaps row.length row (Nat.le_refl _)
  have hfirst := first_field_empty hrow
  have hlast := last_field_empty row
  rw [stored_row_eq, hclosed, hrow, List.map_cons, List.cons.injEq, zeroed_eq_self,
    zeroed_front_eq_map, Ne, hfirst, not_or]
  rw [hrow] at hlast
  cases rest with
  | nil =>
    -- a single field, which is the first and the last one
    rw [List.getLast?_singleton, Option.some.injEq] at hlast
    have hone : (row = [] ∨ row.head? = some ',') ↔ (row = [] ∨ row.getLast? = some ',') :=
      hfirst.symm.trans hlast
    rw [List.getLast?_nil]
    constructor
    · intro h
      have hno : ¬(row = [] ∨ row.getLast? = some ',') := fun hor => (hone.mpr hor).elim h.1.1 h.1.2
      exact ⟨h.1.1, h.1.2, fun hl => hno (Or.inr hl)⟩
    · intro h
      exact ⟨⟨h.1, h.2.1⟩, Option.some_ne_none [] ∘ Eq.symm⟩
  | cons next rest =>
    rw [List.getLast?_cons_cons] at hlast
    rw [Ne, hlast, not_or]
    constructor
    · intro h
      exact ⟨h.1.1, h.1.2, h.2.2⟩
    · intro h
      exact ⟨⟨h.1, h.2.1⟩, h.1, h.2.2⟩

/-- **Zeros**: a row is stored with a zero in each of its empty fields iff it
    neither begins nor ends with an empty field. -/
theorem filled_iff (row : Text) :
    Filled row ↔ row ≠ [] ∧ row.head? ≠ some ',' ∧ row.getLast? ≠ some ',' := by
  rw [← fields_stored_row_iff]
  constructor
  · intro h
    exact h.fields_eq
  · intro h
    refine ⟨h, ?_⟩
    intro F _ hzero hfields cell hcell
    rw [h] at hcell
    obtain ⟨field, hfield, rfl⟩ := List.mem_map.mp hcell
    unfold zeroed
    split
    · exact hzero
    · next hne => exact hfields field hfield hne

/-- Nothing is known of the bandwidth: the row ends with its comma. -/
theorem filled_fails_at_end : ¬Filled "4,1.5,,0.25,".toList := by
  intro h
  exact absurd ((fields_stored_row_iff _).mp h.fields_eq).2.2 (by decide)

end NetworkRtt
