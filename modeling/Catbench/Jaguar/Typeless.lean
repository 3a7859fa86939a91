import Catbench.Jaguar.Commands
import Catbench.Jaguar.Tokens

/-! # `set` without a type word

    Without a type word, `set` takes the type of the element that is there, and
    the handlers that create elements have no type to go by.  A success
    therefore exchanges one value for another of its kind (`typeless_shape_iff`),
    unless the path ends in the token `]`: that appends to an array, also where
    it follows a dot.
-/

open Json

namespace Jaguar

variable {F : Type}

/-! ## Section 1: Documents that differ at a path -/

/-- `doc'` is `doc` with `new` at the end of the path, which leads through
    objects and arrays; nothing else is added, removed, moved or changed. -/
inductive DiffersAt (new : Val F) : Val F → List Key → Val F → Prop where
  | here (old : Val F) : DiffersAt new old [] new
  | member {d e : List (Key × Val F)} {k : Key} {u w : Val F} {ks : List Key}
      (hold : d.lookup k = some u) (hnew : e.lookup k = some w)
      (hkeys : ∀ k', k' ∈ Dict.keys e ↔ k' ∈ Dict.keys d)
      (hothers : ∀ (k' : Key) (x y : Val F), k' ≠ k → d.lookup k' = some x →
        e.lookup k' = some y → Same y x)
      (h : DiffersAt new u ks w) : DiffersAt new (.dict d) (k :: ks) (.dict e)
  | element {xs ys : List (Val F)} {i : ℤ} {n : ℕ} {u w : Val F} {ks : List Key}
      (hn : position xs.length i = some n) (hold : xs[n]? = some u) (hnew : ys[n]? = some w)
      (hlen : ys.length = xs.length)
      (hothers : ∀ (m : ℕ) (x y : Val F), m ≠ n → xs[m]? = some x → ys[m]? = some y → Same y x)
      (h : DiffersAt new u ks w) : DiffersAt new (.list xs) (.int i :: ks) (.list ys)

/-- The path led to a value other than null, and leads to one of its kind; the
    document differs there only. -/
def KeepsShape (doc : Val F) (path : Text) (doc' : Val F) : Prop :=
  ∃ ks old new, pathsubscripts path = some ks ∧ resolve doc ks = some old ∧ old ≠ .null ∧
    filtered_type new = filtered_type old ∧ DiffersAt new doc ks doc'

/-- One assignment to an element that is there, and what is read back. -/
theorem DiffersAt.assign {new ref ref' u w : Val F} {k : Key} {ks : List Key} (hplain : Plain ref)
    (hu : getitem ref k = .ok u) (hassign : elementassignormaybeappend ref k w = .ok ref')
    (h : DiffersAt new u ks (reload w)) : DiffersAt new ref (k :: ks) (reload ref') := by
  rcases getitem_cases hu with ⟨d, rfl, hold⟩ | ⟨xs, i, n, rfl, rfl, hn, hold⟩ | ⟨s, t, rfl, -⟩
  · obtain rfl := Except.ok.inj hassign
    have hkeys := plainKeys_assign hplain.plainKeys
      (Puts.isStr_of_kind hplain.plainKeys (.inl ⟨u, hu⟩)) hassign
    obtain ⟨e, he, hlookup⟩ := reload_dict hkeys
    rw [he]
    refine .member hold ?_ ?_ ?_ h
    · rw [hlookup, Dict.lookup_insert_self]
      rfl
    · intro k'
      have hmem := Dict.mem_keys_of_mem (Dict.mem_of_lookup hold)
      rw [← not_iff_not, ← Dict.lookup_eq_none, hlookup, Option.map_eq_none_iff,
        Dict.lookup_eq_none, Dict.keys_insert, if_pos hmem]
    · intro k' x y hne hx hy
      rw [hlookup, Dict.lookup_insert_of_ne (Ne.symm hne), hx, Option.map_some,
        Option.some.injEq] at hy
      rw [← hy]
      exact (plain_getitem hplain (getitem_dict.mpr hx)).same_reload
  · have hset := Except.ok.inj ((assign_of_setitem (setitem_list hn w)).symm.trans hassign)
    rw [← hset, reload, reloadList_eq_map]
    have hlt := (position_eq_some.mp hn).1
    refine .element hn hold ?_ ?_ ?_ h
    · rw [List.getElem?_map, List.getElem?_set_self hlt]
      rfl
    · rw [List.length_map, List.length_set]
    · intro m x y hne hx hy
      rw [List.getElem?_map, List.getElem?_set_ne (Ne.symm hne), hx, Option.map_some,
        Option.some.injEq] at hy
      rw [← hy]
      cases hplain with
      | list hall => exact (hall x (List.mem_of_getElem? hx)).same_reload
  -- A character is not assigned.
  · cases hassign

/-! ## Section 2: The inferred type -/

theorem filtered_type_reload (v : Val F) : filtered_type (reload v) = filtered_type v := by
  cases v <;> rw [reload] <;> rfl

section replace

variable [FloatFormat F] {files : Text → File} {replace : Text}

/-- A conversion gives a value of its own type. -/
theorem kind_of_call {typ : Typ} {t s s' : Text} {v : Val F}
    (h : typ.call files t s = (.ok v, s')) : typ ≠ .none_type ∧ filtered_type v = typ := by
  cases typ with
  | string =>
    obtain ⟨u, s₁, -, h⟩ := Py.bind_eq_ok.mp h
    obtain ⟨rfl, -⟩ := Py.pure_eq_ok.mp h
    exact ⟨by simp, rfl⟩
  | integer =>
    simp only [Typ.call, Typ.scalar] at h
    cases hz : int t with
    | some z =>
      rw [hz] at h
      obtain ⟨rfl, -⟩ := Py.pure_eq_ok.mp h
      exact ⟨by simp, rfl⟩
    | none =>
      rw [hz] at h
      exact absurd h Py.raise_ne_ok
  | fraction =>
    simp only [Typ.call, Typ.scalar] at h
    cases hx : (FloatFormat.float t : Option (PyFloat F)) with
    | some x =>
      rw [hx] at h
      obtain ⟨rfl, -⟩ := Py.pure_eq_ok.mp h
      exact ⟨by simp, rfl⟩
    | none =>
      rw [hx] at h
      exact absurd h Py.raise_ne_ok
  | boolean =>
    simp only [Typ.call, Typ.scalar] at h
    split_ifs at h
    · obtain ⟨rfl, -⟩ := Py.pure_eq_ok.mp h
      exact ⟨by simp, rfl⟩
    · obtain ⟨rfl, -⟩ := Py.pure_eq_ok.mp h
      exact ⟨by simp, rfl⟩
    · exact absurd h Py.raise_ne_ok
  | dict =>
    simp only [Typ.call, Typ.scalar] at h
    split_ifs at h
    · obtain ⟨rfl, -⟩ := Py.pure_eq_ok.mp h
      exact ⟨by simp, rfl⟩
    · exact absurd h Py.raise_ne_ok
  | array =>
    obtain ⟨xs, s₁, -, h⟩ := Py.bind_eq_ok.mp h
    obtain ⟨rfl, -⟩ := Py.pure_eq_ok.mp h
    exact ⟨by simp, rfl⟩
  | none_type => exact absurd h Py.raise_ne_ok

/-- Without a type, a well-formed path leads to an element whose type is taken,
    and every level on the way was there. -/
theorem typeless_levels {first : Bool} {ref ref' : Val F} {levels : List Text} {ks : List Key}
    {s s' : Text} (hplain : Plain ref) (hks : subscripts levels = some ks) (hne : levels ≠ [])
    (h : replace_levels files replace first none ref levels s = (.ok ref', s')) :
    ∃ old new, resolve ref ks = some old ∧ old ≠ .null ∧
      filtered_type new = filtered_type old ∧ DiffersAt new ref ks (reload ref') := by
  induction levels generalizing first ref ref' ks with
  | nil => exact absurd rfl hne
  | cons level levels ih =>
    obtain ⟨k, ks', hk, hks', rfl⟩ := subscripts_cons.mp hks
    cases levels with
    | nil =>
      obtain rfl := Option.some.inj hks'
      rw [replace_levels, hk] at h
      obtain ⟨t, v, ⟨⟨s₁, s₂, hcall, -⟩, hinferred, hputs⟩⟩ := replaced_assign_last h
      rcases hinferred with hsome | ⟨-, old, hold, rfl⟩
      · cases hsome
      · obtain ⟨hnone, hkind⟩ := kind_of_call hcall
        obtain ⟨u, hu, hu'⟩ := resolve_cons.mp hold
        obtain rfl := Option.some.inj hu'
        refine ⟨u, reload v, hold, ?_, ?_, ?_⟩
        · rintro rfl
          exact hnone rfl
        · rw [filtered_type_reload, hkind]
        · cases hputs with
          | last hassign _ => exact .assign hplain hu hassign (.here u)
    | cons next levels =>
      obtain ⟨knext, ks, hnext, -, rfl⟩ := subscripts_cons.mp hks'
      obtain ⟨inner, hinner, hway, hassign, hget⟩ := replace_levels_cons hk hnext h
      rcases hway with hway | ⟨-, hsome⟩
      · obtain ⟨old, new, hold, hnull, hkind, hdiffers⟩ :=
          ih (plain_getitem hplain hway) hks' (by simp) hinner
        exact ⟨old, new, resolve_cons.mpr ⟨_, hway, hold⟩, hnull, hkind,
          .assign hplain hway hassign hdiffers⟩
      · exact absurd rfl hsome

end replace

/-! ## Section 3: `set` -/

section main

variable [FloatFormat F] (files : Text → File)

/-- **`set` without a type word keeps the shape of the document**, exactly if the
    path is not the token `]` and does not end in one after a dot. -/
theorem typeless_shape_iff (stdin fname path val : Text) (doc : Val F)
    (hdoc : read_document (files fname) = some doc) (hpath : ¬['[', ']'] <:+ path)
    (hset : (main (F := F) files stdin ["set".toList, fname, path, val]).success = true) :
    (∃ doc', read_document
        ((main (F := F) files stdin ["set".toList, fname, path, val]).files fname) = some doc' ∧
      KeepsShape doc path doc') ↔ path ≠ [']'] ∧ ¬['.', ']'] <:+ path := by
  obtain ⟨save, s', hset', hsorts, hread⟩ := main_set_success files hdoc hset
  have hreplace : replace_levels files val true none doc (subscriptsfrompath path) stdin =
      (.ok save, s') := hset'
  have hplain := plain_of_read hdoc
  rw [hread]
  constructor
  · rintro ⟨doc', -, ks, old, new, hks, -⟩
    -- The append token would leave the path without subscripts.
    have hlast : (subscriptsfrompath path).getLast? ≠ some [']'] := fun hlast => by
      rw [pathsubscripts, subscripts_of_append hlast] at hks
      cases hks
    rw [Ne, append_token_iff, not_or, not_or] at hlast
    exact ⟨hlast.1, hlast.2.1⟩
  · rintro ⟨hne, hdot⟩
    refine ⟨reload save, rfl, ?_⟩
    cases hks : pathsubscripts path with
    | none => 
      have hlast := (append_of_subscripts hks hreplace).1
      rcases append_token_iff.mp hlast with h | h | h
      · exact absurd h hne
      · exact absurd h hdot
      · exact absurd h hpath
    | some ks =>
      obtain ⟨old, new, hold, hnull, hkind, hdiffers⟩ :=
        typeless_levels hplain hks (splitAt_ne_nil _ _) hreplace
      exact ⟨ks, old, new, hks, hold, hnull, hkind, hdiffers⟩

end main

/-- An object with one member, an empty array. -/
def arrayMember : Val Whole := .dict [(.str (Str.ofText ['a']), .list [])]

theorem typeless_shape_member :
    (∃ doc', read_document
        ((main (F := Whole) (fileOf ['f'] arrayMember) "integer\nk\n5\n".toList
          ["set".toList, ['f'], ['a'], ['-']]).files ['f']) = some doc' ∧
      KeepsShape arrayMember ['a'] doc') := by
  have hdone : (dump arrayMember).done = true := by decide
  have hdoc : read_document (fileOf ['f'] arrayMember ['f']) = some arrayMember := load_dump hdone
  exact (typeless_shape_iff _ _ ['f'] ['a'] ['-'] arrayMember hdoc (by decide)
    (by decide +kernel)).mpr (by decide)

/-- After a dot the append token is taken as well, and adds an element. -/
theorem typeless_appends_after_dot :
    (read_document (fileOf ['f'] arrayMember ['f']) = some arrayMember ∧
      ¬['[', ']'] <:+ "a.]".toList ∧
      (main (F := Whole) (fileOf ['f'] arrayMember) "integer\nk\n5\n".toList
        ["set".toList, ['f'], "a.]".toList, ['-']]).success = true) ∧
    ¬∃ doc', read_document
        ((main (F := Whole) (fileOf ['f'] arrayMember) "integer\nk\n5\n".toList
          ["set".toList, ['f'], "a.]".toList, ['-']]).files ['f']) = some doc' ∧
      KeepsShape arrayMember "a.]".toList doc' := by
  have hdone : (dump arrayMember).done = true := by decide
  refine ⟨⟨load_dump hdone, by decide, by decide +kernel⟩, ?_⟩
  rintro ⟨doc', -, ks, old, new, hks, -⟩
  have hnone : pathsubscripts "a.]".toList = none := by decide
  rw [hnone] at hks
  cases hks

end Jaguar
