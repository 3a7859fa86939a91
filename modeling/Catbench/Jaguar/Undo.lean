import Catbench.Jaguar.Frame

/-! # `set`, then `rem`

    A `set` that created one element, a member of an object or an element of an
    array, is undone by `rem` on the same path: an index that appended is that of
    the last element afterwards, and the one index that inserts in front is that
    of the first (`rem_undoes_set`).
-/

open Json

namespace Jaguar

variable {F : Type}

/-! ## Section 1: One element -/

/-- A key for an object, an index for an array. -/
def Fits : Val F → Key → Prop
  | .dict _, .str _ => True
  | .list _, .int _ => True
  | _, _ => False

theorem Fits.container {ref : Val F} {k : Key} (h : Fits ref k) : Container ref := by
  cases ref with
  | dict d => rfl
  | list xs => rfl
  | null | bool b | int z | float x | str s => exact h.elim

theorem delitem_list {xs : List (Val F)} {i : ℤ} {n : ℕ} (h : position xs.length i = some n) :
    delitem (.list xs) (.int i) = .ok (.list (xs.eraseIdx n)) := by
  rw [delitem, h]

/-- What was assigned where there was nothing is removed again, from the document
    that is read back. -/
theorem delitem_of_assign {ref ref' v : Val F} {k : Key} (hplain : Plain ref) (hfits : Fits ref k)
    (hnone : ∀ w, getitem ref k ≠ .ok w) (hassign : elementassignormaybeappend ref k v = .ok ref')
    (hget : getitem ref' k = .ok v) :
    ∃ ref'', delitem (reload ref') k = .ok ref'' ∧ Same ref'' ref := by
  rcases assign_cases hassign with ⟨d, rfl, rfl⟩ | ⟨xs, i, n, rfl, rfl, hn, rfl⟩ |
    ⟨xs, rfl, rfl, rfl⟩ | ⟨xs, i, rfl, rfl, hi, rfl⟩
  · have hstr : ∀ e, (.dict d : Val F) = .dict e → k.isStr = true := by
      intro e _
      cases k with
      | str s => rfl
      | int i => exact hfits.elim
    obtain ⟨e, he, hlookup⟩ := reload_dict (plainKeys_assign hplain.plainKeys hstr hassign)
    have hmem : k ∈ Dict.keys e := by
      by_contra hmem
      rw [← Dict.lookup_eq_none, hlookup, Dict.lookup_insert_self] at hmem
      cases hmem
    rw [he, delitem, if_pos hmem]
    refine ⟨_, rfl, .of_lookup fun k' => ?_⟩
    by_cases hk : k = k'
    · subst hk
      refine .inl ⟨Dict.lookup_erase_self k e, ?_⟩
      cases hd : d.lookup k with
      | none => rfl
      | some w => exact absurd (getitem_dict.mpr hd) (hnone w)
    · rw [Dict.lookup_erase_of_ne hk, hlookup, Dict.lookup_insert_of_ne hk]
      cases hd : d.lookup k' with
      | none => exact .inl ⟨rfl, rfl⟩
      | some w => exact .inr ⟨_, w, rfl, rfl, (plain_getitem hplain (getitem_dict.mpr hd)).same_reload⟩
  · have hlt := (position_eq_some.mp hn).1
    exact absurd (getitem_list.mpr ⟨n, hn, List.getElem?_eq_getElem hlt⟩) (hnone xs[n])
  · -- The new element is the last of `length + 1`.
    have hn : position (reloadList (xs ++ [v])).length xs.length = some xs.length := by
      rw [reloadList_eq_map, position_eq_some, List.length_map, List.length_append]
      simp
    refine ⟨reload (.list xs), ?_, hplain.same_reload⟩
    rw [reload, delitem_list hn, reload, reloadList_eq_map, reloadList_eq_map, List.map_append,
      List.eraseIdx_append_of_length_le (by simp)]
    simp
  · -- The index finds the new element only if it is that of the first.
    obtain ⟨m, hm, -⟩ := getitem_list.mp hget
    rw [position_eq_some, List.length_cons] at hm
    have hn : position (reloadList (v :: xs)).length i = some 0 := by
      rw [reloadList_eq_map, position_eq_some, List.length_map, List.length_cons]
      omega
    refine ⟨reload (.list xs), ?_, hplain.same_reload⟩
    rw [reload, delitem_list hn, reload, reloadList, List.eraseIdx_cons_zero]

/-! ## Section 2: The whole path -/

/-- An element exchanged for an equal one, in a document that was read back. -/
theorem setitem_same {ref ref' u w del : Val F} {k : Key} (hplain : Plain ref)
    (hu : getitem ref k = .ok u) (hcont : Container u)
    (hassign : elementassignormaybeappend ref k w = .ok ref') (hsame : Same del u) :
    ∃ ref'', setitem (reload ref') k del = .ok ref'' ∧ Same ref'' ref := by
  rcases getitem_cases hu with ⟨d, rfl, hd⟩ | ⟨xs, i, n, rfl, rfl, hn, hx⟩ | ⟨s, t, -, rfl⟩
  · have hkeys := plainKeys_assign hplain.plainKeys
      (Puts.isStr_of_kind hplain.plainKeys (.inl ⟨u, hu⟩)) hassign
    obtain rfl := Except.ok.inj hassign
    obtain ⟨e, he, hlookup⟩ := reload_dict hkeys
    rw [he]
    refine ⟨_, rfl, .of_lookup fun k' => ?_⟩
    by_cases hk : k = k'
    · subst hk
      exact .inr ⟨del, u, Dict.lookup_insert_self k del e, hd, hsame⟩
    · rw [Dict.lookup_insert_of_ne hk, hlookup, Dict.lookup_insert_of_ne hk]
      cases hd' : d.lookup k' with
      | none => exact .inl ⟨rfl, rfl⟩
      | some x =>
        have hx := plain_getitem hplain (getitem_dict.mpr hd')
        exact .inr ⟨reload x, x, rfl, rfl, hx.same_reload⟩
  · have hset := Except.ok.inj ((assign_of_setitem (setitem_list hn w)).symm.trans hassign)
    have hn' : position (reloadList (xs.set n w)).length i = some n := by
      rwa [reloadList_eq_map, List.length_map, List.length_set]
    rw [← hset, reload, setitem_list hn']
    refine ⟨_, rfl, .list ?_ fun m x y hmx hmy => ?_⟩
    · rw [List.length_set, reloadList_eq_map, List.length_map, List.length_set]
    · rw [reloadList_eq_map, List.map_set, List.set_set, List.getElem?_set] at hmx
      split_ifs at hmx with hmn hlt
      · subst hmn
        obtain rfl := Option.some.inj hmx
        obtain rfl := Option.some.inj (hx.symm.trans hmy)
        exact hsame
      · rw [List.getElem?_map, hmy, Option.map_some, Option.some.injEq] at hmx
        rw [← hmx]
        cases hplain with
        | list hall => exact (hall y (List.mem_of_getElem? hmy)).same_reload
  · cases hcont

/-- What was put where the parent was, but not the element, is removed again. -/
theorem delete_levels_of_puts {ref ref' c v : Val F} {levels : List Text} {pre : List Key} {k : Key}
    (hplain : Plain ref) (hks : subscripts levels = some (pre ++ [k]))
    (hc : resolve ref pre = some c) (hfits : Fits c k) (hnone : ∀ w, getitem c k ≠ .ok w)
    (hputs : Puts v ref (pre ++ [k]) ref') :
    ∃ ref'', delete_levels (reload ref') levels = .ok ref'' ∧ Same ref'' ref := by
  induction pre generalizing ref ref' levels with
  | nil =>
    obtain rfl := Option.some.inj hc
    obtain ⟨level, rfl, hk⟩ := subscripts_eq_singleton hks
    rw [delete_levels, hk]
    cases hputs with
    | last hassign hget => exact delitem_of_assign hplain hfits hnone hassign hget
  | cons k₀ pre ih =>
    obtain ⟨u, hu, hc⟩ := resolve_cons.mp hc
    have hcont : Container u := container_of_resolve hc (hfits.container)
    obtain ⟨next, ks, heq⟩ : ∃ next ks, pre ++ [k] = next :: ks :=
      List.exists_cons_of_ne_nil (by simp)
    rw [List.cons_append] at hks hputs
    rw [heq] at hputs
    cases hputs with
    | @level _ inner _ _ _ _ hkind hinner hassign hget =>
      rw [descend_of_container next hu hcont, ← heq] at hinner
      cases levels with
      | nil => cases hks
      | cons level levels =>
        obtain ⟨k', ks', hk, hks', hcons⟩ := subscripts_cons.mp hks
        obtain ⟨rfl, rfl⟩ := List.cons.inj hcons
        -- What is there below the level, with the element removed again.
        obtain ⟨del, hdel, hsame⟩ := ih (plain_getitem hplain hu) hks' hc hinner
        have hkeys := plainKeys_assign hplain.plainKeys
          (Puts.isStr_of_kind hplain.plainKeys hkind) hassign
        have hinner' : getitem (reload ref') k₀ = .ok (reload inner) := by
          rw [getitem_reload hkeys, hget]
          rfl
        cases levels with
        | nil =>
          rw [heq] at hks'
          cases hks'
        | cons next levels =>
          rw [delete_levels, hk]
          dsimp only
          rw [hinner']
          dsimp only
          rw [hdel]
          exact setitem_same hplain hu hcont hassign hsame

/-! ## Section 3: `rem` -/

section main

variable [FloatFormat F] (files : Text → File)

/-- **`rem` undoes a `set` that created one element.**  The path does not lead
    anywhere, but its parent is an object or an array that its last subscript
    fits; after a successful `set`, `rem` gives the document back. -/
theorem rem_undoes_set (stdin stdin' fname p word val : Text) (doc c : Val F) (pre : List Key)
    (k : Key) (hdoc : read_document (files fname) = some doc)
    (hp : pathsubscripts p = some (pre ++ [k])) (hc : resolve doc pre = some c) (hfits : Fits c k)
    (hnone : resolve doc (pre ++ [k]) = none)
    (hset : (main (F := F) files stdin ["set".toList, fname, p, word, val]).success = true) :
    (main (F := F) (main (F := F) files stdin ["set".toList, fname, p, word, val]).files stdin'
        ["rem".toList, fname, p]).success = true ∧
      ∃ doc', read_document ((main (F := F)
          (main (F := F) files stdin ["set".toList, fname, p, word, val]).files stdin'
          ["rem".toList, fname, p]).files fname) = some doc' ∧ Same doc' doc := by
  obtain ⟨save, s', hset', hsorts, hread⟩ := main_set_success files hdoc hset
  obtain ⟨val, typ, hreplace⟩ := set_replaces files hset'
  obtain ⟨t, v, hreplaced⟩ := replace_levels_eq_ok hp (splitAt_ne_nil _ _) hreplace
  have hplain := plain_of_read hdoc
  have hnone' : ∀ w, getitem c k ≠ .ok w := by
    intro w hw
    rw [resolve_append.mpr ⟨c, hc, resolve_cons.mpr ⟨w, hw, rfl⟩⟩] at hnone
    cases hnone
  obtain ⟨del, hdel, hsame⟩ := delete_levels_of_puts hplain hp hc hfits hnone' hreplaced.puts
  have hrem : rem (reload save) p = .ok del := hdel
  have hdelplain : Plain del := plain_delete_levels (plain_of_read hread) hdel
  rw [main_rem _ stdin' fname p hread, hrem]
  refine ⟨(write_document_success _ fname del).mpr hdelplain.sorts, reload del, ?_, ?_⟩
  · exact read_written _ fname hdelplain.sorts
  · exact hdelplain.same_reload.trans hsame

end main

/-- `-3` inserts in front of the two elements, and is the first of three. -/
theorem rem_undoes_set_front :
    (main (F := Whole) (main (F := Whole) (fileOf ['f'] pairMember) []
        ["set".toList, ['f'], "a[-3]".toList, "string".toList, ['x']]).files []
        ["rem".toList, ['f'], "a[-3]".toList]).success = true ∧
      ∃ doc', read_document ((main (F := Whole)
          (main (F := Whole) (fileOf ['f'] pairMember) []
            ["set".toList, ['f'], "a[-3]".toList, "string".toList, ['x']]).files []
          ["rem".toList, ['f'], "a[-3]".toList]).files ['f']) = some doc' ∧
        Same doc' pairMember := by
  have hdone : (dump pairMember).done = true := by decide
  have hdoc : read_document (fileOf ['f'] pairMember ['f']) = some pairMember := load_dump hdone
  exact rem_undoes_set _ [] [] ['f'] "a[-3]".toList "string".toList ['x'] pairMember
    (.list [.int 1, .int 2]) [.str (Str.ofText ['a'])] (.int (-3)) hdoc (by decide) (by rfl)
    trivial (by rfl) (by decide)

end Jaguar
