import Catbench.Jaguar.Intact
import Catbench.Jaguar.Retry

/-! # `set` at an index

    An index within the bounds of an array replaces, the length of the array
    appends, and what lies beyond is refused.  Below the bounds there is no
    check: `elementassignormaybeappend` inserts in front, and the lookup that
    follows finds the element if the index is one below the bounds.  That is the
    one index at which `set` should fail and does not (`set_index_iff`).
-/

open Json

namespace Jaguar

variable {F : Type}

/-! ## Section 1: The parent -/

/-- What is put at a path is assigned to its parent. -/
theorem Puts.resolve_parent {v ref ref' c : Val F} {pre : List Key} {k : Key}
    (h : Puts v ref (pre ++ [k]) ref') (hc : resolve ref pre = some c) (hcont : Container c) :
    ∃ c', resolve ref' pre = some c' ∧ elementassignormaybeappend c k v = .ok c' ∧
      getitem c' k = .ok v := by
  induction pre generalizing ref ref' with
  | nil =>
    obtain rfl := Option.some.inj hc
    cases h with
    | last hassign hget => exact ⟨ref', rfl, hassign, hget⟩
  | cons k₀ pre ih =>
    obtain ⟨u, hu, hc⟩ := resolve_cons.mp hc
    obtain ⟨next, ks, heq⟩ : ∃ next ks, pre ++ [k] = next :: ks :=
      List.exists_cons_of_ne_nil (by simp)
    rw [List.cons_append, heq] at h
    cases h with
    | @level _ inner _ _ _ _ _ hinner _ hget =>
      rw [descend_of_container next hu (container_of_resolve hc hcont), ← heq] at hinner
      obtain ⟨c', hc', hassign, hget'⟩ := ih hinner hc
      exact ⟨c', resolve_cons.mpr ⟨inner, hget, hc'⟩, hassign, hget'⟩

theorem not_misplaced_of_list {doc : Val F} {pre : List Key} {i : ℤ} {xs : List (Val F)}
    (hc : resolve doc pre = some (.list xs)) (d : List (Key × Val F)) :
    ¬Misplaced doc (pre ++ [.int i]) d := by
  rintro ⟨pre', j, heq, hpre⟩
  obtain ⟨rfl, -⟩ := List.append_inj' heq rfl
  rw [hc] at hpre
  cases hpre

/-- The indices at which an element of an array is assigned and then found: one
    below the bounds is among them. -/
theorem index_of_assign {xs : List (Val F)} {c v : Val F} {i : ℤ}
    (hassign : elementassignormaybeappend (.list xs) (.int i) v = .ok c)
    (hget : getitem c (.int i) = .ok v) : -(xs.length + 1 : ℤ) ≤ i ∧ i ≤ xs.length := by
  rcases assign_cases hassign with ⟨d, hd, -⟩ | ⟨ys, j, n, hys, hj, hn, -⟩ | ⟨ys, hys, hj, -⟩ |
    ⟨ys, j, hys, hj, hlt, rfl⟩
  · cases hd
  · cases hys
    cases hj
    rw [position_eq_some] at hn
    omega
  · cases hys
    cases hj
    omega
  · cases hys
    cases hj
    obtain ⟨m, hm, -⟩ := getitem_list.mp hget
    rw [position_eq_some, List.length_cons] at hm
    omega

section replace

variable [FloatFormat F] {files : Text → File} {replace : Text}

/-- Without a first conversion that succeeds there is no second. -/
theorem convert_last_call {first : Bool} {t : Typ} {ref ref' : Val F} {k : Key} {s s' : Text}
    (h : convert_last files replace first t ref k s = (.ok ref', s')) :
    ∃ v : Val F, (t.call files replace s).1 = .ok v := by
  unfold convert_last at h
  obtain ⟨res, s₁, hres, h⟩ := Py.bind_eq_ok.mp h
  rw [Py.attempt_eq_ok] at hres
  cases res with
  | ok v => exact ⟨v, congrArg Prod.fst hres⟩
  | error e =>
    cases e with
    | lookup_error =>
      obtain ⟨-, t', v, s₂, ht, hcall, -⟩ := add_entry_eq_ok h
      obtain rfl := Option.some.inj ht
      exact absurd hcall (call_fails_again hres)
    | value_error | type_error | exit => exact absurd h Py.raise_ne_ok

theorem replace_levels_call {first : Bool} {t : Typ} {ref ref' : Val F} {levels : List Text}
    {ks : List Key} {s s' : Text} (hks : subscripts levels = some ks) (hne : levels ≠ [])
    (h : replace_levels files replace first (some t) ref levels s = (.ok ref', s')) :
    ∃ v : Val F, (t.call files replace s).1 = .ok v := by
  induction levels generalizing first ref ref' ks with
  | nil => exact absurd rfl hne
  | cons level levels ih =>
    obtain ⟨k, ks', hk, hks', rfl⟩ := subscripts_cons.mp hks
    cases levels with
    | nil =>
      rw [replace_levels, hk] at h
      exact convert_last_call h
    | cons next levels =>
      obtain ⟨ref₁, inner, inner', -, -, hinner, -⟩ := (replace_levels_level hk).mp h
      exact ih hks' (by simp) hinner

end replace

/-! ## Section 2: `set` -/

/-- The command succeeds, and the array at the path has these elements. -/
def LeavesArray [FloatFormat F] (out : Outcome F) (fname : Text) (pre : List Key)
    (ys : List (Val F)) : Prop :=
  out.success = true ∧ ∃ (doc' : Val F) (zs : List (Val F)),
    read_document (out.files fname) = some doc' ∧ resolve doc' pre = some (.list zs) ∧
    Same (.list zs) (.list ys)

/-- The command fails, and no file is changed. -/
def Refuses (files : Text → File) (out : Outcome F) : Prop :=
  out.success = false ∧ out.files = files

/-- How a `set` of the value `res` at the index `i` of the array `xs` should end. -/
structure IndexSemantics [FloatFormat F] (files : Text → File) (out : Outcome F) (fname : Text)
    (pre : List Key) (xs : List (Val F)) (i : ℤ) (res : Except Exn (Val F)) : Prop where
  replaced : ∀ (n : ℕ) (v : Val F), res = .ok v → n < xs.length → i = n ∨ i + xs.length = n →
    LeavesArray out fname pre (xs.set n v)
  appended : ∀ v, res = .ok v → i = xs.length → LeavesArray out fname pre (xs ++ [v])
  beyond : i < -(xs.length : ℤ) ∨ (xs.length : ℤ) < i → Refuses files out
  unconverted : (∀ v, res ≠ .ok v) → Refuses files out

section main

variable [FloatFormat F] (files : Text → File)

/-- A value that is converted, assigned, and found. -/
theorem set_leaves {stdin fname p word val : Text} {doc v : Val F} {pre : List Key}
    {xs ys : List (Val F)} {i : ℤ} {typ : Typ} (hdoc : read_document (files fname) = some doc)
    (hp : pathsubscripts p = some (pre ++ [.int i])) (hc : resolve doc pre = some (.list xs))
    (hword : parse_type word = .ok typ) (hcall : (typ.call files val stdin).1 = .ok v)
    (hassign : elementassignormaybeappend (.list xs) (.int i) v = .ok (.list ys))
    (hget : getitem (.list ys) (.int i) = .ok v) :
    LeavesArray (main files stdin ["set".toList, fname, p, word, val]) fname pre ys := by
  have hplain := plain_of_read hdoc
  obtain ⟨save, hreplace, hres⟩ : ∃ save, replace_levels files val true (some typ) doc
      (subscriptsfrompath p) stdin = (.ok save, (typ.call (F := F) files val stdin).2) ∧ _ :=
    replace_levels_assign hp hc rfl (Prod.ext hcall rfl) hassign hget
  obtain ⟨t, w, hreplaced⟩ := replace_levels_eq_ok hp (splitAt_ne_nil _ _) hreplace
  obtain ⟨s₁, s₂, hcall', -⟩ := hreplaced.call
  have hsave := hreplaced.puts.plain hplain (plain_call hcall') (not_misplaced_of_list hc)
  have hset : (set files doc [p, word, val] stdin).1 = .ok save := by
    rw [set, hword]
    exact congrArg Prod.fst hreplace
  rw [main_set files stdin fname _ hdoc, hset]
  refine ⟨success_of_plain files fname hsave, reload save, reloadList ys, ?_, ?_, ?_⟩
  · exact read_written files fname hsave.sorts
  · rw [resolve_reload hsave, hres, Option.map_some, reload]
  · have hys := (plain_resolve hsave hres).same_reload
    rwa [reload] at hys

/-- Without a success the file is left alone. -/
theorem set_refuses {stdin fname p word val : Text} {doc : Val F} {pre : List Key}
    {xs : List (Val F)} {i : ℤ} (hdoc : read_document (files fname) = some doc)
    (hp : pathsubscripts p = some (pre ++ [.int i])) (hc : resolve doc pre = some (.list xs))
    (hfails : (main (F := F) files stdin ["set".toList, fname, p, word, val]).success ≠ true) :
    Refuses files (main (F := F) files stdin ["set".toList, fname, p, word, val]) := by
  refine ⟨by simpa using hfails, ?_⟩
  rcases main_cases (F := F) files stdin "set".toList fname [p, word, val] with
    hfiles | hsuccess | ⟨-, key, word', val', hargs, typ, -, -, doc', hdoc', d, -, ks, hks, hmis⟩
  · exact hfiles
  · exact absurd hsuccess hfails
  -- The parent is no object.
  · cases hargs
    obtain rfl := Option.some.inj (hdoc.symm.trans hdoc')
    obtain rfl := Option.some.inj (hp.symm.trans hks)
    exact absurd hmis (not_misplaced_of_list hc d)

/-- A success converted the value at first, and found it at the index. -/
theorem set_index_success {stdin fname p word val : Text} {doc : Val F} {pre : List Key}
    {xs : List (Val F)} {i : ℤ} {typ : Typ} (hdoc : read_document (files fname) = some doc)
    (hp : pathsubscripts p = some (pre ++ [.int i])) (hc : resolve doc pre = some (.list xs))
    (hword : parse_type word = .ok typ)
    (hset : (main (F := F) files stdin ["set".toList, fname, p, word, val]).success = true) :
    (∃ v : Val F, (typ.call files val stdin).1 = .ok v) ∧
      -(xs.length + 1 : ℤ) ≤ i ∧ i ≤ xs.length := by
  obtain ⟨save, s', hset', -, -⟩ := main_set_success files hdoc hset
  have hreplace : replace_levels files val true (some typ) doc (subscriptsfrompath p) stdin =
      (.ok save, s') := by
    rw [set, hword] at hset'
    exact hset'
  obtain ⟨t, v, hreplaced⟩ := replace_levels_eq_ok hp (splitAt_ne_nil _ _) hreplace
  obtain ⟨c', -, hassign, hget⟩ := hreplaced.puts.resolve_parent hc rfl
  exact ⟨replace_levels_call hp (splitAt_ne_nil _ _) hreplace, index_of_assign hassign hget⟩

/-- **A typed `set` at an index of an array** replaces within the bounds, appends
    at the length and refuses the rest, exactly if the index is not one below the
    bounds, or the value cannot be converted. -/
theorem set_index_iff (stdin fname p word val : Text) (doc : Val F) (pre : List Key)
    (xs : List (Val F)) (i : ℤ) (typ : Typ) (hdoc : read_document (files fname) = some doc)
    (hp : pathsubscripts p = some (pre ++ [.int i])) (hc : resolve doc pre = some (.list xs))
    (hword : parse_type word = .ok typ) :
    IndexSemantics files (main files stdin ["set".toList, fname, p, word, val]) fname pre xs i
        (typ.call files val stdin).1 ↔
      (i = -(xs.length + 1 : ℤ) → ∀ v : Val F, (typ.call files val stdin).1 ≠ .ok v) := by
  constructor
  · rintro ⟨-, -, hbeyond, -⟩ hi v hcall
    -- The element that was inserted in front is found.
    have hnone : position xs.length i = none := position_eq_none.mpr (.inr (by omega))
    have hlen : ¬(xs.length : ℤ) < i := by omega
    have hneg : i < 0 := by omega
    have hassign : elementassignormaybeappend (.list xs) (.int i) v = .ok (.list (v :: xs)) := by
      simp [elementassignormaybeappend, setitem, hnone, hlen, hneg]
    have hn : position (v :: xs).length i = some 0 := by
      rw [position_eq_some, List.length_cons]
      omega
    have hget : getitem (.list (v :: xs)) (.int i) = .ok v := getitem_list.mpr ⟨0, hn, rfl⟩
    obtain ⟨hsuccess, -⟩ := set_leaves files hdoc hp hc hword hcall hassign hget
    rw [(hbeyond (.inl (by omega))).1] at hsuccess
    cases hsuccess
  · intro hcond
    refine ⟨fun n v hcall hlt hi => ?_, fun v hcall hi => ?_, fun hi => ?_, fun hcall => ?_⟩
    · have hn : position xs.length i = some n := position_eq_some.mpr ⟨hlt, hi⟩
      have hset := setitem_list hn v
      exact set_leaves files hdoc hp hc hword hcall (assign_of_setitem hset) (getitem_setitem hset)
    · have hnone : position xs.length i = none := position_eq_none.mpr (.inl (by omega))
      have hlen : ¬(xs.length : ℤ) < i := by omega
      have hneg : ¬i < 0 := by omega
      have hassign : elementassignormaybeappend (.list xs) (.int i) v = .ok (.list (xs ++ [v])) := by
        simp [elementassignormaybeappend, setitem, hnone, hlen, hneg]
      have hn : position (xs ++ [v]).length i = some xs.length := by
        rw [position_eq_some, List.length_append, List.length_singleton]
        omega
      refine set_leaves files hdoc hp hc hword hcall hassign (getitem_list.mpr ⟨_, hn, ?_⟩)
      simp
    · refine set_refuses files hdoc hp hc fun hsuccess => ?_
      obtain ⟨⟨v, hcall⟩, hlow, hhigh⟩ := set_index_success files hdoc hp hc hword hsuccess
      exact hcond (by omega) v hcall
    · refine set_refuses files hdoc hp hc fun hsuccess => ?_
      obtain ⟨⟨v, hv⟩, -⟩ := set_index_success files hdoc hp hc hword hsuccess
      exact hcall v hv

end main

/-- An object with one member, an array of one number. -/
def singleMember : Val Whole := .dict [(.str (Str.ofText ['a']), .list [.int 1])]

theorem set_index_member :
    IndexSemantics (fileOf ['f'] singleMember)
      (main (F := Whole) (fileOf ['f'] singleMember) []
        ["set".toList, ['f'], "a[-1]".toList, "string".toList, ['x']]) ['f']
      [.str (Str.ofText ['a'])] [.int 1] (-1)
      (Typ.string.call (fileOf ['f'] singleMember) ['x'] []).1 := by
  have hdone : (dump singleMember).done = true := by decide
  have hdoc : read_document (fileOf ['f'] singleMember ['f']) = some singleMember := load_dump hdone
  exact (set_index_iff _ [] ['f'] "a[-1]".toList "string".toList ['x'] singleMember
    [.str (Str.ofText ['a'])] [.int 1] (-1) .string hdoc (by decide) rfl rfl).mpr (by simp)

/-- `-2` is one below the bounds of one element, and is not refused. -/
theorem set_index_below :
    read_document (fileOf ['f'] singleMember ['f']) = some singleMember ∧
      pathsubscripts "a[-2]".toList = some ([.str (Str.ofText ['a'])] ++ [.int (-2)]) ∧
      resolve singleMember [.str (Str.ofText ['a'])] = some (.list [.int 1]) ∧
      ¬IndexSemantics (fileOf ['f'] singleMember)
        (main (F := Whole) (fileOf ['f'] singleMember) []
          ["set".toList, ['f'], "a[-2]".toList, "string".toList, ['x']]) ['f']
        [.str (Str.ofText ['a'])] [.int 1] (-2)
        (Typ.string.call (fileOf ['f'] singleMember) ['x'] []).1 := by
  have hdone : (dump singleMember).done = true := by decide
  refine ⟨load_dump hdone, by decide, rfl, fun hsem => ?_⟩
  have hfails := (hsem.beyond (.inl (by simp))).1
  revert hfails
  decide

end Jaguar
