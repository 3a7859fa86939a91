import Catbench.Jaguar.Commands

/-! # What a `set` leaves alone

    A successful `set` changes nothing but the element at its path: every other
    path, one that parts from it at an existing array or object, leads to the
    same value afterwards, provided that no element was inserted in front.
-/

open Json

namespace Jaguar

variable {F : Type}

/-! ## Section 1: Paths that part -/

/-- An index is applied to a list within its bounds; its length is the place
    after the last element. -/
def IndexBound : Val F → Key → Prop
  | .list xs, .int i => -(xs.length : ℤ) ≤ i ∧ i ≤ xs.length
  | _, _ => True

/-- Every index of the path is, for the lists that are there and for the ones
    that are created. -/
def InBounds : Val F → List Key → Prop
  | _, [] => True
  | ref, [k] => IndexBound ref k
  | ref, k :: next :: ks => IndexBound ref k ∧ InBounds (descend ref k next) (next :: ks)

/-- Another key, or another element: an index from the end is compared by the
    position that it has. -/
def Parts : Val F → Key → Key → Prop
  | .list xs, .int i, .int j => (if i < 0 then i + xs.length else i) ≠ j
  | _, a, b => a ≠ b

theorem indexBound_of_inBounds {ref c : Val F} {pre prest : List Key} {a : Key}
    (h : InBounds ref (pre ++ a :: prest)) (hc : resolve ref pre = some c) (hcont : Container c) :
    IndexBound c a := by
  induction pre generalizing ref with
  | nil =>
    obtain rfl := Option.some.inj hc
    cases prest with
    | nil => exact h
    | cons next prest => exact h.1
  | cons k pre ih =>
    obtain ⟨v, hv, hc⟩ := resolve_cons.mp hc
    -- The level leads to the container that is there.
    have hcontv := container_of_resolve hc hcont
    obtain ⟨next, ks, heq⟩ : ∃ next ks, pre ++ a :: prest = next :: ks :=
      List.exists_cons_of_ne_nil (by simp)
    rw [List.cons_append, heq] at h
    have hin := h.2
    rw [descend_of_container next hv hcontv, ← heq] at hin
    exact ih hin hc

/-! ## Section 2: One assignment -/

/-- An assignment within the bounds leaves the other elements. -/
theorem getitem_assign_of_parts {ref x ref' u : Val F} {a b : Key}
    (h : elementassignormaybeappend ref a x = .ok ref') (hparts : Parts ref a b)
    (hbound : IndexBound ref a) (hb : ∀ j, b = .int j → 0 ≤ j) (hu : getitem ref b = .ok u) :
    getitem ref' b = .ok u := by
  rcases assign_cases h with ⟨d, rfl, rfl⟩ | ⟨xs, i, n, rfl, rfl, hn, rfl⟩ | ⟨xs, rfl, rfl, rfl⟩ |
    ⟨xs, i, rfl, rfl, hi, rfl⟩
  · rw [getitem_dict] at hu ⊢
    rwa [Dict.lookup_insert_of_ne hparts]
  · -- In place: the two positions differ.
    cases b with
    | str t => cases hu
    | int j =>
      obtain ⟨m, hm, hu⟩ := getitem_list.mp hu
      have hj := hb j rfl
      have hne : (if i < 0 then i + (xs.length : ℤ) else i) ≠ j := hparts
      refine getitem_list.mpr ⟨m, by rwa [List.length_set], ?_⟩
      rw [position_eq_some] at hn hm
      rwa [List.getElem?_set_ne (by split_ifs at hne <;> omega)]
  · -- Appended: an index from the front keeps its position.
    cases b with
    | str t => cases hu
    | int j =>
      obtain ⟨m, hm, hu⟩ := getitem_list.mp hu
      have hj := hb j rfl
      rw [position_eq_some] at hm
      refine getitem_list.mpr ⟨m, ?_, ?_⟩
      · rw [position_eq_some, List.length_append]
        omega
      · rwa [List.getElem?_append_left hm.1]
  · -- An insertion in front is out of bounds.
    have := hbound.1
    omega

/-- The same for what is read back, if the document can be written. -/
theorem getitem_reload_of_parts {ref x ref' u : Val F} {a b : Key} (hplain : Plain ref)
    (hsorts : Sorts ref') (h : elementassignormaybeappend ref a x = .ok ref')
    (hparts : Parts ref a b) (hbound : IndexBound ref a) (hb : ∀ j, b = .int j → 0 ≤ j)
    (hu : getitem ref b = .ok u) : getitem (reload ref') b = .ok (reload u) := by
  -- An index does not go to an object that has `b` already.
  have hstr : ∀ d, ref = .dict d → a.isStr = true := by
    rintro d rfl
    cases a with
    | str s => rfl
    | int i =>
      have hne : d ≠ [] := by
        rintro rfl
        cases hu
      obtain rfl := Except.ok.inj h
      exact absurd hsorts (not_sorts_insert_int hplain.plainKeys hne i x)
  rw [getitem_reload (plainKeys_assign hplain.plainKeys hstr h),
    getitem_assign_of_parts h hparts hbound hb hu]
  rfl

/-! ## Section 3: The whole path -/

theorem Puts.exists_assign {v ref ref' : Val F} {k : Key} {ks : List Key}
    (h : Puts v ref (k :: ks) ref') : ∃ x, elementassignormaybeappend ref k x = .ok ref' := by
  cases h with
  | last hassign _ => exact ⟨v, hassign⟩
  | level _ _ hassign _ => exact ⟨_, hassign⟩

/-- What is put at a path leaves the paths that part from it. -/
theorem Puts.resolve_of_parts {v ref ref' c w : Val F} {pre prest qrest : List Key} {a b : Key}
    (h : Puts v ref (pre ++ a :: prest) ref') (hplain : Plain ref) (hsorts : Sorts ref')
    (hc : resolve ref pre = some c) (hcont : Container c) (hparts : Parts c a b)
    (hbound : IndexBound c a) (hb : ∀ j, b = .int j → 0 ≤ j)
    (hw : resolve c (b :: qrest) = some w) :
    resolve (reload ref') (pre ++ b :: qrest) = some (reload w) := by
  -- Down the common part of the paths, and then one assignment.
  induction pre generalizing ref ref' with
  | nil =>
    obtain rfl := Option.some.inj hc
    obtain ⟨x, hassign⟩ := h.exists_assign
    obtain ⟨u, hu, hw⟩ := resolve_cons.mp hw
    refine resolve_cons.mpr ⟨reload u, ?_, ?_⟩
    · exact getitem_reload_of_parts hplain hsorts hassign hparts hbound hb hu
    · rw [resolve_reload (plain_getitem hplain hu), hw]
      rfl
  | cons k pre ih =>
    obtain ⟨u, hu, hc⟩ := resolve_cons.mp hc
    obtain ⟨next, ks, heq⟩ : ∃ next ks, pre ++ a :: prest = next :: ks :=
      List.exists_cons_of_ne_nil (by simp)
    rw [List.cons_append, heq] at h
    cases h with
    | @level _ inner _ _ _ _ hkind hinner hassign hget =>
      -- The common part exists, so nothing was created on it.
      rw [descend_of_container next hu (container_of_resolve hc hcont), ← heq] at hinner
      have hkeys := plainKeys_assign hplain.plainKeys (isStr_of_kind hplain.plainKeys hkind) hassign
      refine resolve_cons.mpr ⟨reload inner, ?_, ?_⟩
      · rw [getitem_reload hkeys, hget]
        rfl
      · exact ih hinner (plain_getitem hplain hu) (sorts_getitem hsorts hget) hc

/-! ## Section 4: `set` -/

section main

variable [FloatFormat F] (files : Text → File)

/-- **Frame of `set`.**  The path `q` parts from the path `p` of a successful `set`
    at the container `c`, and led to `w`.  If `p` stays within the bounds of the
    lists on its way, `q` leads to the same value afterwards. -/
theorem set_frame (stdin stdin' fname p q : Text) (args : List Text) (doc c w : Val F)
    (pre prest qrest : List Key) (a b : Key) (hdoc : read_document (files fname) = some doc)
    (hp : pathsubscripts p = some (pre ++ a :: prest))
    (hq : pathsubscripts q = some (pre ++ b :: qrest))
    (hnonneg : ∀ i, Key.int i ∈ pre ++ b :: qrest → 0 ≤ i)
    (hc : resolve doc pre = some c) (hcont : Container c) (hparts : Parts c a b)
    (hbounds : InBounds doc (pre ++ a :: prest)) (hw : get doc q = .ok w)
    (hset : (main (F := F) files stdin ("set".toList :: fname :: p :: args)).success = true) :
    ∃ w', main (main (F := F) files stdin ("set".toList :: fname :: p :: args)).files stdin'
          ["get".toList, fname, q] =
        { success := true
          files := (main (F := F) files stdin ("set".toList :: fname :: p :: args)).files
          printed := some w' } ∧ Same w' w := by
  obtain ⟨doc', s', hset', hsorts, hread⟩ := main_set_success files hdoc hset
  obtain ⟨val, typ, hreplace⟩ := set_replaces files hset'
  obtain ⟨t, v, hreplaced⟩ := replace_levels_eq_ok hp (splitAt_ne_nil _ _) hreplace
  have hplain := plain_of_read hdoc
  -- `q` from the container on.
  have hw' : resolve c (b :: qrest) = some w := by
    obtain ⟨ks, hks, hw⟩ := get_eq_ok.mp hw
    obtain rfl := Option.some.inj (hq.symm.trans hks)
    obtain ⟨c', hc', hw⟩ := resolve_append.mp hw
    obtain rfl := Option.some.inj (hc.symm.trans hc')
    exact hw
  have hb : ∀ j, b = .int j → 0 ≤ j := by
    rintro j rfl
    exact hnonneg j (by simp)
  have hresolve := hreplaced.puts.resolve_of_parts hplain hsorts hc hcont hparts
    (indexBound_of_inBounds hbounds hc hcont) hb hw'
  refine ⟨reload w, (get_prints _ hread).mpr ⟨_, hq, hresolve⟩, ?_⟩
  exact (plain_resolve (plain_resolve hplain hc) hw').same_reload

end main

/-- An object with one member, an array of two numbers. -/
def pairMember : Val Whole := .dict [(.str (Str.ofText ['a']), .list [.int 1, .int 2])]

theorem set_frame_element :
    ∃ w', main (main (F := Whole) (fileOf ['f'] pairMember) []
          ["set".toList, ['f'], "a[0]".toList, ['7']]).files []
          ["get".toList, ['f'], "a[1]".toList] =
        { success := true
          files := (main (F := Whole) (fileOf ['f'] pairMember) []
            ["set".toList, ['f'], "a[0]".toList, ['7']]).files
          printed := some w' } ∧ Same w' (.int 2 : Val Whole) := by
  have hdone : (dump pairMember).done = true := by decide
  have hdoc : read_document (fileOf ['f'] pairMember ['f']) = some pairMember := load_dump hdone
  have hbounds : InBounds pairMember [.str (Str.ofText ['a']), .int 0] := by
    simp [InBounds, IndexBound, descend, pairMember, getitem, Container, is_list, is_dict]
  have hget : get pairMember "a[1]".toList = .ok (.int 2) :=
    get_eq_ok.mpr ⟨[.str (Str.ofText ['a']), .int 1], by decide, by rfl⟩
  exact set_frame _ [] [] ['f'] "a[0]".toList "a[1]".toList [['7']] pairMember
    (.list [.int 1, .int 2]) (.int 2) [.str (Str.ofText ['a'])] [] [] (.int 0) (.int 1) hdoc
    (by decide) (by decide) (by simp) (by rfl) (by rfl) (by simp [Parts])
    hbounds hget (by decide)

end Jaguar
