import Catbench.Jaguar.Model

/-! # Elements and assignments

    The meaning of a path is a list of subscripts, and the element at them
    (`resolve`); `get` computes it (`get_eq_ok`).  An assignment to a subscript
    replaces an entry or an element, appends, or inserts in front
    (`assign_cases`).  A document that was written and read again has the same
    element at every path (`resolve_reload`).
-/

open Json

namespace Jaguar

variable {F : Type}

/-! ## Section 1: What a path denotes -/

/-- The subscripts of the tokens, if all of them are well-formed. -/
def subscripts : List Text → Option (List Key)
  | [] => some []
  | level :: levels =>
    match indexfromsubscript level with
    | .error _ => none
    | .ok k => (subscripts levels).map (k :: ·)

def pathsubscripts (path : Text) : Option (List Key) := subscripts (subscriptsfrompath path)

/-- The element at some subscripts. -/
def resolve (ref : Val F) : List Key → Option (Val F)
  | [] => some ref
  | k :: ks =>
    match getitem ref k with
    | .ok v => resolve v ks
    | .error _ => none

theorem subscripts_cons {level : Text} {levels : List Text} {ks : List Key} :
    subscripts (level :: levels) = some ks ↔
      ∃ k ks', indexfromsubscript level = .ok k ∧ subscripts levels = some ks' ∧ ks = k :: ks' := by
  rw [subscripts]
  cases hk : indexfromsubscript level with
  | error e => simp
  | ok k =>
    rw [Option.map_eq_some_iff]
    constructor
    · rintro ⟨ks', hks', rfl⟩
      exact ⟨k, ks', rfl, hks', rfl⟩
    · rintro ⟨k', ks', hk', hks', rfl⟩
      obtain rfl := Except.ok.inj hk'
      exact ⟨ks', hks', rfl⟩

theorem subscripts_eq_singleton {levels : List Text} {k : Key} (h : subscripts levels = some [k]) :
    ∃ level, levels = [level] ∧ indexfromsubscript level = .ok k := by
  cases levels with
  | nil => cases h
  | cons level levels =>
    obtain ⟨k', ks, hk, hks, heq⟩ := subscripts_cons.mp h
    obtain ⟨rfl, rfl⟩ := List.cons.inj heq
    cases levels with
    | nil => exact ⟨level, rfl, hk⟩
    | cons next levels =>
      obtain ⟨k'', ks, -, -, hcons⟩ := subscripts_cons.mp hks
      cases hcons

/-- The tokens of a path with a last subscript. -/
theorem subscripts_eq_append {levels : List Text} {ks : List Key} {k : Key}
    (h : subscripts levels = some (ks ++ [k])) :
    ∃ ts last, levels = ts ++ [last] ∧ subscripts ts = some ks ∧
      indexfromsubscript last = .ok k := by
  induction ks generalizing levels with
  | nil =>
    obtain ⟨last, rfl, hk⟩ := subscripts_eq_singleton h
    exact ⟨[], last, rfl, rfl, hk⟩
  | cons k₀ ks ih =>
    cases levels with
    | nil => cases h
    | cons level levels =>
      obtain ⟨k', ks', hk', hks', heq⟩ := subscripts_cons.mp h
      obtain ⟨rfl, rfl⟩ := List.cons.inj heq
      obtain ⟨ts, last, rfl, hts, hlast⟩ := ih hks'
      exact ⟨level :: ts, last, rfl, subscripts_cons.mpr ⟨_, _, hk', hts, rfl⟩, hlast⟩

theorem resolve_cons {ref w : Val F} {k : Key} {ks : List Key} :
    resolve ref (k :: ks) = some w ↔ ∃ v, getitem ref k = .ok v ∧ resolve v ks = some w := by
  rw [resolve]
  cases getitem ref k with
  | error e => simp
  | ok v => simp

theorem lookup_levels_eq_ok {ref v : Val F} {levels : List Text} :
    lookup_levels ref levels = .ok v ↔
      ∃ ks, subscripts levels = some ks ∧ resolve ref ks = some v := by
  -- Level by level: an ill-formed token and a missing element both end it.
  induction levels generalizing ref with
  | nil => simp [lookup_levels, subscripts, resolve]
  | cons level levels ih =>
    simp only [subscripts_cons]
    rw [lookup_levels]
    cases hk : indexfromsubscript level with
    | error e => simp
    | ok k =>
      cases hv : getitem ref k with
      | error e => simp [resolve, hv]
      | ok u => simp [ih, resolve, hv]

theorem resolve_append {ref w : Val F} {ks ks' : List Key} :
    resolve ref (ks ++ ks') = some w ↔ ∃ v, resolve ref ks = some v ∧ resolve v ks' = some w := by
  induction ks generalizing ref with
  | nil => simp [resolve]
  | cons k ks ih =>
    rw [List.cons_append, resolve_cons]
    constructor
    · rintro ⟨u, hu, h⟩
      obtain ⟨v, hv, hw⟩ := ih.mp h
      exact ⟨v, resolve_cons.mpr ⟨u, hu, hv⟩, hw⟩
    · rintro ⟨v, hv, hw⟩
      obtain ⟨u, hu, hv⟩ := resolve_cons.mp hv
      exact ⟨u, hu, ih.mpr ⟨v, hv, hw⟩⟩

/-- `get` prints the element that the path denotes. -/
theorem get_eq_ok {doc v : Val F} {path : Text} :
    get doc path = .ok v ↔ ∃ ks, pathsubscripts path = some ks ∧ resolve doc ks = some v :=
  lookup_levels_eq_ok

/-- Characters of a string are strings. -/
theorem resolve_str {s : Str} {ks : List Key} {w : Val F} (h : resolve (.str s) ks = some w) :
    ∃ t, w = .str t := by
  induction ks generalizing s with
  | nil => exact ⟨s, (Option.some.inj h).symm⟩
  | cons k ks ih =>
    obtain ⟨v, hv, h⟩ := resolve_cons.mp h
    unfold getitem at hv
    split at hv <;> try simp at hv
    · next heq => cases heq
    · next heq => cases heq
    · split at hv
      · obtain rfl := Except.ok.inj hv
        exact ih h
      · cases hv

/-! ## Section 2: Positions -/

theorem position_eq_some {length n : ℕ} {i : ℤ} :
    position length i = some n ↔ n < length ∧ (i = n ∨ i + length = n) := by
  unfold position
  split_ifs with h₁ h₂
  · simp only [Option.some.injEq]
    omega
  · simp only [Option.some.injEq]
    omega
  · simp only [false_iff]
    omega

theorem position_eq_none {length : ℕ} {i : ℤ} :
    position length i = none ↔ (length : ℤ) ≤ i ∨ i < -(length : ℤ) := by
  unfold position
  split_ifs with h₁ h₂
  · simp only [false_iff]
    omega
  · simp only [false_iff]
    omega
  · simp only [true_iff]
    omega

theorem getitem_list {xs : List (Val F)} {i : ℤ} {v : Val F} :
    getitem (.list xs) (.int i) = .ok v ↔
      ∃ n, position xs.length i = some n ∧ xs[n]? = some v := by
  rw [getitem, ← Option.bind_eq_some_iff]
  cases (position xs.length i).bind (xs[·]?) with
  | none => simp
  | some u => simp

theorem getitem_dict {d : List (Key × Val F)} {k : Key} {v : Val F} :
    getitem (.dict d) k = .ok v ↔ d.lookup k = some v := by
  rw [getitem]
  cases d.lookup k with
  | none => simp
  | some u => simp

/-- An element has a list, a dictionary or a string around it. -/
theorem getitem_cases {ref v : Val F} {k : Key} (h : getitem ref k = .ok v) :
    (∃ d, ref = .dict d ∧ d.lookup k = some v) ∨
    (∃ xs i n, ref = .list xs ∧ k = .int i ∧ position xs.length i = some n ∧ xs[n]? = some v) ∨
    (∃ s t, ref = .str s ∧ v = .str t) := by
  -- A subscript on any other value raises `TypeError`.
  cases ref with
  | dict d => exact .inl ⟨d, rfl, getitem_dict.mp h⟩
  | list xs =>
    cases k with
    | str s => cases h
    | int i =>
      obtain ⟨n, hn, hv⟩ := getitem_list.mp h
      exact .inr (.inl ⟨xs, i, n, rfl, rfl, hn, hv⟩)
  | str s =>
    have hres : resolve (.str s) [k] = some v := resolve_cons.mpr ⟨v, h, rfl⟩
    obtain ⟨t, rfl⟩ := resolve_str hres
    exact .inr (.inr ⟨s, t, rfl, rfl⟩)
  | null | bool b | int z | float x => cases h

/-- An element is one of the values in the container, or a character. -/
theorem getitem_mem {ref v : Val F} {k : Key} (h : getitem ref k = .ok v) :
    v ∈ ref.children ∨ ∃ t, v = .str t := by
  rcases getitem_cases h with ⟨d, rfl, hv⟩ | ⟨xs, i, n, rfl, -, -, hv⟩ | ⟨s, t, -, hv⟩
  · exact .inl (List.mem_map_of_mem (Dict.mem_of_lookup hv))
  · exact .inl (List.mem_of_getElem? hv)
  · exact .inr ⟨t, hv⟩

theorem plain_getitem {ref v : Val F} {k : Key} (hplain : Plain ref) (h : getitem ref k = .ok v) :
    Plain v := by
  rcases getitem_mem h with hmem | ⟨t, rfl⟩
  · exact (plain_iff.mp hplain).2 v hmem
  · exact .str t

theorem sorts_getitem {ref v : Val F} {k : Key} (hsorts : Sorts ref) (h : getitem ref k = .ok v) :
    Sorts v := by
  rcases getitem_mem h with hmem | ⟨t, rfl⟩
  · exact (sorts_iff.mp hsorts).2 v hmem
  · exact .str t

theorem plain_resolve {ref v : Val F} {ks : List Key} (hplain : Plain ref)
    (h : resolve ref ks = some v) : Plain v := by
  induction ks generalizing ref with
  | nil =>
    obtain rfl := Option.some.inj h
    exact hplain
  | cons k ks ih =>
    obtain ⟨u, hu, h⟩ := resolve_cons.mp h
    exact ih (plain_getitem hplain hu) h

theorem getitem_reload {ref : Val F} (h : PlainKeys ref) (k : Key) :
    getitem (reload ref) k = (getitem ref k).map reload := by
  cases ref with
  -- Sorting permutes the items; only dictionaries change at all.
  | dict d =>
    obtain ⟨e, he, hlookup⟩ := reload_dict h
    rw [he, getitem, getitem, hlookup]
    cases d.lookup k with
    | none => rfl
    | some v => rfl
  | list xs =>
    rw [reload, reloadList_eq_map]
    cases k with
    | str s => rfl
    | int i =>
      rw [getitem, getitem, List.length_map]
      cases position xs.length i with
      | none => rfl
      | some n =>
        simp only [Option.bind_some, List.getElem?_map]
        cases xs[n]? with
        | none => rfl
        | some v => rfl
  | str s =>
    rw [reload]
    cases k with
    | str t => rfl
    | int i =>
      rw [getitem]
      cases (position s.points.length i).bind (s.points[·]?) with
      | none => rfl
      | some c => simp [Except.map, reload]
  | null | bool b | int z | float x =>
    rw [reload]
    rfl

/-- A document that was written and read again has the same elements. -/
theorem resolve_reload {ref : Val F} (h : Plain ref) (ks : List Key) :
    resolve (reload ref) ks = (resolve ref ks).map reload := by
  induction ks generalizing ref with
  | nil => rfl
  | cons k ks ih =>
    rw [resolve, resolve, getitem_reload h.plainKeys]
    cases hv : getitem ref k with
    | error e => rfl
    | ok v => exact ih (plain_getitem h hv)

/-! ## Section 3: Assignments -/

/-- What an assignment may do. -/
theorem assign_cases {ref v ref' : Val F} {k : Key}
    (h : elementassignormaybeappend ref k v = .ok ref') :
    (∃ d, ref = .dict d ∧ ref' = .dict (Dict.insert k v d)) ∨
    (∃ xs i n, ref = .list xs ∧ k = .int i ∧ position xs.length i = some n ∧
      ref' = .list (xs.set n v)) ∨
    (∃ xs, ref = .list xs ∧ k = .int xs.length ∧ ref' = .list (xs ++ [v])) ∨
    (∃ xs i, ref = .list xs ∧ k = .int i ∧ i < -(xs.length : ℤ) ∧ ref' = .list (v :: xs)) := by
  cases ref with
  | dict d => exact .inl ⟨d, rfl, (Except.ok.inj h).symm⟩
  | list xs =>
    cases k with
    | str s => cases h
    | int i =>
      rw [elementassignormaybeappend, setitem] at h
      cases hn : position xs.length i with
      | some n =>
        rw [hn] at h
        exact .inr (.inl ⟨xs, i, n, rfl, rfl, hn, (Except.ok.inj h).symm⟩)
      | none =>
        -- Out of range: too far, before the first element, or right at the end.
        rw [hn] at h
        dsimp only at h
        split_ifs at h with hlen hneg
        · obtain rfl := Except.ok.inj h
          have := position_eq_none.mp hn
          exact .inr (.inr (.inr ⟨xs, i, rfl, rfl, by omega, rfl⟩))
        · obtain rfl := Except.ok.inj h
          have := position_eq_none.mp hn
          obtain rfl : i = xs.length := by omega
          exact .inr (.inr (.inl ⟨xs, rfl, rfl, rfl⟩))
  | null | bool b | int z | float x | str s => cases h

theorem setitem_cases {ref v ref' : Val F} {k : Key} (h : setitem ref k v = .ok ref') :
    (∃ d, ref = .dict d ∧ ref' = .dict (Dict.insert k v d)) ∨
    (∃ xs i n, ref = .list xs ∧ k = .int i ∧ position xs.length i = some n ∧
      ref' = .list (xs.set n v)) := by
  cases ref with
  | dict d => exact .inl ⟨d, rfl, (Except.ok.inj h).symm⟩
  | list xs =>
    cases k with
    | str s => cases h
    | int i =>
      rw [setitem] at h
      cases hn : position xs.length i with
      | some n =>
        rw [hn] at h
        exact .inr ⟨xs, i, n, rfl, rfl, hn, (Except.ok.inj h).symm⟩
      | none =>
        rw [hn] at h
        cases h
  | null | bool b | int z | float x | str s => cases h

theorem setitem_list {xs : List (Val F)} {i : ℤ} {n : ℕ} (h : position xs.length i = some n)
    (v : Val F) : setitem (.list xs) (.int i) v = .ok (.list (xs.set n v)) := by
  rw [setitem, h]

/-- An element that was assigned in place is found again. -/
theorem getitem_setitem {ref v ref' : Val F} {k : Key} (h : setitem ref k v = .ok ref') :
    getitem ref' k = .ok v := by
  rcases setitem_cases h with ⟨d, rfl, rfl⟩ | ⟨xs, i, n, rfl, rfl, hn, rfl⟩
  · exact getitem_dict.mpr (Dict.lookup_insert_self k v d)
  · refine getitem_list.mpr ⟨n, by rwa [List.length_set], ?_⟩
    exact List.getElem?_set_self (position_eq_some.mp hn).1

theorem assign_of_setitem {ref v ref' : Val F} {k : Key} (h : setitem ref k v = .ok ref') :
    elementassignormaybeappend ref k v = .ok ref' := by
  rcases setitem_cases h with ⟨d, rfl, rfl⟩ | ⟨xs, i, n, rfl, rfl, hn, rfl⟩
  · rfl
  · rw [elementassignormaybeappend, h]

/-- An element can be assigned where there is one, unless it is a character. -/
theorem setitem_of_getitem {ref v : Val F} {k : Key} (h : getitem ref k = .ok v)
    (hv : ∀ s, v ≠ .str s) (w : Val F) : ∃ ref', setitem ref k w = .ok ref' := by
  rcases getitem_cases h with ⟨d, rfl, -⟩ | ⟨xs, i, n, rfl, rfl, hn, -⟩ | ⟨s, t, -, rfl⟩
  · exact ⟨_, rfl⟩
  · exact ⟨_, setitem_list hn w⟩
  · exact absurd rfl (hv t)

/-- Assigning twice is assigning the second element. -/
theorem assign_setitem {ref v ref₁ w ref' : Val F} {k : Key}
    (h₁ : elementassignormaybeappend ref k v = .ok ref₁) (h₂ : setitem ref₁ k w = .ok ref') :
    elementassignormaybeappend ref k w = .ok ref' := by
  rcases assign_cases h₁ with ⟨d, rfl, rfl⟩ | ⟨xs, i, n, rfl, rfl, hn, rfl⟩ | ⟨xs, rfl, rfl, rfl⟩ |
    ⟨xs, i, rfl, rfl, hi, rfl⟩
  -- The four cases of the first assignment; the second is always in place.
  · rw [setitem, Dict.insert_insert] at h₂
    exact h₂
  · have hn' : position (xs.set n v).length i = some n := by rwa [List.length_set]
    rw [setitem_list hn', List.set_set] at h₂
    rw [← h₂]
    exact assign_of_setitem (setitem_list hn w)
  · have hn : position (xs ++ [v]).length xs.length = some xs.length := by
      rw [position_eq_some, List.length_append]
      simp
    rw [setitem_list hn, List.set_append_right _ _ le_rfl, Nat.sub_self, List.set_cons_zero] at h₂
    have hnone : position xs.length xs.length = none := position_eq_none.mpr (.inl le_rfl)
    simp [elementassignormaybeappend, setitem, hnone, ← h₂]
  · have hnone : position xs.length i = none := position_eq_none.mpr (.inr hi)
    have hlen : ¬(xs.length : ℤ) < i := by omega
    have hneg : i < 0 := by omega
    -- Before the first element there is one index that still finds it.
    rcases setitem_cases h₂ with ⟨d, hd, -⟩ | ⟨ys, j, n, hys, hj, hn, rfl⟩
    · cases hd
    · cases hys
      cases hj
      rw [position_eq_some, List.length_cons] at hn
      obtain rfl : n = 0 := by omega
      simp [elementassignormaybeappend, setitem, hnone, hlen, hneg]

/-- What is found at the subscript of an assignment is what was assigned. -/
theorem getitem_assign {ref v ref' w : Val F} {k : Key}
    (h : elementassignormaybeappend ref k v = .ok ref') (hw : getitem ref' k = .ok w) : w = v := by
  rcases assign_cases h with ⟨d, rfl, rfl⟩ | ⟨xs, i, n, rfl, rfl, hn, rfl⟩ | ⟨xs, rfl, rfl, rfl⟩ |
    ⟨xs, i, rfl, rfl, hi, rfl⟩
  · rw [getitem_dict, Dict.lookup_insert_self] at hw
    exact (Option.some.inj hw).symm
  · rw [getitem_setitem (setitem_list hn v)] at hw
    exact (Except.ok.inj hw).symm
  · -- The index that appended is that of the new element,
    obtain ⟨m, hm, hw⟩ := getitem_list.mp hw
    rw [position_eq_some, List.length_append, List.length_singleton] at hm
    obtain rfl : m = xs.length := by omega
    simpa using hw.symm
  · -- and the one that inserted in front is, if it finds anything.
    obtain ⟨m, hm, hw⟩ := getitem_list.mp hw
    rw [position_eq_some, List.length_cons] at hm
    obtain rfl : m = 0 := by omega
    simpa using hw.symm

/-- An assignment keeps the keys of a dictionary strings. -/
theorem plainKeys_assign {ref v ref' : Val F} {k : Key} (hkeys : PlainKeys ref)
    (hk : ∀ d, ref = .dict d → k.isStr = true)
    (h : elementassignormaybeappend ref k v = .ok ref') : PlainKeys ref' := by
  rcases assign_cases h with ⟨d, rfl, rfl⟩ | ⟨xs, i, n, rfl, rfl, hn, rfl⟩ | ⟨xs, rfl, rfl, rfl⟩ |
    ⟨xs, i, rfl, rfl, hi, rfl⟩
  · refine ⟨fun k' hk' => ?_, Dict.nodup_insert v hkeys.2⟩
    obtain ⟨p, hp, rfl⟩ := List.mem_map.mp hk'
    rcases Dict.mem_insert hp with rfl | hp
    · exact hk d rfl
    · exact hkeys.1 p.1 (Dict.mem_keys_of_mem hp)
  all_goals trivial

/-- An assignment adds no value but its own. -/
theorem children_assign {ref v ref' : Val F} {k : Key}
    (h : elementassignormaybeappend ref k v = .ok ref') :
    ∀ x ∈ ref'.children, x ∈ ref.children ∨ x = v := by
  intro x hx
  rcases assign_cases h with ⟨d, rfl, rfl⟩ | ⟨xs, i, n, rfl, rfl, hn, rfl⟩ | ⟨xs, rfl, rfl, rfl⟩ |
    ⟨xs, i, rfl, rfl, hi, rfl⟩
  · obtain ⟨p, hp, rfl⟩ := List.mem_map.mp hx
    rcases Dict.mem_insert hp with rfl | hp
    · exact .inr rfl
    · exact .inl (List.mem_map_of_mem hp)
  · exact List.mem_or_eq_of_mem_set hx
  · exact (List.mem_append.mp hx).imp_right List.mem_singleton.mp
  · exact (List.mem_cons.mp hx).symm

/-- Assigning a plain value to a string key, or in a list. -/
theorem plain_assign {ref v ref' : Val F} {k : Key} (hplain : Plain ref) (hv : Plain v)
    (hk : ∀ d, ref = .dict d → k.isStr = true)
    (h : elementassignormaybeappend ref k v = .ok ref') : Plain ref' := by
  refine plain_iff.mpr ⟨plainKeys_assign hplain.plainKeys hk h, fun x hx => ?_⟩
  rcases children_assign h x hx with hmem | rfl
  · exact (plain_iff.mp hplain).2 x hmem
  · exact hv

/-- Assigning leaves a value that can be sorted if its own keys can. -/
theorem sorts_assign {ref v ref' : Val F} {k : Key} (hsorts : Sorts ref) (hv : Sorts v)
    (hkeys : SortsKeys ref') (h : elementassignormaybeappend ref k v = .ok ref') : Sorts ref' := by
  refine sorts_iff.mpr ⟨hkeys, fun x hx => ?_⟩
  rcases children_assign h x hx with hmem | rfl
  · exact (sorts_iff.mp hsorts).2 x hmem
  · exact hv

/-- An index among string keys cannot be sorted. -/
theorem not_sorts_insert_int {d : List (Key × Val F)} (hkeys : PlainKeys (.dict d)) (hne : d ≠ [])
    (i : ℤ) (v : Val F) : ¬Sorts (.dict (Dict.insert (.int i) v d)) := by
  intro hsorts
  cases hsorts with
  | dict hcmp _ =>
    obtain ⟨p, d', rfl⟩ := List.exists_cons_of_ne_nil hne
    have hp : p.1.isStr = true := hkeys.1 p.1 (by simp)
    -- The new key is added after the others, and one of each kind is enough.
    have hint : Key.int i ∉ Dict.keys (p :: d') := fun hmem => by
      cases hkeys.1 _ hmem
    have hi : (Key.int i).isStr = false := rfl
    rw [Dict.keys_insert, if_neg hint] at hcmp
    simp [comparable, hp, hi] at hcmp

end Jaguar
