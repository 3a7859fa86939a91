import Mathlib.Data.List.MinMax
import Mathlib.Tactic.Common

/-! # Full outer joins by merging

    Several lists of records, each in strictly increasing order of its keys,
    are read from their fronts.  In each round the least of the front keys is
    taken, the fronts that have it are consumed, and the others stay.

    * **Rounds**: `least`, `pick` and `skip` say what one round takes and leaves.
    * **Join**: `join` runs the rounds; `join_spec` says that they go through
      the distinct keys in increasing order, and that a round finds the record
      that each list has for its key.
-/

namespace OuterJoin

variable {κ ρ : Type*} (key : ρ → κ)

/-- The keys at the front. -/
def heads (rss : List (List ρ)) : List κ := rss.filterMap fun rs => rs.head?.map key

/-- Some list has a record with the key. -/
def Occurs (rss : List (List ρ)) (k : κ) : Prop := ∃ rs ∈ rss, ∃ r ∈ rs, key r = k

/-- The number of records that are left. -/
def total : List (List ρ) → ℕ
  | [] => 0
  | rs :: rss => rs.length + total rss

variable [LinearOrder κ]

/-- The key of the next round. -/
def least (rss : List (List ρ)) : Option κ := (heads key rss).argmin id

/-- The record that a list contributes to the round of `k`. -/
def pick (k : κ) (rs : List ρ) : Option ρ := rs.head?.filter fun r => decide (key r = k)

/-- What the round of `k` leaves of a list. -/
def skip (k : κ) : List ρ → List ρ
  | [] => []
  | r :: rs => if key r = k then rs else r :: rs

/-- The rounds, while a list is not exhausted. -/
def join : ℕ → List (List ρ) → Option (List (κ × List (Option ρ)))
  | 0, _ => none
  | fuel + 1, rss =>
    match least key rss with
    | none => some []
    | some k =>
      (join fuel (rss.map (skip key k))).map ((k, rss.map (pick key k)) :: ·)

/-- The record with a given key. -/
def lookup (k : κ) (rs : List ρ) : Option ρ := rs.find? fun r => decide (key r = k)

/-- The list is in strictly increasing order of its keys. -/
def Sorted (rs : List ρ) : Prop := rs.Pairwise fun r r' => key r < key r'

variable {key} {rss : List (List ρ)} {k : κ}

/-! ## One round -/

theorem skip_cons (r : ρ) (rs : List ρ) :
    skip key k (r :: rs) = if key r = k then rs else r :: rs := rfl

omit [LinearOrder κ] in
theorem mem_heads {k : κ} : k ∈ heads key rss ↔ ∃ r rs, r :: rs ∈ rss ∧ key r = k := by
  unfold heads
  rw [List.mem_filterMap]
  constructor
  · intro h
    obtain ⟨rs, hmem, hhead⟩ := h
    cases rs with
    | nil => cases hhead
    | cons r rs => exact ⟨r, rs, hmem, by simpa using hhead⟩
  · intro h
    obtain ⟨r, rs, hmem, hkey⟩ := h
    exact ⟨r :: rs, hmem, by simp [hkey]⟩

theorem least_eq_none (h : least key rss = none) : ∀ rs ∈ rss, rs = [] := by
  intro rs hrs
  have hnil : heads key rss = [] := List.argmin_eq_none.mp h
  cases rs with
  | nil => rfl
  | cons r rs =>
    have : key r ∈ heads key rss := mem_heads.mpr ⟨r, rs, hrs, rfl⟩
    rw [hnil] at this
    cases this

theorem least_mem (h : least key rss = some k) : k ∈ heads key rss := List.argmin_mem h

theorem least_le_heads (h : least key rss = some k) {k' : κ} (hk' : k' ∈ heads key rss) : k ≤ k' :=
  List.le_of_mem_argmin hk' h

/-- The least front key is the least of all keys. -/
theorem least_le (hsorted : ∀ rs ∈ rss, Sorted key rs) (h : least key rss = some k) :
    ∀ rs ∈ rss, ∀ r ∈ rs, k ≤ key r := by
  intro rs hrs r hr
  cases rs with
  | nil => cases hr
  | cons r₀ rs =>
    have hfront : k ≤ key r₀ := least_le_heads h (mem_heads.mpr ⟨r₀, rs, hrs, rfl⟩)
    rcases List.mem_cons.mp hr with heq | hmem
    · rw [heq]
      exact hfront
    · exact le_trans hfront (le_of_lt ((List.pairwise_cons.mp (hsorted _ hrs)).1 r hmem))

theorem occurs_least (h : least key rss = some k) : Occurs key rss k := by
  obtain ⟨r, rs, hrs, hkey⟩ := mem_heads.mp (least_mem h)
  exact ⟨r :: rs, hrs, r, List.mem_cons_self, hkey⟩

/-- A key that no record is below can only be found at the front. -/
theorem lookup_eq_pick {rs : List ρ} (hsorted : Sorted key rs) (hle : ∀ r ∈ rs, k ≤ key r) :
    lookup key k rs = pick key k rs := by
  cases rs with
  | nil => rfl
  | cons r rs =>
    unfold lookup pick
    by_cases hkey : key r = k
    · simp [hkey, Option.filter_some]
    · have hnone : rs.find? (fun r => decide (key r = k)) = none := by
        rw [List.find?_eq_none]
        intro r' hr'
        have hlt := (List.pairwise_cons.mp hsorted).1 r' hr'
        have hfront := hle r List.mem_cons_self
        rw [decide_eq_true_eq]
        exact ne_of_gt (lt_of_le_of_lt hfront hlt)
      simp [hkey, hnone, Option.filter_some]

/-- A round leaves the records with other keys. -/
theorem lookup_skip {k' : κ} (hne : k' ≠ k) (rs : List ρ) :
    lookup key k' (skip key k rs) = lookup key k' rs := by
  cases rs with
  | nil => rfl
  | cons r rs =>
    rw [skip_cons]
    by_cases hkey : key r = k
    · rw [if_pos hkey]
      unfold lookup
      rw [List.find?_cons_of_neg]
      rw [decide_eq_true_eq, hkey]
      exact hne.symm
    · rw [if_neg hkey]

theorem skip_sublist (k : κ) (rs : List ρ) : (skip key k rs).Sublist rs := by
  cases rs with
  | nil => exact List.Sublist.refl _
  | cons r rs =>
    rw [skip_cons]
    split
    · exact List.sublist_cons_self r rs
    · exact List.Sublist.refl _

theorem skip_sorted {rs : List ρ} (h : Sorted key rs) : Sorted key (skip key k rs) :=
  List.Pairwise.sublist (skip_sublist k rs) h

/-- What is left of a sorted list after a round has other keys. -/
theorem ne_of_mem_skip {rs : List ρ} (hsorted : Sorted key rs) (hle : ∀ r ∈ rs, k ≤ key r)
    {r : ρ} (hr : r ∈ skip key k rs) : key r ≠ k := by
  cases rs with
  | nil => cases hr
  | cons r₀ rs =>
    -- behind a front with the key, all keys are greater; otherwise the front is
    obtain ⟨hlt, -⟩ := List.pairwise_cons.mp hsorted
    rw [skip_cons] at hr
    split at hr
    · next hkey =>
      rw [← hkey]
      exact ne_of_gt (hlt r hr)
    · next hkey =>
      rcases List.mem_cons.mp hr with heq | hmem
      · rw [heq]
        exact hkey
      · exact ne_of_gt (lt_of_le_of_lt (hle r₀ List.mem_cons_self) (hlt r hmem))

/-- The keys that are left are all but the one of the round. -/
theorem occurs_skip (hsorted : ∀ rs ∈ rss, Sorted key rs)
    (hle : ∀ rs ∈ rss, ∀ r ∈ rs, k ≤ key r) (k' : κ) :
    Occurs key (rss.map (skip key k)) k' ↔ Occurs key rss k' ∧ k' ≠ k := by
  constructor
  · intro h
    obtain ⟨rs', hrs', r, hr, hkey⟩ := h
    obtain ⟨rs, hrs, rfl⟩ := List.mem_map.mp hrs'
    refine ⟨⟨rs, hrs, r, (skip_sublist k rs).subset hr, hkey⟩, ?_⟩
    rw [← hkey]
    exact ne_of_mem_skip (hsorted rs hrs) (hle rs hrs) hr
  · intro h
    obtain ⟨⟨rs, hrs, r, hr, hkey⟩, hne⟩ := h
    refine ⟨skip key k rs, List.mem_map.mpr ⟨rs, hrs, rfl⟩, r, ?_, hkey⟩
    cases rs with
    | nil => cases hr
    | cons r₀ rs =>
      rw [skip_cons]
      split
      · next hfront =>
        rcases List.mem_cons.mp hr with heq | hmem
        · rw [heq, hfront] at hkey
          exact absurd hkey.symm hne
        · exact hmem
      · exact hr

theorem length_skip_le (k : κ) (rs : List ρ) : (skip key k rs).length ≤ rs.length :=
  (skip_sublist k rs).length_le

theorem total_skip_le (k : κ) (rss : List (List ρ)) :
    total (rss.map (skip key k)) ≤ total rss := by
  induction rss with
  | nil => exact Nat.le_refl _
  | cons rs rss ih => exact Nat.add_le_add (length_skip_le k rs) ih

/-- A round consumes a record. -/
theorem total_skip_lt (h : least key rss = some k) :
    total (rss.map (skip key k)) < total rss := by
  obtain ⟨r, rs, hrs, hkey⟩ := mem_heads.mp (least_mem h)
  clear h
  induction rss with
  | nil => cases hrs
  | cons rs' rss ih =>
    rcases List.mem_cons.mp hrs with heq | hmem
    · subst heq
      have hfront : skip key k (r :: rs) = rs := by rw [skip_cons, if_pos hkey]
      rw [List.map_cons, hfront]
      exact Nat.add_lt_add_of_lt_of_le (Nat.lt_succ_self _) (total_skip_le k rss)
    · exact Nat.add_lt_add_of_le_of_lt (length_skip_le k rs') (ih hmem)

/-! ## All rounds -/

/-- Each round consumes a record, so the rounds end, whatever the order of the
    records. -/
theorem join_ends (key : ρ → κ) (rss : List (List ρ)) :
    ∃ rounds, ∀ fuel, total rss < fuel → join key fuel rss = some rounds := by
  induction htotal : total rss using Nat.strong_induction_on generalizing rss with
  | _ n ih =>
    subst htotal
    cases hleast : least key rss with
    | none =>
      refine ⟨[], fun fuel hfuel => ?_⟩
      obtain ⟨fuel, rfl⟩ := Nat.exists_eq_succ_of_ne_zero (Nat.ne_zero_of_lt hfuel)
      rw [join, hleast]
    | some k =>
      have hless := total_skip_lt hleast
      obtain ⟨rounds, hrounds⟩ := ih _ hless _ rfl
      refine ⟨(k, rss.map (pick key k)) :: rounds, fun fuel hfuel => ?_⟩
      obtain ⟨fuel, rfl⟩ := Nat.exists_eq_succ_of_ne_zero (Nat.ne_zero_of_lt hfuel)
      rw [join, hleast]
      simp only
      rw [hrounds fuel (by omega)]
      rfl

/-- What a list contributes to a round stood in front of what is left of it. -/
theorem pick_append_skip (k : κ) (rs : List ρ) :
    (pick key k rs).toList ++ skip key k rs = rs := by
  cases rs with
  | nil => rfl
  | cons r rs =>
    rw [skip_cons]
    by_cases hkey : key r = k
    · simp [pick, Option.filter_some, hkey]
    · simp [pick, Option.filter_some, hkey]

/-- The records that a list contributes to the rounds are its records, in their
    order. -/
theorem join_records {fuel : ℕ} {rounds : List (κ × List (Option ρ))}
    (h : join key fuel rss = some rounds) {i : ℕ} {rs : List ρ} (hi : rss[i]? = some rs) :
    (rounds.flatMap fun p => (p.2.getD i none).toList) = rs := by
  induction fuel generalizing rss rounds rs with
  | zero => cases h
  | succ fuel ih =>
    rw [join] at h
    cases hleast : least key rss with
    | none =>
      rw [hleast] at h
      rw [← Option.some.inj h, least_eq_none hleast rs (List.mem_of_getElem? hi)]
      rfl
    | some k =>
      rw [hleast] at h
      obtain ⟨rest, hrest, rfl⟩ := Option.map_eq_some_iff.mp h
      have hskip : (rss.map (skip key k))[i]? = some (skip key k rs) := by
        rw [List.getElem?_map, hi, Option.map_some]
      have hpick : (rss.map (pick key k)).getD i none = pick key k rs := by
        rw [List.getD_eq_getElem?_getD, List.getElem?_map, hi]
        rfl
      rw [List.flatMap_cons, ih hrest hskip, hpick]
      exact pick_append_skip k rs

/-- Every list has a place in every round. -/
theorem join_places {fuel : ℕ} {rounds : List (κ × List (Option ρ))}
    (h : join key fuel rss = some rounds) : ∀ p ∈ rounds, p.2.length = rss.length := by
  induction fuel generalizing rss rounds with
  | zero => cases h
  | succ fuel ih =>
    rw [join] at h
    cases hleast : least key rss with
    | none =>
      rw [hleast] at h
      rw [← Option.some.inj h]
      simp
    | some k =>
      rw [hleast] at h
      obtain ⟨rest, hrest, rfl⟩ := Option.map_eq_some_iff.mp h
      rw [List.forall_mem_cons]
      refine ⟨by simp, fun p hp => ?_⟩
      rw [ih hrest p hp, List.length_map]

/-- Every record of a round is one of the lists. -/
theorem mem_of_join {fuel : ℕ} {rounds : List (κ × List (Option ρ))}
    (h : join key fuel rss = some rounds) {p : κ × List (Option ρ)} (hp : p ∈ rounds) {r : ρ}
    (hr : some r ∈ p.2) : ∃ rs ∈ rss, r ∈ rs := by
  obtain ⟨i, hi, hget⟩ := List.getElem_of_mem hr
  have hlen : i < rss.length := join_places h p hp ▸ hi
  refine ⟨rss[i], List.getElem_mem hlen, ?_⟩
  rw [← join_records h (List.getElem?_eq_getElem hlen), List.mem_flatMap]
  refine ⟨p, hp, ?_⟩
  rw [List.getD_eq_getElem?_getD, List.getElem?_eq_getElem hi, hget]
  exact List.mem_singleton_self r

theorem not_occurs_of_least (h : least key rss = none) (k : κ) : ¬Occurs key rss k := by
  intro hk
  obtain ⟨rs, hrs, r, hr, -⟩ := hk
  rw [least_eq_none h rs hrs] at hr
  cases hr

/-- The keys of a round and of those after it. -/
theorem occurs_iff_of_least (hsorted : ∀ rs ∈ rss, Sorted key rs) (h : least key rss = some k)
    (k' : κ) : Occurs key rss k' ↔ k' = k ∨ Occurs key (rss.map (skip key k)) k' := by
  rw [occurs_skip hsorted (least_le hsorted h)]
  constructor
  · intro hk'
    by_cases heq : k' = k
    · exact Or.inl heq
    · exact Or.inr ⟨hk', heq⟩
  · intro hk'
    rcases hk' with rfl | hk'
    · exact occurs_least h
    · exact hk'.1

/-- The record of the least key can only be at the front. -/
theorem map_lookup_least (hsorted : ∀ rs ∈ rss, Sorted key rs) (h : least key rss = some k) :
    rss.map (lookup key k) = rss.map (pick key k) := by
  apply List.map_congr_left
  intro rs hrs
  exact lookup_eq_pick (hsorted rs hrs) (least_le hsorted h rs hrs)

/-- A round loses no record of a later key. -/
theorem map_lookup_skip {ks : List κ} (hne : ∀ k' ∈ ks, k' ≠ k) (rss : List (List ρ)) :
    (ks.map fun k' => (k', (rss.map (skip key k)).map (lookup key k'))) =
      ks.map fun k' => (k', rss.map (lookup key k')) := by
  apply List.map_congr_left
  intro k' hk'
  rw [List.map_map]
  congr 1
  apply List.map_congr_left
  intro rs _
  exact lookup_skip (hne k' hk') rs

/-- **Join**: the rounds go through the keys that occur, each once and in
    increasing order, and find what every list has for them. -/
theorem join_spec (hsorted : ∀ rs ∈ rss, Sorted key rs) :
    ∃ ks : List κ, ks.Pairwise (· < ·) ∧ (∀ k, k ∈ ks ↔ Occurs key rss k) ∧
      ∀ fuel, total rss < fuel →
        join key fuel rss = some (ks.map fun k => (k, rss.map (lookup key k))) := by
  -- A round consumes a record, so the induction is on the number of records.
  induction htotal : total rss using Nat.strong_induction_on generalizing rss with
  | _ n ih =>
    subst htotal
    cases hleast : least key rss with
    | none =>
      refine ⟨[], List.Pairwise.nil, ?_, ?_⟩
      · intro k
        simp [not_occurs_of_least hleast]
      · intro fuel hfuel
        obtain ⟨fuel, rfl⟩ := Nat.exists_eq_succ_of_ne_zero (Nat.ne_zero_of_lt hfuel)
        rw [join, hleast]
        rfl
    | some k =>
      have hle := least_le hsorted hleast
      have hsorted' : ∀ rs ∈ rss.map (skip key k), Sorted key rs := by
        intro rs' hrs'
        obtain ⟨rs, hrs, rfl⟩ := List.mem_map.mp hrs'
        exact skip_sorted (hsorted rs hrs)
      have hless := total_skip_lt hleast
      obtain ⟨ks, hks, hmem, hjoin⟩ := ih _ hless hsorted' rfl
      have hother : ∀ k' ∈ ks, Occurs key rss k' ∧ k' ≠ k := by
        intro k' hk'
        exact (occurs_skip hsorted hle k').mp ((hmem k').mp hk')
      refine ⟨k :: ks, ?_, ?_, ?_⟩
      · refine List.pairwise_cons.mpr ⟨?_, hks⟩
        intro k' hk'
        obtain ⟨⟨rs, hrs, r, hr, hkey⟩, hne⟩ := hother k' hk'
        exact lt_of_le_of_ne (hkey ▸ hle rs hrs r hr) hne.symm
      · intro k'
        rw [List.mem_cons, hmem, occurs_iff_of_least hsorted hleast]
      · intro fuel hfuel
        obtain ⟨fuel, rfl⟩ := Nat.exists_eq_succ_of_ne_zero (Nat.ne_zero_of_lt hfuel)
        rw [join, hleast]
        simp only
        rw [hjoin fuel (by omega), map_lookup_skip (fun k' hk' => (hother k' hk').2),
          List.map_cons, map_lookup_least hsorted hleast]
        rfl

end OuterJoin
