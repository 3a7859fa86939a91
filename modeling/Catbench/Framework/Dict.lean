import Mathlib.Algebra.GroupWithZero.Nat
import Mathlib.Data.List.Nodup
import Mathlib.Data.List.Perm.Basic

/-! # Insertion-ordered dictionaries

    A dictionary as the list of its items in insertion order.  Assigning to a
    key that is present replaces the value in place, assigning to a new key
    appends; a key that was assigned twice therefore keeps its first position
    and its last value.
-/

namespace Dict

variable {K V W : Type*}

def keys (d : List (K × V)) : List K := d.map Prod.fst

@[simp] theorem keys_nil : keys ([] : List (K × V)) = [] := rfl

@[simp] theorem keys_cons (p : K × V) (d : List (K × V)) : keys (p :: d) = p.1 :: keys d := rfl

theorem keys_perm {d e : List (K × V)} (h : d.Perm e) : (keys d).Perm (keys e) := h.map Prod.fst

theorem mem_keys_of_mem {d : List (K × V)} {p : K × V} (h : p ∈ d) : p.1 ∈ keys d :=
  List.mem_map_of_mem h

variable [DecidableEq K]

/-- `d[k] = v`. -/
def insert (k : K) (v : V) : List (K × V) → List (K × V)
  | [] => [(k, v)]
  | p :: d => if p.1 = k then (k, v) :: d else p :: insert k v d

/-- `dict(pairs)`. -/
def ofPairs (pairs : List (K × V)) : List (K × V) :=
  pairs.foldl (fun d p => insert p.1 p.2 d) []

/-- `del d[k]`, for a key that is present. -/
def erase (k : K) (d : List (K × V)) : List (K × V) := d.filter fun p => p.1 ≠ k

/-! ## Lookup -/

theorem lookup_cons_of_ne {k : K} {p : K × V} {d : List (K × V)} (h : p.1 ≠ k) :
    (p :: d).lookup k = d.lookup k := by
  obtain ⟨k', v⟩ := p
  have hbeq : (k == k') = false := beq_eq_false_iff_ne.mpr (Ne.symm h)
  rw [List.lookup_cons, hbeq]

theorem lookup_eq_none {k : K} {d : List (K × V)} : d.lookup k = none ↔ k ∉ keys d := by
  induction d with
  | nil => simp
  | cons p d ih =>
    by_cases hp : p.1 = k
    · obtain ⟨k', v⟩ := p
      obtain rfl : k' = k := hp
      simp
    · rw [lookup_cons_of_ne hp, ih, keys_cons, List.mem_cons]
      simp [Ne.symm hp]

theorem mem_of_lookup {k : K} {v : V} {d : List (K × V)} (h : d.lookup k = some v) :
    (k, v) ∈ d := by
  induction d with
  | nil => simp at h
  | cons p d ih =>
    obtain ⟨k', v'⟩ := p
    by_cases hp : k' = k
    · subst hp
      simp at h
      simp [h]
    · rw [lookup_cons_of_ne hp] at h
      exact List.mem_cons_of_mem _ (ih h)

theorem lookup_of_mem {k : K} {v : V} {d : List (K × V)} (hnd : (keys d).Nodup)
    (h : (k, v) ∈ d) : d.lookup k = some v := by
  induction d with
  | nil => simp at h
  | cons p d ih =>
    rw [keys_cons, List.nodup_cons] at hnd
    rcases List.mem_cons.mp h with rfl | h
    · simp
    · have hne : p.1 ≠ k := fun heq => hnd.1 (heq ▸ mem_keys_of_mem h)
      rw [lookup_cons_of_ne hne]
      exact ih hnd.2 h

/-- The order of the items does not matter to a lookup. -/
theorem lookup_perm {d e : List (K × V)} (hnd : (keys d).Nodup) (h : d.Perm e) (k : K) :
    e.lookup k = d.lookup k := by
  cases hd : d.lookup k with
  | none =>
    rw [lookup_eq_none] at hd ⊢
    exact fun hmem => hd ((keys_perm h).mem_iff.mpr hmem)
  | some v =>
    exact lookup_of_mem ((keys_perm h).nodup_iff.mp hnd) (h.mem_iff.mp (mem_of_lookup hd))

theorem lookup_map_snd (f : V → W) (k : K) (d : List (K × V)) :
    (d.map fun p => (p.1, f p.2)).lookup k = (d.lookup k).map f := by
  induction d with
  | nil => rfl
  | cons p d ih =>
    by_cases hp : p.1 = k
    · obtain ⟨k', v⟩ := p
      obtain rfl : k' = k := hp
      simp
    · have hp' : (p.1, f p.2).1 ≠ k := hp
      rw [lookup_cons_of_ne hp, ← ih, List.map_cons, lookup_cons_of_ne hp']

/-! ## Assignment -/

@[simp] theorem lookup_insert_self (k : K) (v : V) (d : List (K × V)) :
    (insert k v d).lookup k = some v := by
  induction d with
  | nil => simp [insert]
  | cons p d ih =>
    unfold insert
    by_cases hp : p.1 = k
    · rw [if_pos hp]; simp
    · rw [if_neg hp, lookup_cons_of_ne hp, ih]

theorem lookup_insert_of_ne {k k' : K} (h : k ≠ k') (v : V) (d : List (K × V)) :
    (insert k v d).lookup k' = d.lookup k' := by
  have hfst : (k, v).1 ≠ k' := h
  induction d with
  | nil => rw [insert, lookup_cons_of_ne hfst]
  | cons p d ih =>
    unfold insert
    by_cases hp : p.1 = k
    · rw [if_pos hp, lookup_cons_of_ne hfst, lookup_cons_of_ne (hp ▸ h)]
    · rw [if_neg hp]
      by_cases hpk : p.1 = k'
      · obtain ⟨k₁, v₁⟩ := p
        obtain rfl : k₁ = k' := hpk
        simp
      · rw [lookup_cons_of_ne hpk, lookup_cons_of_ne hpk, ih]

/-- The second of two assignments wins. -/
theorem insert_insert (k : K) (v w : V) (d : List (K × V)) :
    insert k w (insert k v d) = insert k w d := by
  induction d with
  | nil => simp [insert]
  | cons p d ih =>
    by_cases hp : p.1 = k
    · simp [insert, hp]
    · simp [insert, hp, ih]

theorem insert_of_not_mem {k : K} (v : V) {d : List (K × V)} (h : k ∉ keys d) :
    insert k v d = d ++ [(k, v)] := by
  induction d with
  | nil => rfl
  | cons p d ih =>
    rw [keys_cons, List.mem_cons, not_or] at h
    rw [insert, if_neg (Ne.symm h.1), ih h.2, List.cons_append]

/-- Assigning what is there already changes nothing. -/
theorem insert_of_lookup {k : K} {v : V} {d : List (K × V)} (h : d.lookup k = some v) :
    insert k v d = d := by
  induction d with
  | nil => simp at h
  | cons p d ih =>
    by_cases hp : p.1 = k
    · obtain ⟨k', w⟩ := p
      obtain rfl : k' = k := hp
      rw [List.lookup_cons_self, Option.some.injEq] at h
      rw [insert, if_pos rfl, h]
    · rw [lookup_cons_of_ne hp] at h
      rw [insert, if_neg hp, ih h]

theorem keys_insert (k : K) (v : V) (d : List (K × V)) :
    keys (insert k v d) = if k ∈ keys d then keys d else keys d ++ [k] := by
  induction d with
  | nil => simp [insert]
  | cons p d ih =>
    unfold insert
    by_cases hp : p.1 = k
    · subst hp
      simp
    · rw [if_neg hp, keys_cons, keys_cons, ih]
      by_cases hk : k ∈ keys d <;> simp [hk, Ne.symm hp]

theorem nodup_insert {k : K} (v : V) {d : List (K × V)} (h : (keys d).Nodup) :
    (keys (insert k v d)).Nodup := by
  rw [keys_insert]
  by_cases hk : k ∈ keys d
  · rwa [if_pos hk]
  · rw [if_neg hk, List.nodup_append]
    refine ⟨h, by simp, ?_⟩
    intro a ha b hb heq
    rw [List.mem_singleton] at hb
    exact hk (hb ▸ heq ▸ ha)

theorem mem_insert {k : K} {v : V} {d : List (K × V)} {p : K × V} (h : p ∈ insert k v d) :
    p = (k, v) ∨ p ∈ d := by
  induction d with
  | nil => exact .inl (by simpa [insert] using h)
  | cons q d ih =>
    unfold insert at h
    by_cases hq : q.1 = k
    · rw [if_pos hq, List.mem_cons] at h
      exact h.imp_right (List.mem_cons_of_mem q)
    · rw [if_neg hq, List.mem_cons] at h
      rcases h with rfl | h
      · exact .inr (by simp)
      · exact (ih h).imp_right (List.mem_cons_of_mem q)

/-! ## Construction -/

theorem nodup_ofPairs (pairs : List (K × V)) : (keys (ofPairs pairs)).Nodup := by
  have hfold : ∀ d : List (K × V), (keys d).Nodup →
      (keys (pairs.foldl (fun d p => insert p.1 p.2 d) d)).Nodup := by
    induction pairs with
    | nil => exact fun d hd => hd
    | cons p pairs ih => exact fun d hd => ih _ (nodup_insert p.2 hd)
  exact hfold [] (by simp)

/-- Items without a repeated key are a dictionary already. -/
theorem ofPairs_of_nodup {pairs : List (K × V)} (h : (keys pairs).Nodup) :
    ofPairs pairs = pairs := by
  have hfold : ∀ d : List (K × V), (keys (d ++ pairs)).Nodup →
      pairs.foldl (fun d p => insert p.1 p.2 d) d = d ++ pairs := by
    clear h
    induction pairs with
    | nil => simp
    | cons p pairs ih =>
      intro d hd
      have hk : p.1 ∉ keys d := by
        rw [keys, List.map_append, List.nodup_append] at hd
        exact fun hmem => hd.2.2 p.1 hmem p.1 (by simp) rfl
      rw [List.foldl_cons, insert_of_not_mem p.2 hk, ih, List.append_assoc, List.singleton_append]
      rwa [List.append_assoc, List.singleton_append]
  exact hfold [] h

theorem mem_ofPairs {pairs : List (K × V)} {p : K × V} (h : p ∈ ofPairs pairs) : p ∈ pairs := by
  have hfold : ∀ d : List (K × V), p ∈ pairs.foldl (fun d p => insert p.1 p.2 d) d →
      p ∈ d ∨ p ∈ pairs := by
    clear h
    induction pairs with
    | nil => exact fun d hd => .inl hd
    | cons q pairs ih =>
      intro d hd
      rcases ih _ hd with hmem | hmem
      · rcases mem_insert hmem with rfl | hmem
        · exact .inr (by simp)
        · exact .inl hmem
      · exact .inr (List.mem_cons_of_mem q hmem)
  simpa using hfold [] h

/-- Items that are assigned again do not count. -/
theorem sum_ofPairs_le (weight : K × V → ℕ) (pairs : List (K × V)) :
    ((ofPairs pairs).map weight).sum ≤ (pairs.map weight).sum := by
  have hinsert : ∀ (k : K) (v : V) (d : List (K × V)),
      ((insert k v d).map weight).sum ≤ (d.map weight).sum + weight (k, v) := by
    intro k v d
    induction d with
    | nil => simp [insert]
    | cons p d ih =>
      unfold insert
      split
      · simp only [List.map_cons, List.sum_cons]
        omega
      · simp only [List.map_cons, List.sum_cons]
        omega
  have hfold : ∀ d : List (K × V), ((pairs.foldl (fun d p => insert p.1 p.2 d) d).map weight).sum ≤
      (d.map weight).sum + (pairs.map weight).sum := by
    induction pairs with
    | nil => simp
    | cons p pairs ih =>
      intro d
      have hrest := ih (insert p.1 p.2 d)
      have hfirst : ((insert p.1 p.2 d).map weight).sum ≤ (d.map weight).sum + weight p :=
        hinsert p.1 p.2 d
      simp only [List.foldl_cons, List.map_cons, List.sum_cons]
      omega
  have hempty := hfold []
  rwa [List.map_nil, List.sum_nil, Nat.zero_add] at hempty

/-! ## Removal -/

theorem mem_erase {k : K} {d : List (K × V)} {p : K × V} (h : p ∈ erase k d) : p ∈ d :=
  (List.mem_filter.mp h).1

theorem nodup_erase {k : K} {d : List (K × V)} (h : (keys d).Nodup) : (keys (erase k d)).Nodup :=
  h.sublist (List.filter_sublist.map Prod.fst)

theorem length_erase {k : K} {d : List (K × V)} (h : (keys d).Nodup) (hk : k ∈ keys d) :
    (erase k d).length + 1 = d.length := by
  have hkeys : keys (erase k d) = (keys d).erase k := by
    rw [h.erase_eq_filter, keys, erase, keys, List.filter_map]
    exact congrArg _ (List.filter_congr fun p _ => decide_not.trans rfl)
  have hlength := congrArg List.length hkeys
  rw [List.length_erase_of_mem hk, keys, keys, List.length_map, List.length_map] at hlength
  have hpos := List.length_pos_of_mem hk
  rw [keys, List.length_map] at hpos
  omega

theorem lookup_erase_self (k : K) (d : List (K × V)) : (erase k d).lookup k = none := by
  rw [lookup_eq_none]
  intro hk
  obtain ⟨p, hp, heq⟩ := List.mem_map.mp hk
  have hne : p.1 ≠ k := by simpa using (List.mem_filter.mp hp).2
  exact hne heq

theorem lookup_erase_of_ne {k k' : K} (h : k ≠ k') (d : List (K × V)) :
    (erase k d).lookup k' = d.lookup k' := by
  induction d with
  | nil => rfl
  | cons p d ih =>
    by_cases hp : p.1 = k
    · have hfilter : erase k (p :: d) = erase k d := List.filter_cons_of_neg (by simp [hp])
      rw [hfilter, ih, lookup_cons_of_ne (hp ▸ h)]
    · have hfilter : erase k (p :: d) = p :: erase k d := List.filter_cons_of_pos (by simp [hp])
      rw [hfilter]
      by_cases hpk : p.1 = k'
      · obtain ⟨k₁, v⟩ := p
        obtain rfl : k₁ = k' := hpk
        simp
      · rw [lookup_cons_of_ne hpk, lookup_cons_of_ne hpk, ih]

end Dict
