import Catbench.PostProcess.Loops

/-! # Derived fields

    A rule derives a field from fields that no rule writes (`Separate`).  So the
    value does not depend on when in a pass it is computed, nor on which other
    fields have been added by then, and making the pass again computes the
    value that is there (`derive_fields_neutral`).

    The sources of a value are numbers, since they were divided; numbers are
    equal only if they are the same.  That is why a value is still the derived
    one when the document has been written and read.
-/

open Json

namespace PostProcess

variable {F : Type} {sources : List Key} {rules : List (Rule F)} {r : Rule F}
  {d e : List (Key × Val F)} {l l' x x' : Val F}

/-! ## Section 1: Rules -/

/-- The rule gives a number that only depends on the numbers under `sources`. -/
structure Sourced (sources : List Key) (r : Rule F) : Prop where
  number : ∀ {f w}, r.value f = some w → isNumber w = true
  value : ∀ {f g w}, (∀ k ∈ sources, ∀ v, isNumber v = true → f k = some v → g k = some v) →
    r.value f = some w → r.value g = some w

/-- The rules write none of their sources, and no two of them write one field. -/
structure Separate (sources : List Key) (rules : List (Rule F)) : Prop where
  sourced : ∀ r ∈ rules, Sourced sources r
  datakey : ∀ r ∈ rules, r.datakey ∈ sources
  new_key : ∀ r ∈ rules, r.new_key ∉ sources
  inj : ∀ r ∈ rules, ∀ r' ∈ rules, r.new_key = r'.new_key → r.datakey = r'.datakey
  isStr : ∀ r ∈ rules, r.new_key.isStr = true
  label : ∀ r ∈ rules, ∀ {l v}, r.label l = some v → Plain l → Plain v

/-- The numbers of `d` under the names `K` are those of `e`. -/
def Numbers (K : Key → Prop) (d e : List (Key × Val F)) : Prop :=
  ∀ k, K k → ∀ v, isNumber v = true → d.lookup k = some v → e.lookup k = some v

theorem numbers_of_same (K : Key → Prop) (h : Same (.dict e) (.dict d)) : Numbers K d e := by
  intro k _ v hv hk
  obtain ⟨w, hw, hsame⟩ := same_lookup h hk
  rwa [eq_of_isNumber hsame hv] at hw

/-- The names that a field is derived from, and its own. -/
def Involved (sources : List Key) (r : Rule F) (k : Key) : Prop := k ∈ sources ∨ k = r.new_key

/-- The field is there, with the value that the rule gives it. -/
def Stored (r : Rule F) (d : List (Key × Val F)) : Prop :=
  ∃ w, r.value (fun k => d.lookup k) = some w ∧ d.lookup r.new_key = some w

theorem Stored.numbers (h : Stored r d) (hr : Sourced sources r)
    (hnum : Numbers (Involved sources r) d e) : Stored r e := by
  obtain ⟨w, hvalue, hlookup⟩ := h
  refine ⟨w, hr.value (fun k hk => hnum k (.inl hk)) hvalue, ?_⟩
  exact hnum _ (.inr rfl) w (hr.number hvalue) hlookup

/-! ## Section 2: The fields of a sample -/

theorem find?_eq_some {k : Key} (h : rules.find? (·.datakey = k) = some r) :
    r ∈ rules ∧ r.datakey = k :=
  ⟨List.mem_of_find?_eq_some h, by simpa using List.find?_some h⟩

/-- The field that is derived from `k`, if there is one, and its label are there. -/
def Derived (rules : List (Rule F)) (labels : Val F) (d : List (Key × Val F)) (k : Key) : Prop :=
  ∀ r, rules.find? (·.datakey = k) = some r → contains labels r.new_key = some true ∧ Stored r d

def Fields (rules : List (Rule F)) (labels sample : Val F) : Prop :=
  ∃ d, sample = .dict d ∧ ∀ k ∈ Dict.keys d, Derived rules labels d k

/-- The names that the fields of a sample are derived from, and their own. -/
def Concerned (sources : List Key) (rules : List (Rule F)) (k : Key) : Prop :=
  k ∈ sources ∨ ∃ r ∈ rules, k = r.new_key

theorem Fields.numbers (h : Fields rules l (.dict d)) (hrules : Separate sources rules)
    (hgrows : Grows l l') (hkeys : ∀ k ∈ sources, k ∈ Dict.keys e → k ∈ Dict.keys d)
    (hnum : Numbers (Concerned sources rules) d e) : Fields rules l' (.dict e) := by
  obtain ⟨d', heq, hd⟩ := h
  obtain rfl := Val.dict.inj heq
  refine ⟨e, rfl, fun k hk r hr => ?_⟩
  obtain ⟨hmem, hkey⟩ := find?_eq_some hr
  have hsource : k ∈ sources := hkey ▸ hrules.datakey r hmem
  obtain ⟨hlabel, hstored⟩ := hd k (hkeys k hsource hk) r hr
  refine ⟨hgrows.has hlabel, hstored.numbers (hrules.sourced r hmem) fun j hj => hnum j ?_⟩
  exact hj.imp id fun hj => ⟨r, hmem, hj⟩

theorem fields_mono (h : Fields rules l x) (hgrows : Grows l l') : Fields rules l' x := by
  obtain ⟨d, hd, hall⟩ := h
  refine ⟨d, hd, fun k hk r hr => ?_⟩
  obtain ⟨hlabel, hstored⟩ := hall k hk r hr
  exact ⟨hgrows.has hlabel, hstored⟩

theorem fields_same (hrules : Separate sources rules) (hl : Same l' l) (hx : Same x' x)
    (h : Fields rules l x) : Fields rules l' x' := by
  obtain ⟨d, rfl, hall⟩ := h
  cases hx with
  | @dict e _ hkeys hvalues =>
    have hsame : Same (.dict e) (.dict d) := .dict hkeys hvalues
    refine ⟨e, rfl, fun k hk r hr => ?_⟩
    obtain ⟨hlabel, hstored⟩ := hall k ((hkeys k).mp hk) r hr
    obtain ⟨hmem, -⟩ := find?_eq_some hr
    exact ⟨(contains_same hl _).trans hlabel,
      hstored.numbers (hrules.sourced r hmem) (numbers_of_same _ hsame)⟩

/-! ## Section 3: One field -/

theorem add_label_spec (hstr : r.new_key.isStr = true)
    (hplain : ∀ {m v}, r.label m = some v → Plain m → Plain v) (h : add_label r l = some l') :
    Grows l l' ∧ contains l' r.new_key = some true := by
  obtain ⟨b, hb, h⟩ := Option.bind_eq_some_iff.mp h
  cases b with
  | true => exact Option.some.inj h ▸ ⟨.refl l, hb⟩
  | false =>
    obtain ⟨v, hv, hset⟩ := Option.bind_eq_some_iff.mp h
    exact ⟨.of_setitem hb hstr (hplain hv) hset, contains_of_getitem (getitem_setitem hset)⟩

/-- What holds when the fields derived from `done` have been set; `d₀` and `l₀` are
    the sample and the labels at the start. -/
structure Deriving (rules : List (Rule F)) (done : List Key) (d₀ : List (Key × Val F)) (l₀ : Val F)
    (s : List (Key × Val F) × Val F) : Prop where
  grows : Grows l₀ s.2
  plain : Plain (.dict d₀) → Plain (.dict s.1)
  keys : ∀ k ∈ Dict.keys s.1, k ∈ Dict.keys d₀ ∨ ∃ r ∈ rules, k = r.new_key
  other : ∀ k, (∀ r ∈ rules, k ≠ r.new_key) → s.1.lookup k = d₀.lookup k
  derived : ∀ k ∈ done, Derived rules s.2 s.1 k

theorem deriving_start (d : List (Key × Val F)) (l : Val F) : Deriving rules [] d l (d, l) where
  grows := .refl l
  plain := id
  keys _ := .inl
  other _ _ := rfl
  derived := by simp

/-- A stored field survives the assignment of another one. -/
theorem stored_insert {r' : Rule F} (hrules : Separate sources rules) (hr : r ∈ rules)
    (hr' : r' ∈ rules) (hne : r'.datakey ≠ r.datakey) {w : Val F} (h : Stored r' d) :
    Stored r' (Dict.insert r.new_key w d) := by
  refine h.numbers (hrules.sourced r' hr') fun k hk v _ hlookup => ?_
  have hkey : r.new_key ≠ k := by
    rintro rfl
    rcases hk with hk | hk
    · exact hrules.new_key r hr hk
    · exact hne (hrules.inj r' hr' r hr hk.symm)
  rwa [Dict.lookup_insert_of_ne hkey]

theorem deriving_field {done : List Key} {d₀ : List (Key × Val F)} {l₀ : Val F}
    {s s' : List (Key × Val F) × Val F} {k : Key} (hrules : Separate sources rules)
    (hs : Deriving rules done d₀ l₀ s) (h : derive_field rules s k = some s') :
    Deriving rules (done ++ [k]) d₀ l₀ s' := by
  unfold derive_field at h
  split at h
  · next hnone =>
    -- nothing is derived from `k`
    obtain rfl := Option.some.inj h
    refine { hs with derived := fun j hj => ?_ }
    rcases List.mem_append.mp hj with hj | hj
    · exact hs.derived j hj
    · intro r hr
      rw [List.mem_singleton.mp hj, hnone] at hr
      cases hr
  · next r hr =>
    obtain ⟨m, hm, h⟩ := Option.bind_eq_some_iff.mp h
    obtain ⟨w, hw, h⟩ := Option.bind_eq_some_iff.mp h
    obtain rfl := Option.some.inj h
    obtain ⟨hmem, hkey⟩ := find?_eq_some hr
    have hsourced := hrules.sourced r hmem
    obtain ⟨hgrows, hlabel⟩ := add_label_spec (hrules.isStr r hmem) (hrules.label r hmem) hm
    have hstored : Stored r (Dict.insert r.new_key w s.1) := by
      refine ⟨w, hsourced.value (fun j hj v _ hlookup => ?_) hw, Dict.lookup_insert_self _ _ _⟩
      have hne : r.new_key ≠ j := fun heq => hrules.new_key r hmem (heq ▸ hj)
      rwa [Dict.lookup_insert_of_ne hne]
    constructor
    · exact hs.grows.trans hgrows
    · exact fun hplain => plain_insert (hs.plain hplain) (hrules.isStr r hmem)
        (plain_of_isNumber (hsourced.number hw))
    · intro j hj
      rw [Dict.keys_insert] at hj
      split at hj
      · exact hs.keys j hj
      · rcases List.mem_append.mp hj with hj | hj
        · exact hs.keys j hj
        · exact .inr ⟨r, hmem, List.mem_singleton.mp hj⟩
    · intro j hj
      rw [Dict.lookup_insert_of_ne (hj r hmem).symm]
      exact hs.other j hj
    · intro j hj r' hr'
      by_cases hjk : j = k
      · -- the field that has just been set
        rw [hjk, hr, Option.some.injEq] at hr'
        exact hr' ▸ ⟨hlabel, hstored⟩
      · have hdone : j ∈ done := (List.mem_append.mp hj).resolve_right
          fun h => hjk (List.mem_singleton.mp h)
        obtain ⟨hmem', hkey'⟩ := find?_eq_some hr'
        obtain ⟨hlabel', hstored'⟩ := hs.derived j hdone r' hr'
        have hne : r'.datakey ≠ r.datakey := fun heq => hjk (hkey'.symm.trans (heq.trans hkey))
        exact ⟨hgrows.has hlabel', stored_insert hrules hmem hmem' hne hstored'⟩

theorem deriving_fields {ks done : List Key} {d₀ : List (Key × Val F)} {l₀ : Val F}
    {s s' : List (Key × Val F) × Val F} (hrules : Separate sources rules)
    (hs : Deriving rules done d₀ l₀ s) (h : ks.foldlM (derive_field rules) s = some s') :
    Deriving rules (done ++ ks) d₀ l₀ s' := by
  induction ks generalizing done s with
  | nil => rwa [List.append_nil, ← Option.some.inj h]
  | cons k ks ih =>
    obtain ⟨t, ht, h⟩ := Option.bind_eq_some_iff.mp h
    have hnext := ih (deriving_field hrules hs ht) h
    rwa [List.append_assoc] at hnext

/-! ## Section 4: One sample -/

/-- What the body of the loop does with a sample. -/
structure Filled (rules : List (Rule F)) (l' x x' : Val F) : Prop where
  fields : Fields rules l' x'
  plain : Plain x → Plain x'
  dicts : ∃ d e, x = .dict d ∧ x' = .dict e ∧
    (∀ k ∈ Dict.keys e, k ∈ Dict.keys d ∨ ∃ r ∈ rules, k = r.new_key) ∧
    ∀ k, (∀ r ∈ rules, k ≠ r.new_key) → e.lookup k = d.lookup k

theorem derive_fields_spec (hrules : Separate sources rules) {o : Order}
    (h : derive_fields o rules x l = some (x', l')) : Grows l l' ∧ Filled rules l' x x' := by
  unfold derive_fields at h
  split at h
  · next d =>
    obtain ⟨⟨e, m⟩, hfold, heq⟩ := Option.map_eq_some_iff.mp h
    obtain ⟨rfl, rfl⟩ := Prod.mk.inj heq
    have hend := deriving_fields hrules (deriving_start d l) hfold
    refine ⟨hend.grows, ⟨e, rfl, fun k hk r hr => ?_⟩, hend.plain,
      d, e, rfl, rfl, hend.keys, hend.other⟩
    obtain ⟨hmem, hkey⟩ := find?_eq_some hr
    refine hend.derived k ?_ r hr
    rw [List.nil_append, (Dict.keys_perm (o.perm d)).mem_iff]
    -- what fields are derived from was there at the start
    refine (hend.keys k hk).resolve_right ?_
    rintro ⟨r', hmem', rfl⟩
    exact hrules.new_key r' hmem' (hkey ▸ hrules.datakey r hmem)
  · cases h

theorem derive_fields_neutral {o : Order} (h : Fields rules l x) :
    derive_fields o rules x l = some (x, l) := by
  obtain ⟨d, rfl, hd⟩ := h
  have hfold : ∀ ks : List Key, (∀ k ∈ ks, Derived rules l d k) →
      ks.foldlM (derive_field rules) (d, l) = some (d, l) := by
    intro ks hks
    induction ks with
    | nil => rfl
    | cons k ks ih =>
      rw [List.forall_mem_cons] at hks
      have hfield : derive_field rules (d, l) k = some (d, l) := by
        unfold derive_field
        split
        · rfl
        · next r hr =>
          obtain ⟨hlabel, w, hvalue, hlookup⟩ := hks.1 r hr
          simp [add_label, hlabel, hvalue, Dict.insert_of_lookup hlookup]
      rw [List.foldlM_cons, hfield]
      exact ih hks.2
  rw [derive_fields, hfold _ fun k hk => hd k ((Dict.keys_perm (o.perm d)).mem_iff.mp hk),
    Option.map_some]

end PostProcess
