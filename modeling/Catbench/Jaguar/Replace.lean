import Catbench.Jaguar.Lookup

/-! # What a successful `set` does

    `pathlookup` with a replacement converts the text once, perhaps twice, and
    puts the value at the end of the path: it goes through the containers that
    are there, and through new ones from the first level on at which there is
    none (`Puts`).  `replace_levels_eq_ok` reduces every successful call to that.
-/

open Json

namespace Jaguar

variable {F : Type}

/-! ## Section 1: Conversions give plain values -/

/-- Both ways of packing the cells of a line. -/
def PacksPlain (pack : List (Val F) → Py (Val F)) : Prop :=
  ∀ values s v s', (∀ x ∈ values, Plain x) → pack values s = (.ok v, s') → Plain v

theorem packsPlain_dontpackunstructured (keys : List Text) :
    PacksPlain (F := F) (dontpackunstructured keys) := by
  intro values s v s' hall h
  unfold dontpackunstructured at h
  split at h
  · exact absurd h Py.raise_ne_ok
  · obtain ⟨rfl, -⟩ := Py.pure_eq_ok.mp h
    exact hall _ (by simp)
  · exact absurd h Py.raise_ne_ok

theorem packsPlain_actuallypackstructured (keys : List Text) :
    PacksPlain (F := F) (actuallypackstructured keys) := by
  intro values s v s' hall h
  obtain ⟨rfl, -⟩ := Py.pure_eq_ok.mp h
  refine .ofPairs fun p hp => ?_
  obtain ⟨q, hq, rfl⟩ := List.mem_map.mp hp
  exact ⟨rfl, hall q.2 (List.of_mem_zip hq).2⟩

section conversions

variable [FloatFormat F]

/-- A scalar is plain, and read back as it is. -/
theorem scalar_eq_ok {typ : Typ} {t s s' : Text} {v : Val F}
    (h : typ.scalar t s = (.ok v, s')) : Plain v ∧ reload v = v := by
  -- What a conversion returns without an exception.
  have hpure : ∀ {w : Val F}, Plain w → reload w = w →
      (pure w : Py (Val F)) s = (.ok v, s') → Plain v ∧ reload v = v := by
    intro w hw hreload heq
    obtain ⟨rfl, -⟩ := Py.pure_eq_ok.mp heq
    exact ⟨hw, hreload⟩
  cases typ with
  | string =>
    obtain ⟨u, s₁, -, h⟩ := Py.bind_eq_ok.mp h
    obtain ⟨rfl, -⟩ := Py.pure_eq_ok.mp h
    exact ⟨.str _, by rw [reload]⟩
  | integer =>
    unfold Typ.scalar at h
    cases hz : int t with
    | some z => rw [hz] at h; exact hpure (.int z) (by rw [reload]) h
    | none => rw [hz] at h; exact absurd h Py.raise_ne_ok
  | fraction =>
    unfold Typ.scalar at h
    cases hx : (FloatFormat.float t : Option (PyFloat F)) with
    | some x => simp only [hx] at h; exact hpure (.float x) (by rw [reload]) h
    | none => simp only [hx] at h; exact absurd h Py.raise_ne_ok
  | boolean =>
    unfold Typ.scalar at h
    dsimp only at h
    split_ifs at h
    · exact hpure (.bool true) (by rw [reload]) h
    · exact hpure (.bool false) (by rw [reload]) h
    · exact absurd h Py.raise_ne_ok
  | dict =>
    unfold Typ.scalar at h
    dsimp only at h
    split_ifs at h
    · exact hpure (.dict (by simp) (by simp) (by simp)) rfl h
    · exact absurd h Py.raise_ne_ok
  | array | none_type => exact absurd h Py.raise_ne_ok

theorem plain_convertcells {types : List Typ} {xs : List Text} {s s' : Text} {vs : List (Val F)}
    (h : convertcells types xs s = (.ok vs, s')) : ∀ v ∈ vs, Plain v := by
  induction types, xs using convertcells.induct generalizing vs s s' with
  | case1 types =>
    rw [convertcells] at h
    obtain ⟨rfl, -⟩ := Py.pure_eq_ok.mp h
    simp
  | case2 x xs => exact absurd h Py.raise_ne_ok
  | case3 typ types x xs ih =>
    rw [convertcells] at h
    obtain ⟨v, s₁, hv, h⟩ := Py.bind_eq_ok.mp h
    obtain ⟨vs', s₂, hvs, h⟩ := Py.bind_eq_ok.mp h
    obtain ⟨rfl, -⟩ := Py.pure_eq_ok.mp h
    intro w hw
    rcases List.mem_cons.mp hw with rfl | hw
    · exact (scalar_eq_ok hv).1
    · exact ih hvs w hw

theorem plain_packlines {pack : List (Val F) → Py (Val F)} (hpack : PacksPlain pack)
    {types : List Typ} {lines : List Text} {s s' : Text} {vs : List (Val F)}
    (h : packlines pack types lines s = (.ok vs, s')) : ∀ v ∈ vs, Plain v := by
  induction lines generalizing vs s s' with
  | nil =>
    obtain ⟨rfl, -⟩ := Py.pure_eq_ok.mp h
    simp
  | cons line lines ih =>
    rw [packlines] at h
    obtain ⟨values, s₁, hvalues, h⟩ := Py.bind_eq_ok.mp h
    obtain ⟨v, s₂, hv, h⟩ := Py.bind_eq_ok.mp h
    obtain ⟨vs', s₃, hvs, h⟩ := Py.bind_eq_ok.mp h
    obtain ⟨rfl, -⟩ := Py.pure_eq_ok.mp h
    intro w hw
    rcases List.mem_cons.mp hw with rfl | hw
    · exact hpack _ _ _ _ (plain_convertcells hvalues) hv
    · exact ih hvs w hw

theorem plain_arrayfromcsv {files : Text → File} {fname s s' : Text} {vs : List (Val F)}
    (h : arrayfromcsv files fname s = (.ok vs, s')) : ∀ v ∈ vs, Plain v := by
  unfold arrayfromcsv at h
  -- The header only decides the types and how the cells are packed.
  obtain ⟨lines, s₁, -, h⟩ := Py.bind_eq_ok.mp h
  obtain ⟨first, s₂, -, h⟩ := Py.bind_eq_ok.mp h
  obtain ⟨header, s₃, -, h⟩ := Py.bind_eq_ok.mp h
  obtain ⟨types, s₄, -, h⟩ := Py.bind_eq_ok.mp h
  by_cases harray : Typ.array ∈ types
  · rw [if_pos harray] at h
    exact absurd h Py.raise_ne_ok
  · rw [if_neg harray] at h
    obtain ⟨keys, s₅, -, h⟩ := Py.bind_eq_ok.mp h
    refine plain_packlines ?_ h
    split_ifs
    · exact packsPlain_dontpackunstructured _
    · exact packsPlain_actuallypackstructured _

theorem plain_call {files : Text → File} {typ : Typ} {t s s' : Text} {v : Val F}
    (h : typ.call files t s = (.ok v, s')) : Plain v := by
  unfold Typ.call at h
  split at h
  · obtain ⟨xs, s₁, hxs, h⟩ := Py.bind_eq_ok.mp h
    obtain ⟨rfl, -⟩ := Py.pure_eq_ok.mp h
    exact .list (plain_arrayfromcsv hxs)
  · exact (scalar_eq_ok h).1

end conversions

/-! ## Section 2: Putting a value -/

/-- A list or a dictionary. -/
def Container (v : Val F) : Prop := (is_list v || is_dict v) = true

instance (v : Val F) : Decidable (Container v) := inferInstanceAs (Decidable (_ = true))

/-- The container that is created before a subscript. -/
def fresh : Key → Val F
  | .int _ => .list []
  | .str _ => .dict []

/-- The container that a level leads to: the one that is there, or a new one for
    the next subscript. -/
def descend (ref : Val F) (k next : Key) : Val F :=
  match getitem ref k with
  | .ok v => if Container v then v else fresh next
  | .error _ => fresh next

/-- `ref'` is `ref` with `v` put at the end of the path. -/
inductive Puts (v : Val F) : Val F → List Key → Val F → Prop where
  | last {ref ref' : Val F} {k : Key} (hassign : elementassignormaybeappend ref k v = .ok ref')
      (hget : getitem ref' k = .ok v) : Puts v ref [k] ref'
  | level {ref inner ref' : Val F} {k next : Key} {ks : List Key}
      -- No index is added to a dictionary on the way.
      (hkind : (∃ w, getitem ref k = .ok w) ∨ ∀ d, ref = .dict d → k.isStr = true)
      (hinner : Puts v (descend ref k next) (next :: ks) inner)
      (hassign : elementassignormaybeappend ref k inner = .ok ref')
      (hget : getitem ref' k = .ok inner) : Puts v ref (k :: next :: ks) ref'

/-- The path ends in an index, which meets the dictionary `d`. -/
def Misplaced (ref : Val F) (ks : List Key) (d : List (Key × Val F)) : Prop :=
  ∃ pre i, ks = pre ++ [.int i] ∧ resolve ref pre = some (.dict d)

theorem getitem_fresh (next k : Key) (v : Val F) : getitem (fresh next) k ≠ .ok v := by
  intro h
  cases next with
  | str s => simpa using getitem_dict.mp h
  | int i =>
    rcases getitem_cases h with ⟨d, hd, -⟩ | ⟨xs, j, n, hxs, -, -, hv⟩ | ⟨s, t, hs, -⟩
    · cases hd
    · cases hxs
      simp at hv
    · cases hs

theorem plain_fresh (next : Key) : Plain (fresh next : Val F) := by
  cases next with
  | str s => exact .dict (by simp) (by simp) (by simp)
  | int i => exact .list (by simp)

theorem descend_of_container {ref v : Val F} {k : Key} (next : Key) (h : getitem ref k = .ok v)
    (hv : Container v) : descend ref k next = v := by
  unfold descend
  simp only [h, if_pos hv]

theorem descend_cases (ref : Val F) (k next : Key) :
    (∃ v, getitem ref k = .ok v ∧ Container v ∧ descend ref k next = v) ∨
    descend ref k next = fresh next := by
  unfold descend
  cases getitem ref k with
  | error e => exact .inr rfl
  | ok v =>
    by_cases hv : Container v
    · exact .inl ⟨v, rfl, hv, if_pos hv⟩
    · exact .inr (if_neg hv)

theorem plain_descend {ref : Val F} (h : Plain ref) (k next : Key) : Plain (descend ref k next) := by
  rcases descend_cases ref k next with ⟨v, hv, -, heq⟩ | heq
  · rw [heq]
    exact plain_getitem h hv
  · rw [heq]
    exact plain_fresh next

/-- Only containers are on the way to a container. -/
theorem container_of_resolve {v c : Val F} {ks : List Key} (h : resolve v ks = some c)
    (hc : Container c) : Container v := by
  cases v with
  | list xs => rfl
  | dict d => rfl
  -- A string has elements, but only strings.
  | str s =>
    obtain ⟨t, rfl⟩ := resolve_str h
    cases hc
  | null | bool b | int z | float x =>
    cases ks with
    | nil =>
      obtain rfl := Option.some.inj h
      cases hc
    | cons k ks =>
      obtain ⟨w, hw, -⟩ := resolve_cons.mp h
      cases hw

theorem misplaced_singleton {ref : Val F} {k : Key} {d : List (Key × Val F)} :
    Misplaced ref [k] d ↔ ref = .dict d ∧ ∃ i, k = .int i := by
  constructor
  · rintro ⟨pre, i, heq, hpre⟩
    obtain ⟨rfl, hk⟩ := List.append_eq_singleton_iff.mp heq.symm |>.resolve_right (by simp)
    exact ⟨Option.some.inj hpre, i, (List.cons.inj hk).1.symm⟩
  · rintro ⟨rfl, i, rfl⟩
    exact ⟨[], i, rfl, rfl⟩

/-- A misplaced index is reached through the containers that are there. -/
theorem misplaced_cons {ref : Val F} {k next : Key} {ks : List Key} {d : List (Key × Val F)} :
    Misplaced ref (k :: next :: ks) d ↔ Misplaced (descend ref k next) (next :: ks) d := by
  constructor
  · rintro ⟨pre, i, heq, hpre⟩
    cases pre with
    | nil => simp at heq
    | cons k' pre =>
      obtain ⟨rfl, htail⟩ := List.cons.inj heq
      obtain ⟨v, hv, hpre⟩ := resolve_cons.mp hpre
      rw [descend_of_container next hv (container_of_resolve hpre rfl)]
      exact ⟨pre, i, htail, hpre⟩
  · rintro ⟨pre, i, heq, hpre⟩
    rcases descend_cases ref k next with ⟨v, hv, -, hd⟩ | hd
    · rw [hd] at hpre
      exact ⟨k :: pre, i, by rw [heq]; rfl, resolve_cons.mpr ⟨v, hv, hpre⟩⟩
    · rw [hd] at hpre
      -- A new container has no elements, and suits the next subscript.
      cases pre with
      | nil =>
        obtain ⟨rfl, -⟩ := List.cons.inj heq
        cases hpre
      | cons k' pre =>
        obtain ⟨v, hv, -⟩ := resolve_cons.mp hpre
        exact absurd hv (getitem_fresh next k' v)

/-- A misplaced index is not in the document. -/
theorem Misplaced.resolve_ne {ref : Val F} {ks : List Key} {d : List (Key × Val F)}
    (h : Misplaced ref ks d) (hplain : Plain ref) (v : Val F) : resolve ref ks ≠ some v := by
  obtain ⟨pre, i, rfl, hpre⟩ := h
  intro hv
  obtain ⟨w, hw, hv⟩ := resolve_append.mp hv
  obtain rfl := Option.some.inj (hpre.symm.trans hw)
  -- A dictionary that was read has no integer key.
  obtain ⟨u, hu, -⟩ := resolve_cons.mp hv
  have hmem := Dict.mem_keys_of_mem (Dict.mem_of_lookup (getitem_dict.mp hu))
  cases (plain_resolve hplain hpre).plainKeys.1 _ hmem

namespace Puts

variable {v ref ref' : Val F} {ks : List Key}

theorem resolve_eq (h : Puts v ref ks ref') : resolve ref' ks = some v := by
  induction h with
  | last _ hget => exact resolve_cons.mpr ⟨v, hget, rfl⟩
  | level _ _ _ hget ih => exact resolve_cons.mpr ⟨_, hget, ih⟩

/-- The key of a level is a string if it meets a dictionary. -/
theorem isStr_of_kind {k : Key} (hplain : PlainKeys ref)
    (hkind : (∃ w, getitem ref k = .ok w) ∨ ∀ d, ref = .dict d → k.isStr = true) :
    ∀ d, ref = .dict d → k.isStr = true := by
  rintro d rfl
  rcases hkind with ⟨w, hw⟩ | hkind
  · exact hplain.1 k (Dict.mem_keys_of_mem (Dict.mem_of_lookup (getitem_dict.mp hw)))
  · exact hkind d rfl

theorem plain (h : Puts v ref ks ref') (hplain : Plain ref) (hv : Plain v)
    (hmis : ∀ d, ¬Misplaced ref ks d) : Plain ref' := by
  induction h with
  | @last ref ref' k hassign _ =>
    -- Only here an index might meet a dictionary.
    refine plain_assign hplain hv (fun d hd => ?_) hassign
    cases k with
    | str s => rfl
    | int i => exact absurd (misplaced_singleton.mpr ⟨hd, i, rfl⟩) (hmis d)
  | level hkind _ hassign _ ih =>
    have hinner := ih (plain_descend hplain _ _) fun d hd => hmis d (misplaced_cons.mpr hd)
    exact plain_assign hplain hinner (isStr_of_kind hplain.plainKeys hkind) hassign

/-- An index among the keys of an object cannot be written. -/
theorem not_sorts (h : Puts v ref ks ref') (hplain : Plain ref) {d : List (Key × Val F)}
    (hmis : Misplaced ref ks d) (hne : d ≠ []) : ¬Sorts ref' := by
  induction h with
  | @last ref ref' k hassign _ =>
    obtain ⟨rfl, i, rfl⟩ := misplaced_singleton.mp hmis
    obtain rfl := Except.ok.inj hassign
    exact not_sorts_insert_int hplain.plainKeys hne i v
  | level _ _ _ hget ih =>
    intro hsorts
    exact ih (plain_descend hplain _ _) (misplaced_cons.mp hmis) (sorts_getitem hsorts hget)

/-- An index in an empty object can be written. -/
theorem sorts (h : Puts v ref ks ref') (hplain : Plain ref) (hv : Sorts v)
    (hmis : Misplaced ref ks []) : Sorts ref' := by
  induction h with
  | @last ref ref' k hassign _ =>
    obtain ⟨rfl, i, rfl⟩ := misplaced_singleton.mp hmis
    refine sorts_assign hplain.sorts hv ?_ hassign
    obtain rfl := Except.ok.inj hassign
    rfl
  | @level ref inner ref' k next ks hkind _ hassign _ ih =>
    have hinner := ih (plain_descend hplain _ _) (misplaced_cons.mp hmis)
    have hkeys := plainKeys_assign hplain.plainKeys (isStr_of_kind hplain.plainKeys hkind) hassign
    exact sorts_assign hplain.sorts hinner hkeys.sortsKeys hassign

/-- An index in an empty object is written as a string, and not found again. -/
theorem resolve_reload_misplaced (h : Puts v ref ks ref') (hplain : Plain ref)
    (hmis : Misplaced ref ks []) : resolve (reload ref') ks = none := by
  induction h with
  | @last ref ref' k hassign _ =>
    -- `{i: v}` is read back as `{"i": v}`.
    obtain ⟨rfl, i, rfl⟩ := misplaced_singleton.mp hmis
    obtain rfl := Except.ok.inj hassign
    rfl
  | @level ref inner ref' k next ks hkind _ hassign hget ih =>
    have hkeys := plainKeys_assign hplain.plainKeys (isStr_of_kind hplain.plainKeys hkind) hassign
    rw [resolve, getitem_reload hkeys, hget]
    exact ih (plain_descend hplain _ _) (misplaced_cons.mp hmis)

end Puts

/-! ## Section 3: `pathlookup` puts -/

theorem add_container_eq_ok {first : Bool} {typ : Option Typ} {ref ref₁ : Val F} {k knext : Key}
    {next : Text} (hnext : indexfromsubscript next = .ok knext)
    (h : add_container first typ ref k next = .ok ref₁) :
    suits first ref k = true ∧ typ ≠ none ∧
      elementassignormaybeappend ref k (fresh knext) = .ok ref₁ := by
  unfold add_container at h
  split_ifs at h with hsuits htyp
  rw [hnext] at h
  refine ⟨by simpa using hsuits, htyp, ?_⟩
  cases knext with
  | str s => exact h
  | int i => exact h

/-- After that, the container that the level leads to is at the subscript. -/
theorem ensure_container_eq_ok {first : Bool} {typ : Option Typ} {ref ref₁ inner : Val F}
    {k knext : Key} {next : Text} (hnext : indexfromsubscript next = .ok knext)
    (h : ensure_container first typ ref k next = .ok ref₁) (hinner : getitem ref₁ k = .ok inner) :
    inner = descend ref k knext ∧
      (ref₁ = ref ∨ suits first ref k = true ∧ typ ≠ none ∧
        elementassignormaybeappend ref k inner = .ok ref₁) := by
  -- A missing element and a scalar are handled alike.
  have hadd : descend ref k knext = fresh knext → add_container first typ ref k next = .ok ref₁ →
      inner = descend ref k knext ∧ (ref₁ = ref ∨ suits first ref k = true ∧ typ ≠ none ∧
        elementassignormaybeappend ref k inner = .ok ref₁) := by
    intro hd hadd
    obtain ⟨hsuits, htyp, hassign⟩ := add_container_eq_ok hnext hadd
    obtain rfl := getitem_assign hassign hinner
    exact ⟨hd.symm, .inr ⟨hsuits, htyp, hassign⟩⟩
  unfold ensure_container at h
  cases hget : getitem ref k with
  | error e =>
    have hd : descend ref k knext = fresh knext := by simp only [descend, hget]
    rw [hget] at h
    cases e with
    | type_error => cases h
    | value_error | lookup_error | exit => exact hadd hd h
  | ok v =>
    rw [hget] at h
    by_cases hv : Container v
    · obtain rfl := Except.ok.inj ((if_pos hv).symm.trans h)
      obtain rfl := Except.ok.inj (hget.symm.trans hinner)
      exact ⟨(descend_of_container knext hget hv).symm, .inl rfl⟩
    · have hd : descend ref k knext = fresh knext := by simp only [descend, hget, if_neg hv]
      exact hadd hd ((if_neg hv).symm.trans h)

theorem isStr_of_suits {first : Bool} {ref : Val F} {k : Key} (h : suits first ref k = true) :
    ∀ d, ref = .dict d → k.isStr = true := by
  rintro d rfl
  cases k with
  | str s => rfl
  | int i => simp [suits, is_list] at h

/-- The type that was given, or that of the element that is there. -/
def Infers (typ : Option Typ) (ref : Val F) (ks : List Key) (t : Typ) : Prop :=
  typ = some t ∨ typ = none ∧ ∃ old, resolve ref ks = some old ∧ t = filtered_type old

section replace

variable [FloatFormat F] {files : Text → File} {replace : Text}

/-- How a successful replacement came about: by a conversion, whose type was
    given or inferred, and by putting its value.  A misplaced index only comes
    with the first of the conversions. -/
structure Replaced (files : Text → File) (replace : Text) (typ : Option Typ) (s : Text)
    (ref : Val F) (ks : List Key) (ref' : Val F) (t : Typ) (v : Val F) : Prop where
  call : ∃ s₁ s₂, t.call files replace s₁ = (.ok v, s₂) ∧ ∀ d, Misplaced ref ks d → s₁ = s
  inferred : Infers typ ref ks t
  puts : Puts v ref ks ref'

/-- The second conversion is only made where the subscript suits. -/
theorem add_entry_eq_ok {first : Bool} {typ : Option Typ} {ref ref' : Val F} {k : Key} {s s' : Text}
    (h : add_entry files replace first typ ref k s = (.ok ref', s')) :
    suits first ref k = true ∧ ∃ t v s₁, typ = some t ∧ t.call files replace s = (.ok v, s₁) ∧
      setitem ref k v = .ok ref' := by
  unfold add_entry at h
  by_cases hsuits : suits first ref k = true
  · simp only [hsuits, Bool.not_true, Bool.false_eq_true, if_false] at h
    cases typ with
    | none => exact absurd h Py.raise_ne_ok
    | some t =>
      obtain ⟨res, s₁, hres, h⟩ := Py.bind_eq_ok.mp h
      rw [Py.attempt_eq_ok] at hres
      cases res with
      | error e => cases e <;> exact absurd h Py.raise_ne_ok
      | ok v =>
        obtain ⟨ref₁, s₂, hset, h⟩ := Py.bind_eq_ok.mp h
        obtain ⟨w, s₃, -, h⟩ := Py.bind_eq_ok.mp h
        obtain ⟨rfl, -⟩ := Py.pure_eq_ok.mp h
        exact ⟨hsuits, t, v, s₁, rfl, hres, (Py.ofExcept_eq_ok.mp hset).1⟩
  · rw [Bool.not_eq_true] at hsuits
    simp only [hsuits, Bool.not_false, if_true] at h
    exact absurd h Py.raise_ne_ok

/-- The handler leaves what the assignment would, also after one was made. -/
theorem replaced_add_entry {first : Bool} {t : Typ} {typ : Option Typ} {ref ref₁ ref' : Val F}
    {k : Key} {s s₁ s' : Text} (htyp : Infers typ ref [k] t)
    (href : ref₁ = ref ∨ ∃ v, elementassignormaybeappend ref k v = .ok ref₁)
    (h : add_entry files replace first (some t) ref₁ k s₁ = (.ok ref', s')) :
    ∃ t v, Replaced files replace typ s ref [k] ref' t v := by
  obtain ⟨hsuits, t', v, s₂, ht, hcall, hset⟩ := add_entry_eq_ok h
  obtain rfl := Option.some.inj ht
  -- The handler checks the kind of the container, so no index is misplaced.
  have hmis : ∀ d, ¬Misplaced ref [k] d := by
    intro d hmis
    obtain ⟨rfl, i, rfl⟩ := misplaced_singleton.mp hmis
    rcases href with rfl | ⟨w, hw⟩
    · simp [suits, is_list] at hsuits
    · obtain rfl := Except.ok.inj hw
      simp [suits, is_list] at hsuits
  have hassign : elementassignormaybeappend ref k v = .ok ref' := by
    rcases href with rfl | ⟨w, hw⟩
    · exact assign_of_setitem hset
    · exact assign_setitem hw hset
  exact ⟨t, v, ⟨s₁, s₂, hcall, fun d hd => absurd hd (hmis d)⟩, htyp,
    .last hassign (getitem_setitem hset)⟩

theorem replaced_convert_last {first : Bool} {t : Typ} {typ : Option Typ} {ref ref' : Val F}
    {k : Key} {s s' : Text} (htyp : Infers typ ref [k] t)
    (h : convert_last files replace first t ref k s = (.ok ref', s')) :
    ∃ t v, Replaced files replace typ s ref [k] ref' t v := by
  unfold convert_last at h
  obtain ⟨res, s₁, hres, h⟩ := Py.bind_eq_ok.mp h
  rw [Py.attempt_eq_ok] at hres
  -- Of the exceptions, only `LookupError` reaches the handler.
  cases res with
  | error e =>
    cases e with
    | lookup_error => exact replaced_add_entry htyp (.inl rfl) h
    | value_error | type_error | exit => exact absurd h Py.raise_ne_ok
  | ok v =>
    dsimp only at h
    cases hassign : elementassignormaybeappend ref k v with
    | error e =>
      rw [hassign] at h
      cases e with
      | lookup_error => exact replaced_add_entry htyp (.inl rfl) h
      | value_error | type_error | exit => exact absurd h Py.raise_ne_ok
    | ok ref₁ =>
      rw [hassign] at h
      dsimp only at h
      cases hget : getitem ref₁ k with
      | error e =>
        rw [hget] at h
        cases e with
        | lookup_error => exact replaced_add_entry htyp (.inr ⟨v, hassign⟩) h
        | value_error | type_error | exit => exact absurd h Py.raise_ne_ok
      | ok w =>
        rw [hget] at h
        obtain ⟨rfl, -⟩ := Py.pure_eq_ok.mp h
        obtain rfl := getitem_assign hassign hget
        exact ⟨t, w, ⟨s, s₁, hres, fun _ _ => rfl⟩, htyp, .last hassign hget⟩

theorem replaced_assign_last {first : Bool} {typ : Option Typ} {ref ref' : Val F} {k : Key}
    {s s' : Text} (h : assign_last files replace first typ ref k s = (.ok ref', s')) :
    ∃ t v, Replaced files replace typ s ref [k] ref' t v := by
  unfold assign_last at h
  cases typ with
  | some t => exact replaced_convert_last (.inl rfl) h
  | none =>
    dsimp only at h
    -- Without a type, the handler has none either, and gives up.
    cases hold : getitem ref k with
    | error e =>
      rw [hold] at h
      cases e with
      | lookup_error =>
        obtain ⟨-, t, v, s₁, ht, -⟩ := add_entry_eq_ok h
        cases ht
      | value_error | type_error | exit => exact absurd h Py.raise_ne_ok
    | ok old =>
      rw [hold] at h
      exact replaced_convert_last (.inr ⟨rfl, old, resolve_cons.mpr ⟨old, hold, rfl⟩, rfl⟩) h

/-- The steps of a level of `pathlookup` before the last. -/
theorem replace_levels_level {first : Bool} {typ : Option Typ} {ref ref' : Val F}
    {level next : Text} {levels : List Text} {k : Key} {s s' : Text}
    (hk : indexfromsubscript level = .ok k) :
    replace_levels files replace first typ ref (level :: next :: levels) s = (.ok ref', s') ↔
      ∃ ref₁ inner inner', ensure_container first typ ref k next = .ok ref₁ ∧
        getitem ref₁ k = .ok inner ∧
        replace_levels files replace false typ inner (next :: levels) s = (.ok inner', s') ∧
        setitem ref₁ k inner' = .ok ref' := by
  rw [replace_levels, hk]
  constructor
  · intro h
    obtain ⟨ref₁, s₁, hx, h⟩ := Py.bind_eq_ok.mp h
    obtain ⟨hensure, rfl⟩ := Py.ofExcept_eq_ok.mp hx
    obtain ⟨inner, s₁, hx, h⟩ := Py.bind_eq_ok.mp h
    obtain ⟨hget, rfl⟩ := Py.ofExcept_eq_ok.mp hx
    obtain ⟨inner', s₁, hinner, h⟩ := Py.bind_eq_ok.mp h
    obtain ⟨hset, rfl⟩ := Py.ofExcept_eq_ok.mp h
    exact ⟨ref₁, inner, inner', hensure, hget, hinner, hset⟩
  · intro ⟨ref₁, inner, inner', hensure, hget, hinner, hset⟩
    apply Py.bind_eq_ok.mpr
    refine ⟨ref₁, s, Py.ofExcept_eq_ok.mpr ⟨hensure, rfl⟩, ?_⟩
    apply Py.bind_eq_ok.mpr
    refine ⟨inner, s, Py.ofExcept_eq_ok.mpr ⟨hget, rfl⟩, ?_⟩
    exact Py.bind_eq_ok.mpr ⟨inner', s', hinner, Py.ofExcept_eq_ok.mpr ⟨hset, rfl⟩⟩

/-- Such a level goes on in the container that it leads to, and assigns what comes
    out of it. -/
theorem replace_levels_cons {first : Bool} {typ : Option Typ} {ref ref' : Val F}
    {level next : Text} {levels : List Text} {k knext : Key} {s s' : Text}
    (hk : indexfromsubscript level = .ok k) (hnext : indexfromsubscript next = .ok knext)
    (h : replace_levels files replace first typ ref (level :: next :: levels) s = (.ok ref', s')) :
    ∃ inner, replace_levels files replace false typ (descend ref k knext) (next :: levels) s =
        (.ok inner, s') ∧
      (getitem ref k = .ok (descend ref k knext) ∨ suits first ref k = true ∧ typ ≠ none) ∧
      elementassignormaybeappend ref k inner = .ok ref' ∧ getitem ref' k = .ok inner := by
  obtain ⟨ref₁, inner, inner', hensure, hget, hinner, hset⟩ := (replace_levels_level hk).mp h
  obtain ⟨rfl, href⟩ := ensure_container_eq_ok hnext hensure hget
  refine ⟨inner', hinner, ?_, ?_, getitem_setitem hset⟩
  · rcases href with rfl | ⟨hsuits, htyp, -⟩
    · exact .inl hget
    · exact .inr ⟨hsuits, htyp⟩
  · rcases href with rfl | ⟨-, -, hassign⟩
    · exact assign_of_setitem hset
    · exact assign_setitem hassign hset

/-- A successful replacement at a well-formed path. -/
theorem replace_levels_eq_ok {first : Bool} {typ : Option Typ} {ref ref' : Val F}
    {levels : List Text} {ks : List Key} {s s' : Text} (hks : subscripts levels = some ks)
    (hne : levels ≠ [])
    (h : replace_levels files replace first typ ref levels s = (.ok ref', s')) :
    ∃ t v, Replaced files replace typ s ref ks ref' t v := by
  -- The conversion happens at the last level; the levels before it only add to
  -- the path.
  induction levels generalizing first ref ref' ks with
  | nil => exact absurd rfl hne
  | cons level levels ih =>
    obtain ⟨k, ks', hk, hks', rfl⟩ := subscripts_cons.mp hks
    cases levels with
    | nil =>
      obtain rfl := Option.some.inj hks'
      rw [replace_levels, hk] at h
      exact replaced_assign_last h
    | cons next levels =>
      obtain ⟨knext, ks, hnext, -, rfl⟩ := subscripts_cons.mp hks'
      obtain ⟨inner, hinner, hway, hassign, hget⟩ := replace_levels_cons hk hnext h
      obtain ⟨t, v, ⟨s₁, s₂, hcall, hmis⟩, htyp, hputs⟩ := ih hks' (by simp) hinner
      refine ⟨t, v, ⟨s₁, s₂, hcall, fun d hd => hmis d (misplaced_cons.mp hd)⟩, ?_, ?_⟩
      · rcases htyp with htyp | ⟨htyp, old, hold, ht⟩
        · exact .inl htyp
        -- Without a type no container was created, so the old element is there.
        · refine .inr ⟨htyp, old, ?_, ht⟩
          rcases hway with hway | ⟨-, hsome⟩
          · exact resolve_cons.mpr ⟨_, hway, hold⟩
          · exact absurd htyp hsome
      · refine .level ?_ hputs hassign hget
        rcases hway with hway | ⟨hsuits, -⟩
        · exact .inl ⟨_, hway⟩
        · exact .inr (isStr_of_suits hsuits)

end replace

end Jaguar
