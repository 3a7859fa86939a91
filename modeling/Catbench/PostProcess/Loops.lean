import Catbench.Framework.Pieces
import Catbench.PostProcess.Model

/-! # Items, labels and loops of post-processing

    * **Items**: reading and assigning one item of a dictionary, up to equality
      of documents.
    * **Labels**: what a pass that only adds to the legend leaves alone
      (`Grows`).
    * **Loops**: from what the body does with one sample, what the loop does
      with all of them (`each_sample_related`); a body that changes nothing makes
      a loop that changes nothing but the order of the series.
-/

open Json Pieces

namespace PostProcess

variable {F : Type} {k k' : Key} {v v' x y : Val F}

/-! ## Section 1: Items -/

theorem getitem_eq_some : getitem v k = some x ↔ ∃ d, v = .dict d ∧ d.lookup k = some x := by
  cases v <;> simp [getitem]

theorem setitem_eq_some :
    setitem v k x = some v' ↔ ∃ d, v = .dict d ∧ v' = .dict (Dict.insert k x d) := by
  cases v <;> simp [setitem, eq_comm]

theorem getitem_setitem (h : setitem v k x = some v') : getitem v' k = some x := by
  obtain ⟨d, rfl, rfl⟩ := setitem_eq_some.mp h
  exact Dict.lookup_insert_self k x d

theorem getitem_setitem_of_ne (hne : k' ≠ k) (h : setitem v k x = some v') :
    getitem v' k' = getitem v k' := by
  obtain ⟨d, rfl, rfl⟩ := setitem_eq_some.mp h
  exact Dict.lookup_insert_of_ne hne.symm x d

/-- Assigning what is there already changes nothing. -/
theorem setitem_of_getitem (h : getitem v k = some x) : setitem v k x = some v := by
  obtain ⟨d, rfl, hd⟩ := getitem_eq_some.mp h
  rw [setitem, Dict.insert_of_lookup hd]

theorem plain_getitem (hv : Plain v) (h : getitem v k = some x) : Plain x := by
  obtain ⟨d, rfl, hd⟩ := getitem_eq_some.mp h
  exact (plain_iff.mp hv).2 x (List.mem_map_of_mem (Dict.mem_of_lookup hd))

theorem plain_insert {d : List (Key × Val F)} (hd : Plain (.dict d)) (hk : k.isStr = true)
    (hx : Plain x) : Plain (.dict (Dict.insert k x d)) := by
  cases hd with
  | dict hkeys hnodup hall =>
    refine .dict (fun j hj => ?_) (Dict.nodup_insert x hnodup) fun p hp => ?_
    · rw [Dict.keys_insert] at hj
      split at hj
      · exact hkeys j hj
      · rcases List.mem_append.mp hj with hj | hj
        · exact hkeys j hj
        · rwa [List.mem_singleton.mp hj]
    · rcases Dict.mem_insert hp with rfl | hp
      · exact hx
      · exact hall p hp

theorem plain_setitem (hv : Plain v) (hk : k.isStr = true) (hx : Plain x)
    (h : setitem v k x = some v') : Plain v' := by
  obtain ⟨d, rfl, rfl⟩ := setitem_eq_some.mp h
  exact plain_insert hv hk hx

theorem same_lookup {d e : List (Key × Val F)} (h : Same (.dict e) (.dict d))
    (hd : d.lookup k = some x) : ∃ y, e.lookup k = some y ∧ Same y x := by
  cases h with
  | dict hkeys hall =>
    have hk := (hkeys k).mpr (Dict.mem_keys_of_mem (Dict.mem_of_lookup hd))
    obtain ⟨y, hy⟩ := Option.ne_none_iff_exists'.mp
      (mt Dict.lookup_eq_none.mp (not_not_intro hk))
    exact ⟨y, hy, hall k y x hy hd⟩

theorem same_getitem (h : Same v' v) (hget : getitem v k = some x) :
    ∃ y, getitem v' k = some y ∧ Same y x := by
  obtain ⟨d, rfl, hd⟩ := getitem_eq_some.mp hget
  cases h with
  | dict hkeys hall => exact same_lookup (.dict hkeys hall) hd

/-- Assigning something equal to what is there makes an equal dictionary. -/
theorem same_setitem (hget : getitem v k = some y) (h : Same x y) :
    ∃ v', setitem v k x = some v' ∧ Same v' v := by
  obtain ⟨d, rfl, hd⟩ := getitem_eq_some.mp hget
  refine ⟨_, rfl, Same.of_lookup fun j => ?_⟩
  by_cases hj : j = k
  · subst hj
    exact .inr ⟨x, y, Dict.lookup_insert_self j x d, hd, h⟩
  · rw [Dict.lookup_insert_of_ne (Ne.symm hj)]
    cases hlookup : d.lookup j with
    | none => exact .inl ⟨rfl, rfl⟩
    | some w => exact .inr ⟨w, w, rfl, rfl, .refl w⟩

/-- Two orders of the items. -/
theorem same_of_perm {d e : List (Key × Val F)} (hnodup : (Dict.keys d).Nodup) (h : e.Perm d) :
    Same (.dict e) (.dict d) := by
  have hlookup := Dict.lookup_perm hnodup h.symm
  refine Same.of_lookup fun j => ?_
  cases hj : d.lookup j with
  | none => exact .inl ⟨(hlookup j).trans hj, rfl⟩
  | some w => exact .inr ⟨w, w, (hlookup j).trans hj, rfl, .refl w⟩

theorem eq_of_isNumber (h : Same v' v) (hv : isNumber v = true) : v' = v := by
  cases h with
  | bool | int | float => rfl
  | null | str | list | dict => cases hv

theorem plain_of_isNumber (hv : isNumber v = true) : Plain v := by
  cases v with
  | bool b => exact .bool b
  | int z => exact .int z
  | float x => exact .float x
  | null | str | list | dict => cases hv

theorem is_str_same (h : Same v' v) (s : Str) : is_str s v' = is_str s v := by
  cases h <;> rfl

theorem contains_same (h : Same v' v) (k : Key) : contains v' k = contains v k := by
  cases h with
  | null | bool | int | float | str => rfl
  | @list xs ys hlen hall =>
    have hmap : xs.map (is_str k.text) = ys.map (is_str k.text) := by
      refine List.ext_getElem (by simpa using hlen) fun i hi hj => ?_
      rw [List.length_map] at hi hj
      rw [List.getElem_map, List.getElem_map]
      exact is_str_same (hall i _ _ (List.getElem?_eq_getElem hi) (List.getElem?_eq_getElem hj)) _
    simpa [contains] using congrArg (List.any · id) hmap
  | @dict d e hkeys _ =>
    rw [contains, contains]
    exact congrArg some (decide_eq_decide.mpr (hkeys k))

theorem contains_of_getitem (h : getitem v k = some x) : contains v k = some true := by
  obtain ⟨d, rfl, hd⟩ := getitem_eq_some.mp h
  rw [contains, decide_eq_true (Dict.mem_keys_of_mem (Dict.mem_of_lookup hd))]

/-! ## Section 2: Labels -/

/-- What is in the labels stays in them, and what is added is plain. -/
structure Grows (l l' : Val F) : Prop where
  get : ∀ {k x}, getitem l k = some x → getitem l' k = some x
  has : ∀ {k}, contains l k = some true → contains l' k = some true
  plain : Plain l → Plain l'

theorem Grows.refl (l : Val F) : Grows l l := ⟨id, id, id⟩

theorem Grows.trans {l m n : Val F} (h : Grows l m) (h' : Grows m n) : Grows l n :=
  ⟨fun hx => h'.get (h.get hx), fun hk => h'.has (h.has hk), fun hl => h'.plain (h.plain hl)⟩

/-- An assignment to a key that is not there. -/
theorem Grows.of_setitem (hnew : contains v k = some false) (hk : k.isStr = true)
    (hx : Plain v → Plain x) (h : setitem v k x = some v') : Grows v v' := by
  have hplain : Plain v → Plain v' := fun hv => plain_setitem hv hk (hx hv) h
  obtain ⟨d, rfl, rfl⟩ := setitem_eq_some.mp h
  have hk : k ∉ Dict.keys d := by
    simpa [contains] using hnew
  refine ⟨?_, ?_, hplain⟩
  · intro j w hj
    have hne : k ≠ j := by
      rintro rfl
      exact hk (Dict.mem_keys_of_mem (Dict.mem_of_lookup hj))
    exact (Dict.lookup_insert_of_ne hne x d).trans hj
  · intro j hj
    have hmem : j ∈ Dict.keys d := by
      simpa [contains] using hj
    rw [contains, Dict.keys_insert, if_neg hk,
      decide_eq_true (List.mem_append_left _ hmem)]

/-! ## Section 3: Loops -/

section each
variable {α : Type} {body : α → Val F → Option (α × Val F)} {R : Val F → α → α → Prop}

/-- The members one by one, related by what the body does; `R` may speak of the
    labels at the end. -/
theorem each_forall₂ (hmono : ∀ {l l' a b}, Grows l l' → R l a b → R l' a b)
    (hbody : ∀ {a l b l'}, body a l = some (b, l') → Grows l l' ∧ R l' a b)
    {xs ys : List α} {l l' : Val F} (h : each body xs l = some (ys, l')) :
    Grows l l' ∧ List.Forall₂ (R l') xs ys := by
  induction xs generalizing ys l with
  | nil =>
    obtain ⟨rfl, rfl⟩ := Prod.mk.inj (Option.some.inj h)
    exact ⟨.refl _, .nil⟩
  | cons a xs ih =>
    obtain ⟨⟨b, m⟩, hb, h⟩ := Option.bind_eq_some_iff.mp h
    obtain ⟨⟨zs, n⟩, hzs, h⟩ := Option.bind_eq_some_iff.mp h
    obtain ⟨rfl, rfl⟩ := Prod.mk.inj (Option.some.inj h)
    obtain ⟨hgrow, hrel⟩ := hbody hb
    obtain ⟨hgrows, hrels⟩ := ih hzs
    exact ⟨hgrow.trans hgrows, .cons (hmono hgrows hrel) hrels⟩

theorem each_neutral {xs : List α} {l : Val F} (h : ∀ a ∈ xs, body a l = some (a, l)) :
    each body xs l = some (xs, l) := by
  induction xs with
  | nil => rfl
  | cons a xs ih =>
    rw [List.forall_mem_cons] at h
    simp only [each, h.1, ih h.2, Option.bind_eq_bind, Option.bind_some]

end each

/-- Every series of `w` comes from the series of that name of `v`. -/
def Related (R : Val F → Val F → Prop) (v w : Val F) : Prop :=
  ∃ d e, v = .dict d ∧ w = .dict e ∧ (Dict.keys e).Perm (Dict.keys d) ∧
    ∀ q ∈ e, ∃ p ∈ d, p.1 = q.1 ∧ R p.2 q.2

theorem Related.plain {R : Val F → Val F → Prop} {w : Val F} (h : Related R v w) (hv : Plain v)
    (hR : ∀ {a b}, R a b → Plain a → Plain b) : Plain w := by
  obtain ⟨d, e, rfl, rfl, hperm, hall⟩ := h
  cases hv with
  | dict hkeys hnodup hplain =>
    refine .dict (fun k hk => hkeys k (hperm.mem_iff.mp hk)) (hperm.nodup_iff.mpr hnodup) ?_
    intro q hq
    obtain ⟨p, hp, -, hrel⟩ := hall q hq
    exact hR hrel (hplain p hp)

theorem Related.trans {R : Val F → Val F → Prop} {a b c : Val F} (h : Related R a b)
    (h' : Related R b c) (hR : ∀ {x y z}, R x y → R y z → R x z) : Related R a c := by
  obtain ⟨d, e, rfl, rfl, hperm, hall⟩ := h
  obtain ⟨e', f, heq, rfl, hperm', hall'⟩ := h'
  obtain rfl := Val.dict.inj heq
  refine ⟨d, f, rfl, rfl, hperm'.trans hperm, fun q hq => ?_⟩
  obtain ⟨p, hp, hkey, hpq⟩ := hall' q hq
  obtain ⟨r, hr, hkey', hrp⟩ := hall p hp
  exact ⟨r, hr, hkey'.trans hkey, hR hrp hpq⟩

/-- The loop over the series. -/
theorem each_item_related {o : Order} {body : Val F → Val F → Option (Val F × Val F)}
    {R : Val F → Val F → Val F → Prop}
    (hmono : ∀ {l l' a b}, Grows l l' → R l a b → R l' a b)
    (hbody : ∀ {a l b l'}, body a l = some (b, l') → Grows l l' ∧ R l' a b)
    {d e : List (Key × Val F)} {l l' : Val F} (h : each_item body (o.items d) l = some (e, l')) :
    Grows l l' ∧ Related (R l') (.dict d) (.dict e) := by
  obtain ⟨hgrows, hrel⟩ := each_forall₂
    (R := fun m (p q : Key × Val F) => q.1 = p.1 ∧ R m p.2 q.2)
    (fun hg h => ⟨h.1, hmono hg h.2⟩) (fun {p m q m'} hpq => by
      obtain ⟨⟨b, m''⟩, hb, heq⟩ := Option.map_eq_some_iff.mp hpq
      obtain ⟨rfl, rfl⟩ := Prod.mk.inj heq
      obtain ⟨hg, hr⟩ := hbody hb
      exact ⟨hg, rfl, hr⟩) h
  have hkeys : Dict.keys e = Dict.keys (o.items d) := by
    refine List.ext_getElem (by simp [Dict.keys, hrel.length_eq]) fun i hi hj => ?_
    rw [Dict.keys, List.length_map] at hi hj
    simp only [Dict.keys, List.getElem_map]
    exact (hrel.get hj hi).1
  refine ⟨hgrows, d, e, rfl, rfl, hkeys ▸ Dict.keys_perm (o.perm d), fun q hq => ?_⟩
  obtain ⟨p, hp, heq, hr⟩ := mem_right_of_forall₂ hrel hq
  exact ⟨p, (o.perm d).mem_iff.mp hp, heq.symm, hr⟩

/-- The samples of a series satisfy `P`; if they are no list, there are none. -/
def Elements (P : Val F → Prop) : Val F → Prop
  | .list xs => ∀ x ∈ xs, P x
  | samples => empty samples = true

def Samples (P : Val F → Prop) (series : Val F) : Prop :=
  ∃ samples, getitem series (key "samples") = some samples ∧ Elements P samples

/-- What the loop over the samples does with a series, if its body turns `φ` into
    `ψ`. -/
structure Moved (φ ψ : Val F → Prop) (series series' : Val F) : Prop where
  other : ∀ k ≠ key "samples", getitem series' k = getitem series k
  samples : (∀ xs, getitem series (key "samples") = some (.list xs) → ∀ x ∈ xs, φ x) →
    Samples ψ series'
  plain : (∀ x, Plain x → φ x) → (∀ x, ψ x → Plain x) → Plain series → Plain series'

theorem elements_mono {P Q : Val F → Prop} (h : ∀ {x}, P x → Q x) (hv : Elements P v) :
    Elements Q v := by
  cases v with
  | list xs => exact fun x hx => h (hv x hx)
  | null | bool | int | float | str | dict => exact hv

theorem Moved.mono {φ ψ ψ' : Val F → Prop} (h : Moved φ ψ v v') (hψ : ∀ {x}, ψ x → ψ' x) :
    Moved φ ψ' v v' where
  other := h.other
  samples hall := by
    obtain ⟨samples, hsamples, helements⟩ := h.samples hall
    exact ⟨samples, hsamples, elements_mono hψ helements⟩
  plain hφ hψ' := h.plain hφ fun x hx => hψ' x (hψ hx)

theorem each_index_moved {body : Val F → Val F → Option (Val F × Val F)} {φ : Val F → Prop}
    {ψ : Val F → Val F → Prop} (hmono : ∀ l l' x, Grows l l' → ψ l x → ψ l' x)
    (hbody : ∀ x l x' l', body x l = some (x', l') → Grows l l' ∧ (φ x → ψ l' x'))
    {series l series' l' : Val F} (h : each_index body series l = some (series', l')) :
    Grows l l' ∧ Moved φ (ψ l') series series' := by
  obtain ⟨samples, hsamples, h⟩ := Option.bind_eq_some_iff.mp h
  split at h
  · next xs =>
    obtain ⟨⟨ys, m⟩, hys, h⟩ := Option.bind_eq_some_iff.mp h
    obtain ⟨series'', hset, h⟩ := Option.bind_eq_some_iff.mp h
    obtain ⟨rfl, rfl⟩ := Prod.mk.inj (Option.some.inj h)
    obtain ⟨hgrows, hrel⟩ := each_forall₂ (R := fun m x x' => φ x → ψ m x')
      (fun hg hr hx => hmono _ _ _ hg (hr hx)) (fun h => hbody _ _ _ _ h) hys
    have hall : (∀ x ∈ xs, φ x) → ∀ y ∈ ys, ψ m y := by
      intro hxs y hy
      obtain ⟨x, hx, hxy⟩ := mem_right_of_forall₂ hrel hy
      exact hxy (hxs x hx)
    refine ⟨hgrows, fun k hk => getitem_setitem_of_ne hk hset, fun hxs => ?_, ?_⟩
    · exact ⟨_, getitem_setitem hset, hall (hxs xs hsamples)⟩
    · intro hφ hψ hplain
      refine plain_setitem hplain rfl
        (.list fun y hy => hψ y (hall (fun x hx => ?_) y hy)) hset
      have hlist := plain_getitem hplain hsamples
      cases hlist with
      | list hxs => exact hφ x (hxs x hx)
  · next hlist =>
    obtain ⟨hempty, h⟩ := Option.ite_none_right_eq_some.mp h
    obtain ⟨rfl, rfl⟩ := Prod.mk.inj (Option.some.inj h)
    refine ⟨.refl l, fun _ _ => rfl, fun _ => ⟨samples, hsamples, ?_⟩, fun _ _ => id⟩
    cases samples with
    | list xs => exact absurd rfl (hlist xs)
    | null | bool | int | float | str | dict => exact hempty

theorem each_sample_moved {o : Order} {body : Val F → Val F → Option (Val F × Val F)}
    (φ : Val F → Prop) (ψ : Val F → Val F → Prop)
    (hmono : ∀ l l' x, Grows l l' → ψ l x → ψ l' x)
    (hbody : ∀ x l x' l', body x l = some (x', l') → Grows l l' ∧ (φ x → ψ l' x'))
    {data l data' l' : Val F} (h : each_sample o body data l = some (data', l')) :
    Grows l l' ∧ Related (Moved φ (ψ l')) data data' := by
  unfold each_sample at h
  split at h
  · next d =>
    obtain ⟨⟨e, m⟩, he, heq⟩ := Option.map_eq_some_iff.mp h
    obtain ⟨rfl, rfl⟩ := Prod.mk.inj heq
    refine each_item_related (R := fun m => Moved φ (ψ m)) (fun hg hmoved => ?_)
      (fun hb => each_index_moved hmono hbody hb) he
    exact hmoved.mono (hmono _ _ _ hg)
  · cases h

/-! ## Section 4: Series -/

/-- All series of the data satisfy `χ`. -/
def EachSeries (χ : Key → Val F → Prop) (data : Val F) : Prop :=
  ∃ d, data = .dict d ∧ ∀ p ∈ d, χ p.1 p.2

section series
variable {R : Val F → Val F → Prop} {χ χ' : Key → Val F → Prop} {P Q : Val F → Prop}

theorem Related.keeps (h : Related R v v') (hχ : ∀ j a b, χ j a → R a b → χ' j b)
    (hv : EachSeries χ v) : EachSeries χ' v' := by
  obtain ⟨d, e, rfl, rfl, -, hall⟩ := h
  obtain ⟨d', heq, hd⟩ := hv
  obtain rfl := Val.dict.inj heq
  refine ⟨e, rfl, fun q hq => ?_⟩
  obtain ⟨p, hp, hkey, hrel⟩ := hall q hq
  exact hχ q.1 p.2 q.2 (hkey ▸ hd p hp) hrel

theorem Related.makes (h : Related R v v') (hχ : ∀ j a b, R a b → χ j b) : EachSeries χ v' := by
  have hdict : EachSeries (fun _ _ => True) v := by
    obtain ⟨d, e, hd, -, -, -⟩ := h
    exact ⟨d, hd, fun _ _ => trivial⟩
  exact h.keeps (fun j a b _ => hχ j a b) hdict

theorem eachSample_mono (h : ∀ {x}, P x → Q x) (hv : EachSeries (fun _ => Samples P) v) :
    EachSeries (fun _ => Samples Q) v := by
  obtain ⟨d, hd, hall⟩ := hv
  refine ⟨d, hd, fun p hp => ?_⟩
  obtain ⟨samples, hsamples, helements⟩ := hall p hp
  exact ⟨samples, hsamples, elements_mono h helements⟩

theorem eachSeries_same (hχ : ∀ j a b, Plain b → Same b a → χ j a → χ j b) (hplain : Plain v')
    (hsame : Same v' v) (hv : EachSeries χ v) : EachSeries χ v' := by
  obtain ⟨d, rfl, hd⟩ := hv
  cases hsame with
  | @dict e _ hkeys hall =>
    refine ⟨e, rfl, fun q hq => ?_⟩
    cases hplain with
    | dict _ hnodup hplain =>
      have hlookup := Dict.lookup_of_mem hnodup hq
      obtain ⟨w, hw, hsame⟩ := same_lookup (Same.symm (.dict hkeys hall)) hlookup
      exact hχ q.1 w q.2 (hplain q hq) hsame.symm (hd _ (Dict.mem_of_lookup hw))

theorem samples_same (hP : ∀ a b, Plain b → Same b a → P a → P b) (hplain : Plain v')
    (hsame : Same v' v) (hv : Samples P v) : Samples P v' := by
  obtain ⟨samples, hsamples, helements⟩ := hv
  obtain ⟨samples', hsamples', hsame⟩ := same_getitem hsame hsamples
  have hplain' := plain_getitem hplain hsamples'
  refine ⟨samples', hsamples', ?_⟩
  cases hsame with
  | null | bool | int | float | str => exact helements
  | @list ys xs hlen hall =>
    intro y hy
    obtain ⟨i, hi, rfl⟩ := List.getElem_of_mem hy
    refine hP xs[i] ys[i] ?_ (hall i _ _ (List.getElem?_eq_getElem hi)
      (List.getElem?_eq_getElem _)) (helements _ (List.getElem_mem _))
    cases hplain' with
    | list hys => exact hys _ hy
  | @dict e d hkeys _ =>
    -- a dictionary counts as no samples only if it is empty
    obtain rfl : d = [] := List.isEmpty_iff.mp helements
    have hnil : e = [] := List.eq_nil_iff_forall_not_mem.mpr fun q hq =>
      List.not_mem_nil ((hkeys q.1).mp (Dict.mem_keys_of_mem hq))
    exact List.isEmpty_iff.mpr hnil

theorem each_item_neutral {o : Order} {body : Val F → Val F → Option (Val F × Val F)}
    {d : List (Key × Val F)} {l : Val F} (h : ∀ p ∈ d, body p.2 l = some (p.2, l)) :
    each_item body (o.items d) l = some (o.items d, l) := by
  refine each_neutral fun p hp => ?_
  rw [h p ((o.perm d).mem_iff.mp hp), Option.map_some]

theorem each_index_neutral {body : Val F → Val F → Option (Val F × Val F)} {series l : Val F}
    (hbody : ∀ x, P x → body x l = some (x, l)) (h : Samples P series) :
    each_index body series l = some (series, l) := by
  obtain ⟨samples, hsamples, helements⟩ := h
  rw [each_index, hsamples]
  cases samples with
  | list xs =>
    have hxs := each_neutral fun x hx => hbody x (helements x hx)
    simp [hxs, setitem_of_getitem hsamples]
  | null | bool | int | float | str | dict =>
    simp only [Option.bind_eq_bind, Option.bind_some]
    exact if_pos helements

theorem each_sample_neutral (o : Order) (body : Val F → Val F → Option (Val F × Val F))
    {data l : Val F} (hplain : Plain data) (hbody : ∀ x, P x → body x l = some (x, l))
    (h : EachSeries (fun _ => Samples P) data) :
    ∃ data', each_sample o body data l = some (data', l) ∧ Same data' data := by
  obtain ⟨d, rfl, hd⟩ := h
  refine ⟨.dict (o.items d), ?_, same_of_perm hplain.plainKeys.2 (o.perm d)⟩
  rw [each_sample, each_item_neutral fun p hp => each_index_neutral hbody (hd p hp),
    Option.map_some]

end series

end PostProcess
