import Catbench.Combine.Model
import Mathlib.Data.List.Induction

/-! # Normalized series in the combined data

    The copies share their samples with the series that are normalized later,
    and only one normalized series is stored: the statements after the loop use
    the variables that it leaves behind.

    `normalizesAll_iff` says for which files every series is there normalized,
    and every copy as it was.
-/

namespace CombineJson

variable {a : Args} {data1 : List (String × Option (List Sample))}
  {data2 : List (String × Series)} {s s' : State} {key name : String} {ks : List String}

/-! ## Section 1: Objects -/

/-- The samples of the object under a key. -/
def samplesAt (data : List (String × Series)) (key : String) : Option (List Sample) :=
  (data.lookup key).map Series.samples

section update
variable {f : Series → Series} {data : List (String × Series)}

@[simp] theorem keys_update (key : String) (f : Series → Series) (data : List (String × Series)) :
    Dict.keys (update key f data) = Dict.keys data := by
  unfold Dict.keys update
  rw [List.map_map]
  apply List.map_congr_left
  intro p _
  dsimp only [Function.comp_apply]
  split <;> rfl

theorem lookup_update (key : String) (f : Series → Series) (data : List (String × Series))
    (k : String) : (update key f data).lookup k =
      if k = key then (data.lookup k).map f else data.lookup k := by
  induction data with
  | nil => simp [update]
  | cons p data ih =>
    unfold update at ih ⊢
    rw [List.map_cons]
    by_cases hpk : p.1 = k
    · obtain ⟨k', x⟩ := p
      obtain rfl : k' = k := hpk
      by_cases hk : k' = key <;> simp [hk]
    · have hne : (if p.1 = key then (p.1, f p.2) else p).1 ≠ k := by
        split <;> exact hpk
      rw [Dict.lookup_cons_of_ne hne, Dict.lookup_cons_of_ne hpk, ih]

/-- A change of something else leaves the samples. -/
theorem samplesAt_update (hf : ∀ x, (f x).samples = x.samples) (k : String) :
    samplesAt (update key f data) k = samplesAt data k := by
  unfold samplesAt
  rw [lookup_update]
  split
  · rw [Option.map_map]
    exact congrArg (Option.map · _) (funext hf)
  · rfl

theorem samplesAt_original (hkey : key ∈ Dict.keys data2) :
    samplesAt data2 key = some (original data2 key) := by
  obtain ⟨x, hx, hxs⟩ := lookup_original hkey
  rw [samplesAt, hx, hxs]
  rfl

end update

/-! ## Section 2: Copying -/

/-- The series that are copied. -/
def copied (a : Args) (data2 : List (String × Series)) : List String :=
  (Dict.keys data2).filter fun key => !skipped a key

/-- What the copying loop has done for some keys. -/
structure CopiedAll (a : Args) (ks : List String) (s s' : State) : Prop where
  keys : Dict.keys s'.data2 = Dict.keys s.data2
  samples : ∀ k, samplesAt s'.data2 k = samplesAt s.data2 k
  shared : ∀ key ∈ ks, skipped a key = false →
    s'.data1.lookup (key ++ a.suffix) = some (.shared key)
  kept : ∀ name, (∀ key ∈ ks, skipped a key = false → key ++ a.suffix ≠ name) →
    s'.data1.lookup name = s.data1.lookup name
  new_key : s'.new_key =
    ((ks.filter fun key => !skipped a key).getLast?.map (· ++ a.suffix)).or s.new_key

theorem copiedAll (a : Args) (ks : List String) (s : State) :
    CopiedAll a ks s (ks.foldl (copy a) s) := by
  induction ks using List.reverseRecOn with
  | nil => exact ⟨rfl, fun _ => rfl, by simp, fun _ _ => rfl, rfl⟩
  | append_singleton ks last ih =>
    rw [List.foldl_append, List.foldl_cons, List.foldl_nil]
    generalize ks.foldl (copy a) s = t at ih
    unfold copy
    split
    · rename_i hskip
      refine ⟨ih.keys, ih.samples, fun key hkey hnot => ?_, fun name hname => ?_, ?_⟩
      · refine ih.shared key ?_ hnot
        rcases List.mem_append.mp hkey with hkey | hkey
        · exact hkey
        · rw [List.mem_singleton.mp hkey, hskip] at hnot
          cases hnot
      · exact ih.kept name fun key hkey => hname key (List.mem_append_left _ hkey)
      · rw [ih.new_key]
        simp [hskip]
    · rename_i hcopy
      refine ⟨?_, fun k => ?_, fun key hkey hnot => ?_, fun name hname => ?_, ?_⟩
      · dsimp only
        rw [keys_update, ih.keys]
      · dsimp only
        rw [samplesAt_update (f := add_description a.suffix) (fun _ => rfl), ih.samples]
      · dsimp only
        by_cases heq : key = last
        · rw [heq, Dict.lookup_insert_self]
        · have hne : last ++ a.suffix ≠ key ++ a.suffix := by simpa using Ne.symm heq
          rw [Dict.lookup_insert_of_ne hne]
          refine ih.shared key ?_ hnot
          simpa [heq] using hkey
      · have hne : last ++ a.suffix ≠ name := hname last (by simp) (by simpa using hcopy)
        dsimp only
        rw [Dict.lookup_insert_of_ne hne]
        exact ih.kept name fun key hkey => hname key (List.mem_append_left _ hkey)
      · simp [hcopy]

/-! ## Section 3: Normalizing -/

/-- The samples of an object after the keys `ks` have been normalized. -/
def after (a : Args) (data2 : List (String × Series)) (ks : List String) (key : String) :
    List Sample :=
  if key ∈ ks ∧ key ≠ a.norm then divided a data2 key else original data2 key

/-- What the normalizing loop has done for some keys. -/
structure NormalizedAll (a : Args) (data2 : List (String × Series)) (ks : List String)
    (s s' : State) : Prop where
  keys : Dict.keys s'.data2 = Dict.keys data2
  data1 : s'.data1 = s.data1
  samples : ∀ key ∈ Dict.keys data2, samplesAt s'.data2 key = some (after a data2 ks key)
  new_key : s'.new_key = ((ks.filter (· ≠ a.norm)).getLast?.map
    (· ++ a.suffix ++ a.norm_suffix)).or s.new_key

/-- One series, which has not been normalized before. -/
theorem normalize_eq (h : Given a data2) (hkey : key ∈ Dict.keys data2) (hne : key ≠ a.norm)
    (hsamples : samplesAt s.data2 key = some (original data2 key))
    (hbase : samplesAt s.data2 a.norm = some (original data2 a.norm)) :
    (Based a data2 key → normalize a s key = some { s with
      data2 := update key (fun x => { x with samples := divided a data2 key }) s.data2
      new_key := some (key ++ a.suffix ++ a.norm_suffix) }) ∧
    (¬Based a data2 key → normalize a s key = none) := by
  obtain ⟨x, hx, hxs⟩ := Option.map_eq_some_iff.mp hsamples
  obtain ⟨y, hy, hys⟩ := Option.map_eq_some_iff.mp hbase
  let base (index : ℕ) : Option Sample := (s.data2.lookup a.norm).bind (·.samples[index]?)
  have hbases : ∀ i, base (0 + i) = (original data2 a.norm)[i]? := by
    intro i
    show (s.data2.lookup a.norm).bind (·.samples[0 + i]?) = _
    rw [hy, Option.bind_some, hys, Nat.zero_add]
  have hrun : normalize_samples a base 0 (original data2 key) =
      if Based a data2 key then some (divided a data2 key) else none :=
    normalize_samples_eq hbases (h.length_original hkey)
  unfold normalize
  rw [if_neg hne, hx]
  dsimp only
  rw [hxs, hrun]
  constructor
  · intro hbased
    rw [if_pos hbased]
    rfl
  · intro hbased
    rw [if_neg hbased]
    rfl

theorem after_append_self (hne : key ≠ a.norm) :
    after a data2 (ks ++ [key]) key = divided a data2 key := by
  simp [after, hne]

theorem after_append_of_ne {last : String} (hne : key ≠ last) :
    after a data2 (ks ++ [last]) key = after a data2 ks key := by
  simp [after, hne]

theorem after_norm : after a data2 ks a.norm = original data2 a.norm := by
  simp [after]

theorem after_of_not_mem (hkey : key ∉ ks) : after a data2 ks key = original data2 key := by
  simp [after, hkey]

theorem normalizedAll (h : Given a data2) (hnd : ks.Nodup)
    (hks : ∀ key ∈ ks, key ∈ Dict.keys data2) (hkeys : Dict.keys s.data2 = Dict.keys data2)
    (hsamples : ∀ k, samplesAt s.data2 k = samplesAt data2 k) :
    ((∀ key ∈ ks, key ≠ a.norm → Based a data2 key) →
      ∃ s', ks.foldlM (normalize a) s = some s' ∧ NormalizedAll a data2 ks s s') ∧
    (¬(∀ key ∈ ks, key ≠ a.norm → Based a data2 key) → ks.foldlM (normalize a) s = none) := by
  induction ks using List.reverseRecOn with
  | nil =>
    refine ⟨fun _ => ⟨s, rfl, hkeys, rfl, fun key hkey => ?_, rfl⟩, fun hno => absurd (by simp) hno⟩
    rw [hsamples, samplesAt_original hkey, after_of_not_mem List.not_mem_nil]
  | append_singleton ks last ih =>
    obtain ⟨hndks, hlast⟩ : ks.Nodup ∧ last ∉ ks := by
      rw [List.nodup_append] at hnd
      exact ⟨hnd.1, fun hmem => hnd.2.2 last hmem last (by simp) rfl⟩
    obtain ⟨hall, hno⟩ := ih hndks fun key hkey => hks key (List.mem_append_left _ hkey)
    have hmem : last ∈ Dict.keys data2 := hks last (by simp)
    rw [List.foldlM_append]
    by_cases hbased : ∀ key ∈ ks, key ≠ a.norm → Based a data2 key
    · obtain ⟨t, ht, hnorm⟩ := hall hbased
      rw [ht, Option.bind_eq_bind, Option.bind_some, List.foldlM_cons]
      by_cases hne : last = a.norm
      · -- the series itself is passed over
        have hskip : normalize a t last = some t := by rw [normalize, if_pos hne]
        rw [hskip]
        refine ⟨fun _ => ⟨t, rfl, hnorm.keys, hnorm.data1, fun key hkey => ?_, ?_⟩, fun hnot => ?_⟩
        · rw [hnorm.samples key hkey]
          by_cases heq : key = last
          · rw [heq, hne, after_norm, after_norm]
          · rw [after_append_of_ne heq]
        · rw [hnorm.new_key]
          simp [hne]
        · refine absurd (fun key hkey hkn => ?_) hnot
          rcases List.mem_append.mp hkey with hkey | hkey
          · exact hbased key hkey hkn
          · exact absurd ((List.mem_singleton.mp hkey).trans hne) hkn
      · obtain ⟨hsome, hnone⟩ := normalize_eq (s := t) h hmem hne
          (by rw [hnorm.samples last hmem, after_of_not_mem hlast])
          (by rw [hnorm.samples a.norm h.norm_mem, after_norm])
        by_cases hlastbased : Based a data2 last
        · rw [hsome hlastbased]
          refine ⟨fun _ => ⟨_, rfl, ?_, hnorm.data1, fun key hkey => ?_, ?_⟩, fun hnot => ?_⟩
          · dsimp only
            rw [keys_update, hnorm.keys]
          · dsimp only
            by_cases heq : key = last
            · rw [heq, after_append_self hne, samplesAt, lookup_update, if_pos rfl]
              obtain ⟨x, hx, _⟩ := Option.map_eq_some_iff.mp (hnorm.samples last hmem)
              rw [hx]
              rfl
            · rw [after_append_of_ne heq, ← hnorm.samples key hkey, samplesAt, lookup_update,
                if_neg heq]
              rfl
          · simp [hne]
          · refine absurd (fun key hkey hkn => ?_) hnot
            rcases List.mem_append.mp hkey with hkey | hkey
            · exact hbased key hkey hkn
            · rw [List.mem_singleton.mp hkey]
              exact hlastbased
        · rw [hnone hlastbased]
          exact ⟨fun hyes => absurd (hyes last (by simp) hne) hlastbased, fun _ => rfl⟩
    · rw [hno hbased]
      refine ⟨fun hyes => absurd (fun key hkey => hyes key (List.mem_append_left _ hkey)) hbased,
        fun _ => rfl⟩

/-! ## Section 4: The end of `combine` -/

/-- The series that are normalized. -/
def others (a : Args) (data2 : List (String × Series)) : List String :=
  (Dict.keys data2).filter (· ≠ a.norm)

def normalized_key (a : Args) (key : String) : String := key ++ a.suffix ++ a.norm_suffix

/-- The variable `new_key` after both loops. -/
def last_new_key (a : Args) (data2 : List (String × Series)) : Option String :=
  ((others a data2).getLast?.map (normalized_key a)).or
    ((copied a data2).getLast?.map (· ++ a.suffix))

/-- The samples that an object is left with. -/
def held (a : Args) (data2 : List (String × Series)) (key : String) : List Sample :=
  if key = a.norm then original data2 key else divided a data2 key

/-- The samples under a name before the normalized series is stored. -/
def before (a : Args) (data1 : List (String × Option (List Sample)))
    (data2 : List (String × Series)) (name : String) : Option (List Sample) :=
  match (copied a data2).find? (fun key => key ++ a.suffix = name) with
  | some key => some (held a data2 key)
  | none => (data1.lookup name).join

theorem mem_others : key ∈ others a data2 ↔ key ∈ Dict.keys data2 ∧ key ≠ a.norm := by
  simp [others]

theorem mem_copied : key ∈ copied a data2 ↔ key ∈ Dict.keys data2 ∧ skipped a key = false := by
  simp [copied]

@[simp] theorem held_norm : held a data2 a.norm = original data2 a.norm := if_pos rfl

theorem held_of_ne (hne : key ≠ a.norm) : held a data2 key = divided a data2 key := if_neg hne

theorem before_of_copied (hkey : key ∈ copied a data2) :
    before a data1 data2 (key ++ a.suffix) = some (held a data2 key) := by
  unfold before
  cases hfind : (copied a data2).find? (fun k => k ++ a.suffix = key ++ a.suffix) with
  | none => simpa using List.find?_eq_none.mp hfind key hkey
  | some k =>
    have hk := List.find?_some hfind
    rw [decide_eq_true_eq, String.append_left_inj] at hk
    rw [hk]

/-- The objects as the loops leave them. -/
theorem samplesAt_eq (hnorm : NormalizedAll a data2 (Dict.keys data2) s s')
    (hkey : key ∈ Dict.keys data2) : samplesAt s'.data2 key = some (held a data2 key) := by
  rw [hnorm.samples key hkey]
  unfold after held
  by_cases hne : key = a.norm <;> simp [hne, hkey]

theorem samples_eq
    (hcopied : CopiedAll a (Dict.keys data2) ⟨data1.map fun p => (p.1, .own p.2), data2, none⟩ s)
    (hnorm : NormalizedAll a data2 (Dict.keys data2) s s') (name : String) :
    s'.samples name = before a data1 data2 name := by
  unfold State.samples before
  rw [hnorm.data1]
  cases hfind : (copied a data2).find? (fun k => k ++ a.suffix = name) with
  | some k =>
    obtain ⟨hk, hskip⟩ := mem_copied.mp (List.mem_of_find?_eq_some hfind)
    have hname := List.find?_some hfind
    rw [decide_eq_true_eq] at hname
    rw [← hname, hcopied.shared k hk hskip]
    exact samplesAt_eq hnorm hk
  | none =>
    have hnone : ∀ key ∈ Dict.keys data2, skipped a key = false → key ++ a.suffix ≠ name := by
      intro key hkey hskip
      simpa using List.find?_eq_none.mp hfind key (mem_copied.mpr ⟨hkey, hskip⟩)
    rw [hcopied.kept name hnone, Dict.lookup_map_snd Entry.own]
    cases data1.lookup name <;> rfl

/-- What is stored is the last object, under the last name. -/
theorem store_eq {last new_key : String} (hlast : (Dict.keys s.data2).getLast? = some last)
    (hnew : s.new_key = some new_key) :
    ∃ out, store a s = some out ∧ ∀ name, out.samples name =
      if name = new_key then samplesAt s.data2 last else s.samples name := by
  unfold store
  rw [hlast, hnew]
  refine ⟨_, rfl, fun name => ?_⟩
  have hdescribed (x : Series) : (add_description (a.suffix ++ " normalized to " ++ a.norm)
      x).samples = x.samples := rfl
  have hsame (k : String) : samplesAt (update last (add_description (a.suffix ++
      " normalized to " ++ a.norm)) s.data2) k = samplesAt s.data2 k :=
    samplesAt_update hdescribed k
  unfold samplesAt at hsame ⊢
  unfold State.samples
  dsimp only
  by_cases hname : name = new_key
  · rw [if_pos hname, hname, Dict.lookup_insert_self]
    exact hsame last
  · rw [if_neg hname, Dict.lookup_insert_of_ne (Ne.symm hname)]
    cases s.data1.lookup name with
    | none => rfl
    | some entry =>
      cases entry with
      | own samples => rfl
      | shared k => exact hsame k

variable (data1) in
/-- `combine` stores the object that it has looked at last under the name that
    it has made last. -/
theorem combine_spec (h : Given a data2) :
    ((∀ key ∈ others a data2, Based a data2 key) → ∀ last new_key,
      (Dict.keys data2).getLast? = some last → last_new_key a data2 = some new_key →
      ∃ out, combine a data1 data2 = some out ∧ ∀ name, out.samples name =
        if name = new_key then some (held a data2 last) else before a data1 data2 name) ∧
    (∀ out, combine a data1 data2 = some out →
      (∀ key ∈ others a data2, Based a data2 key) ∧ last_new_key a data2 ≠ none) := by
  have hcopied := copiedAll a (Dict.keys data2) ⟨data1.map fun p => (p.1, .own p.2), data2, none⟩
  unfold combine
  dsimp only
  rw [if_pos h.norm_ne_empty]
  generalize (Dict.keys data2).foldl (copy a) _ = s at hcopied
  obtain ⟨hall, hno⟩ := normalizedAll (s := s) h h.nodup (fun _ hkey => hkey) hcopied.keys
    hcopied.samples
  have hbased : (∀ key ∈ Dict.keys data2, key ≠ a.norm → Based a data2 key) ↔
      ∀ key ∈ others a data2, Based a data2 key := by
    simp only [mem_others, and_imp]
  have hkeys : Dict.keys s.data2 = Dict.keys data2 := hcopied.keys
  rw [hbased] at hall hno
  rw [hkeys]
  constructor
  · intro hb last new_key hlast hnew
    obtain ⟨t, ht, hnorm⟩ := hall hb
    have hnewkey : t.new_key = some new_key := by
      rw [hnorm.new_key, hcopied.new_key, Option.or_none]
      exact hnew
    have hmem : last ∈ Dict.keys data2 := List.mem_of_getLast? hlast
    rw [← hnorm.keys] at hlast
    obtain ⟨out, hout, hsamples⟩ := store_eq (a := a) hlast hnewkey
    refine ⟨out, by rw [ht, Option.bind_some, hout], fun name => ?_⟩
    rw [hsamples, samplesAt_eq hnorm hmem, samples_eq hcopied hnorm]
  · intro out hout
    obtain ⟨t, ht, hstore⟩ := Option.bind_eq_some_iff.mp hout
    have hb : ∀ key ∈ others a data2, Based a data2 key := by
      by_contra hnot
      rw [hno hnot] at ht
      cases ht
    refine ⟨hb, fun hnone => ?_⟩
    obtain ⟨t', ht', hnorm⟩ := hall hb
    rw [ht] at ht'
    cases ht'
    have hnewkey : t.new_key = none := by
      rw [hnorm.new_key, hcopied.new_key, Option.or_none]
      exact hnone
    unfold store at hstore
    rw [hnewkey] at hstore
    cases hlast : (Dict.keys t.data2).getLast? <;> simp [hlast] at hstore

/-! ## Section 5: Coverage -/

/-- Every series other than `norm` is there normalized, and every copy as it
    was. -/
def NormalizesAll (a : Args) (data1 : List (String × Option (List Sample)))
    (data2 : List (String × Series)) : Prop :=
  ∃ out, combine a data1 data2 = some out ∧
    (∀ key ∈ Dict.keys data2, key ≠ a.norm →
      out.samples (normalized_key a key) = some (divided a data2 key)) ∧
    ∀ key ∈ Dict.keys data2, skipped a key = false →
      out.samples (key ++ a.suffix) = some (original data2 key)

/-- The normalized series take the place of the copy of `key`. -/
def Replaced (a : Args) (data2 : List (String × Series)) (key : String) : Prop :=
  ∃ z, (others a data2).getLast? = some z ∧ normalized_key a z = key ++ a.suffix

/-- Nothing goes wrong with these files: all fields have a base value and there
    is something to store; the last series is not `norm`; the others but one are
    there already; and what is copied is not changed by normalizing. -/
structure Harmless (a : Args) (data1 : List (String × Option (List Sample)))
    (data2 : List (String × Series)) : Prop where
  based : ∀ key ∈ others a data2, Based a data2 key
  named : others a data2 = [] → skipped a a.norm = false
  last : ∀ z, (others a data2).getLast? = some z →
    (Dict.keys data2).getLast? = some z ∨ divided a data2 z = original data2 a.norm
  earlier : ∀ key ∈ (others a data2).dropLast,
    before a data1 data2 (normalized_key a key) = some (divided a data2 key)
  unchanged : ∀ key ∈ copied a data2, key ≠ a.norm → ¬Replaced a data2 key →
    Unchanged a data2 key
  replaced : ∀ key ∈ copied a data2, ∀ z, (others a data2).getLast? = some z →
    normalized_key a z = key ++ a.suffix → divided a data2 z = original data2 key

theorem normalized_key_inj {k z : String} : normalized_key a k = normalized_key a z ↔ k = z := by
  unfold normalized_key
  rw [String.append_left_inj, String.append_left_inj]

/-- The name that is stored: that of the last other series, or, if there is none,
    that of the copy of `norm`. -/
theorem last_new_key_cases {new_key : String}
    (hnew : last_new_key a data2 = some new_key) :
    (∃ z, (others a data2).getLast? = some z ∧ new_key = normalized_key a z) ∨
      (others a data2 = [] ∧ skipped a a.norm = false ∧ new_key = a.norm ++ a.suffix) := by
  unfold last_new_key at hnew
  cases hz : (others a data2).getLast? with
  | some z =>
    rw [hz, Option.map_some, Option.some_or] at hnew
    exact .inl ⟨z, rfl, (Option.some.inj hnew).symm⟩
  | none =>
    rw [hz, Option.map_none, Option.none_or] at hnew
    obtain ⟨k, hk, rfl⟩ := Option.map_eq_some_iff.mp hnew
    have hnil : others a data2 = [] := List.getLast?_eq_none_iff.mp hz
    obtain ⟨hkey, hskip⟩ := mem_copied.mp (List.mem_of_getLast? hk)
    -- all series are `norm`
    have hnorm : k = a.norm := by
      by_contra hne
      have hmem : k ∈ others a data2 := mem_others.mpr ⟨hkey, hne⟩
      rw [hnil] at hmem
      cases hmem
    rw [hnorm] at hskip
    exact .inr ⟨hnil, hskip, by rw [hnorm]⟩

/-- If the last series is not `norm`, it is the last of the others. -/
theorem last_other {last : String} (hlast : (Dict.keys data2).getLast? = some last)
    (hne : last ≠ a.norm) : (others a data2).getLast? = some last := by
  obtain ⟨front, hfront⟩ := List.getLast?_eq_some_iff.mp hlast
  unfold others
  rw [hfront, List.filter_append]
  simp [hne]

theorem ne_of_mem_dropLast (h : Given a data2) {z : String}
    (hz : (others a data2).getLast? = some z) (hkey : key ∈ (others a data2).dropLast) :
    key ≠ z := by
  have hnd : (others a data2).Nodup := h.nodup.filter _
  obtain ⟨front, hfront⟩ := List.getLast?_eq_some_iff.mp hz
  rw [hfront, List.nodup_append] at hnd
  rw [hfront, List.dropLast_concat] at hkey
  exact hnd.2.2 key hkey z (by simp)

theorem mem_dropLast_of_ne {z : String} (hz : (others a data2).getLast? = some z)
    (hkey : key ∈ others a data2) (hne : key ≠ z) : key ∈ (others a data2).dropLast := by
  obtain ⟨front, hfront⟩ := List.getLast?_eq_some_iff.mp hz
  rw [hfront] at hkey ⊢
  rw [List.dropLast_concat]
  simpa [hne] using hkey

/-- What the last object holds is what the last other series is to hold. -/
theorem held_last {last z : String} (hlast : (Dict.keys data2).getLast? = some last)
    (hz : (others a data2).getLast? = some z) :
    held a data2 last = divided a data2 z ↔
      (Dict.keys data2).getLast? = some z ∨ divided a data2 z = original data2 a.norm := by
  have hzn : z ≠ a.norm := (mem_others.mp (List.mem_of_getLast? hz)).2
  by_cases hne : last = a.norm
  · have hlz : last ≠ z := fun heq => hzn (heq ▸ hne)
    rw [hlast, hne, held_norm, Option.some_inj, ← hne]
    simp only [hlz, false_or]
    exact eq_comm
  · have heq : last = z := Option.some.inj ((last_other hlast hne).symm.trans hz)
    rw [heq, held_of_ne hzn]
    simp [hlast, heq]

theorem exists_last (h : Given a data2) : ∃ last, (Dict.keys data2).getLast? = some last := by
  cases hlast : (Dict.keys data2).getLast? with
  | some last => exact ⟨last, rfl⟩
  | none =>
    have hmem := h.norm_mem
    rw [List.getLast?_eq_none_iff.mp hlast] at hmem
    cases hmem

theorem harmless_of_normalizesAll (h : Given a data2) (hall : NormalizesAll a data1 data2) :
    Harmless a data1 data2 := by
  obtain ⟨out, hout, hnormalized, hkept⟩ := hall
  obtain ⟨hspec, hends⟩ := combine_spec data1 h
  obtain ⟨hbased, hnamed⟩ := hends out hout
  obtain ⟨new_key, hnew⟩ := Option.ne_none_iff_exists'.mp hnamed
  obtain ⟨last, hlast⟩ := exists_last h
  obtain ⟨out', hout', hsamples⟩ := hspec hbased last new_key hlast hnew
  rw [hout] at hout'
  cases hout'
  rcases last_new_key_cases hnew with ⟨z, hz, rfl⟩ | ⟨hnil, hskip, rfl⟩
  · have hzmem := mem_others.mp (List.mem_of_getLast? hz)
    have hheld : held a data2 last = divided a data2 z := by
      have hz' := hnormalized z hzmem.1 hzmem.2
      rw [hsamples, if_pos rfl] at hz'
      exact Option.some.inj hz'
    refine ⟨hbased, fun hnil => ?_, fun z' hz' => ?_, fun key hkey => ?_, fun key hkey hne hrep => ?_,
      fun key hkey z' hz' hrep => ?_⟩
    · rw [hnil] at hz
      cases hz
    · obtain rfl := Option.some.inj (hz.symm.trans hz')
      exact (held_last hlast hz).mp hheld
    · have hne := ne_of_mem_dropLast h hz hkey
      have hmem := mem_others.mp (List.dropLast_subset _ hkey)
      have hk := hnormalized key hmem.1 hmem.2
      rw [hsamples, if_neg (fun heq => hne (normalized_key_inj.mp heq))] at hk
      exact hk
    · obtain ⟨hmem, hskip⟩ := mem_copied.mp hkey
      have hk := hkept key hmem hskip
      rw [hsamples, if_neg (fun heq => hrep ⟨z, hz, heq.symm⟩), before_of_copied hkey,
        held_of_ne hne] at hk
      exact (h.divided_eq_iff hmem).mp (Option.some.inj hk)
    · obtain rfl := Option.some.inj (hz.symm.trans hz')
      obtain ⟨hmem, hskip⟩ := mem_copied.mp hkey
      have hk := hkept key hmem hskip
      rw [hsamples, if_pos hrep.symm, hheld] at hk
      exact Option.some.inj hk
  · have hnorm : ∀ key ∈ copied a data2, key = a.norm := by
      intro key hkey
      by_contra hne
      have hmem : key ∈ others a data2 := mem_others.mpr ⟨(mem_copied.mp hkey).1, hne⟩
      rw [hnil] at hmem
      cases hmem
    refine ⟨hbased, fun _ => hskip, ?_, ?_, fun key hkey hne => absurd (hnorm key hkey) hne, ?_⟩
    · simp [hnil]
    · simp [hnil]
    · simp [hnil]

theorem normalizesAll_of_harmless (h : Given a data2) (hsafe : Harmless a data1 data2) :
    NormalizesAll a data1 data2 := by
  obtain ⟨hspec, _⟩ := combine_spec data1 h
  obtain ⟨last, hlast⟩ := exists_last h
  obtain ⟨new_key, hnew⟩ : ∃ new_key, last_new_key a data2 = some new_key := by
    unfold last_new_key
    cases hz : (others a data2).getLast? with
    | some z => exact ⟨normalized_key a z, rfl⟩
    | none =>
      have hmem : a.norm ∈ copied a data2 :=
        mem_copied.mpr ⟨h.norm_mem, hsafe.named (List.getLast?_eq_none_iff.mp hz)⟩
      have hne : copied a data2 ≠ [] := List.ne_nil_of_mem hmem
      obtain ⟨k, hk⟩ : ∃ k, (copied a data2).getLast? = some k :=
        ⟨(copied a data2).getLast hne, List.getLast?_eq_some_getLast hne⟩
      exact ⟨k ++ a.suffix, by rw [hk]; rfl⟩
  obtain ⟨out, hout, hsamples⟩ := hspec hsafe.based last new_key hlast hnew
  refine ⟨out, hout, fun key hkey hne => ?_, fun key hkey hskip => ?_⟩
  · have hmem : key ∈ others a data2 := mem_others.mpr ⟨hkey, hne⟩
    rcases last_new_key_cases hnew with ⟨z, hz, rfl⟩ | ⟨hnil, _, _⟩
    · rw [hsamples]
      by_cases heq : key = z
      · rw [if_pos (congrArg (normalized_key a) heq), heq]
        exact congrArg some ((held_last hlast hz).mpr (hsafe.last z hz))
      · rw [if_neg (fun h => heq (normalized_key_inj.mp h))]
        exact hsafe.earlier key (mem_dropLast_of_ne hz hmem heq)
    · rw [hnil] at hmem
      cases hmem
  · have hcopy : key ∈ copied a data2 := mem_copied.mpr ⟨hkey, hskip⟩
    have hbefore (hrep : ¬Replaced a data2 key) :
        before a data1 data2 (key ++ a.suffix) = some (original data2 key) := by
      rw [before_of_copied hcopy]
      by_cases hne : key = a.norm
      · rw [hne, held_norm]
      · rw [held_of_ne hne, (h.divided_eq_iff hkey).mpr (hsafe.unchanged key hcopy hne hrep)]
    rw [hsamples]
    rcases last_new_key_cases hnew with ⟨z, hz, rfl⟩ | ⟨hnil, _, rfl⟩
    · by_cases hrep : key ++ a.suffix = normalized_key a z
      · rw [if_pos hrep, (held_last hlast hz).mpr (hsafe.last z hz),
          hsafe.replaced key hcopy z hz hrep.symm]
      · rw [if_neg hrep]
        refine hbefore ?_
        rintro ⟨z', hz', hrep'⟩
        obtain rfl := Option.some.inj (hz.symm.trans hz')
        exact hrep hrep'.symm
    · have honly : ∀ k ∈ Dict.keys data2, k = a.norm := by
        intro k hk
        by_contra hne
        have hmem : k ∈ others a data2 := mem_others.mpr ⟨hk, hne⟩
        rw [hnil] at hmem
        cases hmem
      rw [honly key hkey, if_pos rfl, honly last (List.mem_of_getLast? hlast), held_norm]

/-- Every series is there normalized and every copy as it was iff nothing goes
    wrong with the files. -/
theorem normalizesAll_iff (a : Args) (data1 : List (String × Option (List Sample)))
    (data2 : List (String × Series)) (h : Given a data2) :
    NormalizesAll a data1 data2 ↔ Harmless a data1 data2 :=
  ⟨harmless_of_normalizesAll h, normalizesAll_of_harmless h⟩

/-! ## Section 6: Some series -/

/-- A sample with one field that is divided. -/
def point (x y : ℚ) : Sample := [("x", x), ("y", y)]

/-- Options for which only the given series are copied. -/
def args (series : List String) : Args where
  suffix := "_new"
  norm := "baseline"
  norm_suffix := "_norm"
  norm_x := "x"
  series := series

def two_series : List (String × Series) :=
  [("baseline", ⟨"b", [point 1 4]⟩), ("contention", ⟨"c", [point 1 6]⟩)]

theorem normalizesAll_iff_two_series :
    NormalizesAll (args ["baseline"]) [] two_series ↔ Harmless (args ["baseline"]) [] two_series :=
  normalizesAll_iff _ _ _ ⟨by decide, by decide, by decide, by decide, by decide, by decide⟩

def three_series : List (String × Series) :=
  [("baseline", ⟨"b", [point 1 4]⟩), ("allocation", ⟨"a", [point 1 6]⟩),
    ("contention", ⟨"c", [point 1 8]⟩)]

/-- Only the last of the two other series is stored. -/
theorem only_one_is_stored : Given (args []) three_series ∧
    ¬NormalizesAll (args []) [] three_series := by
  have hgiven : Given (args []) three_series :=
    ⟨by decide, by decide, by decide, by decide, by decide, by decide⟩
  refine ⟨hgiven, fun hall => ?_⟩
  have hmissing : before (args []) [] three_series "allocation_new_norm" = none := by
    decide +kernel
  have hthere := (harmless_of_normalizesAll hgiven hall).earlier "allocation" (by decide +kernel)
  rw [show normalized_key (args []) "allocation" = "allocation_new_norm" from rfl, hmissing]
    at hthere
  cases hthere

end CombineJson
