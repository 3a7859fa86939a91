import Catbench.PostProcess.Fields

/-! # The tables of post-processing

    * **Names**: the fields that are derived end in other letters than those
      they are derived from.
    * **Rules**: the rules of the passes are separate from each other.
    * **Descriptions**: no text that replaces the start of a description starts
      like one that is replaced.
-/

open Json

namespace PostProcess

variable {F : Type}

/-! ## Section 1: Names -/

theorem key_injective : Function.Injective key := by
  intro s t h
  exact String.toList_injective (Str.ofText_injective (Key.str.inj h))

def last (t : String) : Option Char := t.toList.getLast?

/-- A text is not decoded to find its last letter. -/
theorem last_ofList (cs : List Char) : last (String.ofList cs) = cs.getLast? := by
  rw [last, String.toList_ofList]

theorem key_ne {s t : String} (h : last s ≠ last t) : key s ≠ key t :=
  fun heq => h (congrArg last (key_injective heq))

theorem last_append (s t : String) (h : t ≠ "") : last (s ++ t) = last t := by
  have hne : t.toList ≠ [] := by simpa using h
  rw [last, last, String.toList_append, List.getLast?_append_of_ne_nil _ hne]

/-- The fields that others are derived from. -/
def source_names : List String :=
  "table_entries" :: "instructions" :: (unit_conversions.map Prod.fst ++ miss_counters)

def sources : List Key := source_names.map key

/-- The names of derived fields end in letters that none of these end in. -/
theorem last_source : ∀ s ∈ source_names, last s ∉ [some 'e', some 'd', some 'n'] := by
  unfold source_names unit_conversions miss_counters
  simp only [List.map_cons, List.map_nil, List.cons_append, List.nil_append, List.forall_mem_cons]
  repeat' apply And.intro
  all_goals first | (rw [last_ofList]; decide) | simp

theorem not_mem_sources {t : String} (h : last t ∈ [some 'e', some 'd', some 'n']) :
    key t ∉ sources := by
  intro hmem
  obtain ⟨s, hs, heq⟩ := List.mem_map.mp hmem
  exact last_source s hs (key_injective heq ▸ h)

theorem last_unit (p : String × ℤ) : last (p.1 ++ "-scaled") = some 'd' :=
  (last_append _ _ (by decide)).trans (by decide)

theorem last_miss (t : String) : last (t ++ "-per-kilo-instruction") = some 'n' :=
  (last_append _ _ (by decide)).trans (by decide)

/-! ## Section 2: Rules -/

section rules
variable (ar : Arithmetic F)

/-- What `entries2bytes` adds to a sample. -/
def size_rule (bytes_per_entry : ℤ) : Rule F where
  datakey := key "table_entries"
  new_key := key "working_set_size"
  value sample := do
    let entries ← sample (key "table_entries")
    ar.div (← ar.div (← ar.mul entries (.int bytes_per_entry)) (.int 1024)) (.int 1024)
  label _ := none

theorem sourced_size_rule (bytes_per_entry : ℤ) : Sourced sources (size_rule ar bytes_per_entry) := by
  constructor
  · intro f w h
    obtain ⟨v, -, h⟩ := Option.bind_eq_some_iff.mp h
    obtain ⟨a, -, h⟩ := Option.bind_eq_some_iff.mp h
    obtain ⟨b, -, h⟩ := Option.bind_eq_some_iff.mp h
    exact (ar.div_number h).2.2
  · intro f g w hfg h
    obtain ⟨v, hv, h⟩ := Option.bind_eq_some_iff.mp h
    obtain ⟨a, ha, h'⟩ := Option.bind_eq_some_iff.mp h
    obtain ⟨b, hb, -⟩ := Option.bind_eq_some_iff.mp h'
    -- what is divided is a number, so what was multiplied is one
    have hnum : isNumber v = true := (ar.mul_number ha (ar.div_number hb).1).1
    have hmem : key "table_entries" ∈ sources := List.mem_cons_self
    simp only [size_rule, hfg _ hmem v hnum hv, Option.bind_eq_bind, Option.bind_some]
    exact h

theorem plain_description_of {t : String} {l v : Val F} (h : description_of t l = some v)
    (hl : Plain l) : Plain v := by
  obtain ⟨w, hw, hv⟩ := Option.bind_eq_some_iff.mp h
  exact plain_getitem (plain_getitem hl hw) hv

theorem plain_label {u v : Val F} (hu : Plain u) (hv : Plain v) : Plain (label u v) := by
  refine .dict (by simp [key, Key.isStr]) ?_ (by simp [hu, hv])
  have hne : key "description" ≠ key "unit" := key_ne (by decide)
  simpa using hne

theorem plain_text (t : String) : Plain (text t : Val F) := .str _

theorem separate_unit_rules : Separate sources (unit_conversions.map (unit_rule ar)) := by
  have hmem : ∀ p ∈ unit_conversions, key p.1 ∈ sources := fun p hp =>
    List.mem_map_of_mem (List.mem_cons_of_mem _ (List.mem_cons_of_mem _
      (List.mem_append_left _ (List.mem_map_of_mem hp))))
  constructor
  all_goals simp only [List.forall_mem_map]
  · intro p hp
    constructor
    · intro f w h
      obtain ⟨v, -, h⟩ := Option.bind_eq_some_iff.mp h
      exact (ar.div_number h).2.2
    · intro f g w hfg h
      obtain ⟨v, hv, h⟩ := Option.bind_eq_some_iff.mp h
      simp only [unit_rule, hfg _ (hmem p hp) v (ar.div_number h).1 hv, Option.bind_eq_bind,
        Option.bind_some]
      exact h
  · exact hmem
  · exact fun p _ => not_mem_sources (by simp [last_unit])
  · intro p _ q _ heq
    exact congrArg key ((String.append_left_inj _).mp (key_injective heq))
  · exact fun _ _ => rfl
  · intro p _ l v h hl
    obtain ⟨w, hw, heq⟩ := Option.bind_eq_some_iff.mp h
    refine Option.some.inj heq ▸ plain_label (plain_description_of hw hl) ?_
    unfold num2word
    split
    · exact plain_text _
    · split
      · exact plain_text _
      · exact .null

theorem separate_miss_rules : Separate sources (miss_counters.map (miss_rule ar)) := by
  have hmem : ∀ t ∈ miss_counters, key t ∈ sources := fun t ht =>
    List.mem_map_of_mem (List.mem_cons_of_mem _ (List.mem_cons_of_mem _
      (List.mem_append_right _ ht)))
  have hinstr : key "instructions" ∈ sources := List.mem_cons_of_mem _ List.mem_cons_self
  constructor
  all_goals simp only [List.forall_mem_map]
  · intro t ht
    constructor
    · intro f w h
      obtain ⟨v, -, h⟩ := Option.bind_eq_some_iff.mp h
      obtain ⟨u, -, h⟩ := Option.bind_eq_some_iff.mp h
      obtain ⟨q, -, h⟩ := Option.bind_eq_some_iff.mp h
      exact (ar.div_number h).2.2
    · intro f g w hfg h
      obtain ⟨v, hv, h⟩ := Option.bind_eq_some_iff.mp h
      obtain ⟨u, hu, h⟩ := Option.bind_eq_some_iff.mp h
      obtain ⟨q, hq, h⟩ := Option.bind_eq_some_iff.mp h
      simp only [miss_rule, hfg _ (hmem t ht) v (ar.div_number h).1 hv,
        hfg _ hinstr u (ar.div_number hq).1 hu, hq, Option.bind_eq_bind, Option.bind_some]
      exact h
  · exact hmem
  · exact fun t _ => not_mem_sources (by simp [last_miss])
  · intro s _ t _ heq
    exact congrArg key ((String.append_left_inj _).mp (key_injective heq))
  · exact fun _ _ => rfl
  · intro t _ l v h hl
    obtain ⟨w, -, h⟩ := Option.bind_eq_some_iff.mp h
    split at h
    · exact Option.some.inj h ▸ plain_label (.str _) (plain_text _)
    · cases h

end rules

/-! ## Section 3: Descriptions -/

/-- No replacement applies. -/
def Final (t : Str) : Prop := ∀ p ∈ original_descriptions, startswith t p.1.text = false

theorem startswith_eq_false {s old : Str} (hne : old.points ≠ [])
    (h : s.points.head? ≠ old.points.head?) : startswith s old = false := by
  rw [startswith, Bool.eq_false_iff, Ne, List.isPrefixOf_iff_prefix]
  rintro ⟨rest, hrest⟩
  exact h (by rw [← hrest, List.head?_append_of_ne_nil _ hne])

/-- A replacement at the start is there afterwards. -/
theorem head?_replace {s old new : Str} {c : CodePoint} (hne : old.points ≠ [])
    (hnew : new.points.head? = some c) (hc : ¬c.IsHigh) (h : startswith s old = true) :
    (replace s old new).points.head? = some c := by
  rw [startswith, List.isPrefixOf_iff_prefix] at h
  obtain ⟨a, u, hs⟩ := List.exists_cons_of_ne_nil (h.ne_nil hne)
  obtain ⟨t, ht⟩ := List.head?_eq_some_iff.mp hnew
  rw [hs] at h
  show (join (replace_from old.points new.points 0 s.points)).head? = some c
  rw [hs, replace_from, if_pos h, ht, List.cons_append,
    join_cons_of_not fun b _ hb => hc hb.1, List.head?_cons]

theorem original_nonempty : ∀ p ∈ original_descriptions, p.1.text.points ≠ [] := by
  decide +kernel

/-- No name that is replaced starts like a text that is put in. -/
theorem original_head : ∀ p ∈ original_descriptions, ∀ q ∈ original_descriptions ++ descriptions,
    q.2.points.head? ≠ p.1.text.points.head? := by
  decide +kernel

theorem replacement_head : ∀ p ∈ original_descriptions,
    p.2.points.head?.any fun c => !decide c.IsHigh := by
  decide +kernel

theorem final_of_head {t : Str} {q : Key × Str} (hq : q ∈ original_descriptions ++ descriptions)
    (h : t.points.head? = q.2.points.head?) : Final t :=
  fun p hp => startswith_eq_false (original_nonempty p hp) (h ▸ original_head p hp q hq)

theorem final_replace {s : Str} {p : Key × Str} (hp : p ∈ original_descriptions)
    (h : startswith s p.1.text = true) : Final (replace s p.1.text p.2) := by
  obtain ⟨c, hc, hhigh⟩ := (Option.any_eq_true _ _).mp (replacement_head p hp)
  refine final_of_head (List.mem_append_left _ hp) ?_
  rw [head?_replace (original_nonempty p hp) hc (by simpa using hhigh) h, hc]

theorem foldl_of_final {s : Str} (h : Final s) {ps : List (Key × Str)}
    (hps : ∀ p ∈ ps, p ∈ original_descriptions) : ps.foldl replace_start s = s := by
  induction ps with
  | nil => rfl
  | cons p ps ih =>
    rw [List.forall_mem_cons] at hps
    rw [List.foldl_cons, replace_start, if_neg (by simp [h p hps.1]), ih hps.2]

/-- At most one replacement is made, and none applies afterwards. -/
theorem final_foldl {ps : List (Key × Str)} (hps : ∀ p ∈ ps, p ∈ original_descriptions) (s : Str) :
    Final (ps.foldl replace_start s) ∨
      ps.foldl replace_start s = s ∧ ∀ p ∈ ps, startswith s p.1.text = false := by
  induction ps with
  | nil => exact .inr ⟨rfl, by simp⟩
  | cons p ps ih =>
    rw [List.forall_mem_cons] at hps
    rw [List.foldl_cons, replace_start]
    by_cases hp : startswith s p.1.text = true
    · have hfinal := final_replace hps.1 hp
      rw [if_pos hp, foldl_of_final hfinal hps.2]
      exact .inl hfinal
    · rw [if_neg hp]
      rw [Bool.not_eq_true] at hp
      refine (ih hps.2).imp id fun h => ⟨h.1, ?_⟩
      rw [List.forall_mem_cons]
      exact ⟨hp, h.2⟩

theorem final_fix (o : Order) (s : Str) :
    Final ((o.items original_descriptions).foldl replace_start s) := by
  have hmem := fun p => (o.perm original_descriptions).mem_iff (a := p)
  rcases final_foldl (fun p => (hmem p).mp) s with h | ⟨heq, h⟩
  · exact h
  · rw [heq]
    exact fun p hp => h p ((hmem p).mpr hp)

end PostProcess
