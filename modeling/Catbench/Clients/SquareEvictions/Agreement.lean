import Catbench.Clients.SquareEvictions.Script
import Mathlib.Data.List.Induction

/-! # Two readings of one command line

    For arguments that the loop around `getopt` accepts, when does
    `square_evictions_csv` record what `square_evictions` does?  It has to get
    through all of them, and every number that was given has to be the one in
    effect.
-/

open Getopt

namespace SquareEvictionsOptions

/-! ## Section 1: Agreement -/

/-- The number that the last value of an option gives. -/
def in_effect (rs : List Report) (o : Char) : Option ℤ :=
  (rs.filter fun r => r.flag = o).getLast?.bind fun r => r.optarg.text.bind parse_arg_arg

/-- What is recorded is what the program does: the switches that were set, and
    for each option with a number the value in effect and no other. -/
structure Agrees (s : Settings) (seen : List Char) (rows : List (Char × Option ℤ)) : Prop where
  switches : ∀ c, c ∈ seen ↔ c ∈ s.switches
  numbers : ∀ o ∈ numbered, ∀ z, (o, some z) ∈ rows ↔ s.number o = some z

/-- The script accepts the arguments, and what it records agrees. -/
def Records (shift_exits : Bool) (args : List Text) (s : Settings) : Prop :=
  ∃ seen rows needed, (∀ fuel, needed ≤ fuel →
    square_evictions_csv shift_exits fuel args = .ok (seen, rows)) ∧ Agrees s seen rows

section agreement
variable {fopen : Text → Bool} {rs : List Report} {s s' : Settings}

theorem in_effect_concat (rs : List Report) (r : Report) (o : Char) :
    in_effect (rs ++ [r]) o =
      if r.flag = o then r.optarg.text.bind parse_arg_arg else in_effect rs o := by
  unfold in_effect
  rw [List.filter_append]
  by_cases h : r.flag = o
  · rw [if_pos h, List.filter_cons_of_pos (by simpa using h), List.filter_nil, List.getLast?_concat]
    rfl
  · rw [if_neg h, List.filter_cons_of_neg (by simpa using h), List.filter_nil, List.append_nil]

/-! ## Section 2: The program -/

/-- What one turn of the loop does to an option: it sets a switch, or a number. -/
structure Turn (s s' : Settings) (r : Report) : Prop where
  switches : s'.switches = s.switches ++ switches_of [r]
  parsed : Parsed r
  number : ∀ o ∈ numbered, s'.number o =
    if r.flag = o then r.optarg.text.bind parse_arg_arg else s.number o

/-- Options that are not recorded set their switch, and maybe other numbers. -/
theorem turn_switch {r : Report} (hflag : r.flag ∉ numbered)
    (hswitches : s'.switches = s.switches ++ [r.flag])
    (hnumber : ∀ o ∈ numbered, s'.number o = s.number o) : Turn s s' r where
  switches := by
    rw [hswitches]
    simp [switches_of, hflag]
  parsed := fun h => absurd h hflag
  number := by
    intro o ho
    have hne : r.flag ≠ o := fun heq => hflag (heq ▸ ho)
    rw [if_neg hne, hnumber o ho]

theorem turn_numbered {r : Report} (hflag : r.flag ∈ numbered) {v : Text} {val : ℤ}
    (hv : r.optarg.text = some v) (hval : parse_arg_arg v = some val) :
    Turn s (s.set r.flag val) r where
  switches := by
    rw [(of_numbered hflag).1, List.append_nil]
    rfl
  parsed := fun _ => ⟨v, val, hv, hval⟩
  number := by
    intro o ho
    show (if o = r.flag then some val else s.number o) = _
    by_cases heq : o = r.flag
    · rw [if_pos heq, if_pos heq.symm, hv]
      exact hval.symm
    · rw [if_neg heq, if_neg fun h => heq h.symm]

theorem letters_of_numbered {c : Char} (hc : c ∈ numbered) : c ≠ 'f' ∧ c ≠ 'l' ∧ c ≠ 'r' := by
  have hall : ∀ c ∈ numbered, c ≠ 'f' ∧ c ≠ 'l' ∧ c ≠ 'r' :=
    List.all_iff_forall_prop.mp (by decide)
  exact hall c hc

theorem turn_of_plain {r : Report} (harity : arity optstring r.flag = some .no_value)
    (hnone : r.optarg = .none) (h : each_arg fopen s r = some s') : Turn s s' r := by
  have hall : ∀ c ∈ numbered, arity optstring c ≠ some .no_value :=
    List.all_iff_forall_prop.mp (by decide)
  have hflag : r.flag ∉ numbered := fun hmem => hall _ hmem harity
  unfold each_arg at h
  rw [hnone] at h
  rw [← Option.some.inj h]
  exact turn_switch hflag rfl fun _ _ => rfl

theorem turn_of_required {r : Report} (harity : arity optstring r.flag = some .required)
    (hne : r.optarg ≠ .none) (h : each_arg fopen s r = some s') : Turn s s' r := by
  obtain ⟨v, hv⟩ : ∃ v, r.optarg.text = some v := by
    cases hr : r.optarg with
    | none => exact absurd hr hne
    | attached v => exact ⟨v, rfl⟩
    | detached v => exact ⟨v, rfl⟩
  unfold each_arg at h
  rw [hv] at h
  simp only at h
  rcases required_cases harity with hflag | hflag | hflag
  · obtain ⟨hf, hl, hr⟩ := letters_of_numbered hflag
    rw [if_neg hf, if_neg hl] at h
    cases hval : parse_arg_arg v with
    | none =>
      rw [hval] at h
      cases h
    | some val =>
      rw [hval] at h
      simp only [if_neg hr] at h
      split at h
      · -- the stride of `-j` is checked once more
        cases h
      · rw [← Option.some.inj h]
        exact turn_numbered hflag hv hval
  · -- `-f`, whose value is read where it is used
    rw [if_pos hflag] at h
    rw [← Option.some.inj h]
    exact turn_switch (by rw [hflag]; decide) (by rw [hflag]; rfl) fun _ _ => rfl
  · -- `-l`, whose value names a file
    rw [if_neg (by rw [hflag]; decide), if_pos hflag] at h
    split at h
    · rw [← Option.some.inj h]
      exact turn_switch (by rw [hflag]; decide) (by rw [hflag]; rfl) fun _ _ => rfl
    · cases h

/-- `-r`, with or without an increment. -/
theorem turn_of_optional {r : Report} (harity : arity optstring r.flag = some .optional)
    (h : each_arg fopen s r = some s') : Turn s s' r := by
  have hflag := optional_cases harity
  have hnot : r.flag ∉ numbered := by
    rw [hflag]
    decide
  unfold each_arg at h
  cases hv : r.optarg.text with
  | none =>
    rw [hv] at h
    rw [← Option.some.inj h]
    exact turn_switch hnot rfl fun _ _ => rfl
  | some v =>
    rw [hv] at h
    simp only at h
    rw [if_neg (by rw [hflag]; decide), if_neg (by rw [hflag]; decide)] at h
    cases hval : parse_arg_arg v with
    | none =>
      rw [hval] at h
      cases h
    | some val =>
      rw [hval] at h
      simp only [if_pos hflag] at h
      rw [← Option.some.inj h]
      refine turn_switch hnot (by rw [hflag]; rfl) ?_
      intro o ho
      exact if_neg (letters_of_numbered ho).2.2

theorem turn_of_each_arg {r : Report} (hfits : Fits optstring r)
    (h : each_arg fopen s r = some s') : Turn s s' r := by
  rcases hfits with ⟨harity, hnone⟩ | ⟨harity, hne⟩ | harity
  · exact turn_of_plain harity hnone h
  · exact turn_of_required harity hne h
  · exact turn_of_optional harity h

/-- **Program**: the loop sets the switches of the options, and leaves the last
    numbers in effect. -/
theorem settings_eq (hfits : ∀ r ∈ rs, Fits optstring r) (h : settings fopen rs = some s) :
    s.switches = switches_of rs ∧ (∀ r ∈ rs, Parsed r) ∧
      ∀ o ∈ numbered, s.number o = in_effect rs o := by
  induction rs using List.reverseRecOn generalizing s with
  | nil =>
    rw [← Option.some.inj h]
    exact ⟨rfl, by simp, fun _ _ => rfl⟩
  | append_singleton rs r ih =>
    rw [List.forall_mem_append, List.forall_mem_singleton] at hfits
    unfold settings at h
    rw [List.foldlM_append] at h
    obtain ⟨t, ht, hlast⟩ := Option.bind_eq_some_iff.mp h
    obtain ⟨hswitches, hparsed, hnumber⟩ := ih hfits.1 ht
    have hturn : each_arg fopen t r = some s := by simpa using hlast
    obtain ⟨hswitches', hparsed', hnumber'⟩ := turn_of_each_arg hfits.2 hturn
    refine ⟨?_, ?_, ?_⟩
    · rw [hswitches', hswitches, switches_of_append]
    · rw [List.forall_mem_append, List.forall_mem_singleton]
      exact ⟨hparsed, hparsed'⟩
    · intro o ho
      rw [hnumber' o ho, in_effect_concat, hnumber o ho]

/-! ## Section 3: The script -/

/-- The rows are stored if all their values can be converted. -/
theorem stored_eq {header : List (Char × Option Text)} {rows : List (Char × Option ℤ)} :
    stored header = some rows ↔
      (∀ row ∈ header, ∀ v, row.2 = some v → (Jaguar.int v).isSome = true) ∧
        rows = header.map fun row => (row.1, row.2.bind Jaguar.int) := by
  induction header generalizing rows with
  | nil =>
    constructor
    · intro h
      exact ⟨by simp, (Option.some.inj h).symm⟩
    · intro h
      rw [h.2]
      rfl
  | cons row header ih =>
    obtain ⟨flag, value⟩ := row
    rw [List.forall_mem_cons, List.map_cons]
    cases value with
    | none =>
      rw [stored, Option.map_eq_some_iff]
      simp only [ih]
      constructor
      · intro h
        obtain ⟨rows', ⟨hall, rfl⟩, rfl⟩ := h
        exact ⟨⟨nofun, hall⟩, rfl⟩
      · intro h
        obtain ⟨⟨-, hall⟩, rfl⟩ := h
        exact ⟨_, ⟨hall, rfl⟩, rfl⟩
    | some v =>
      rw [stored]
      cases hv : Jaguar.int v with
      | none =>
        constructor
        · intro h
          cases h
        · intro h
          have hsome := h.1.1 v rfl
          rw [hv] at hsome
          cases hsome
      | some z =>
        show (stored header).map _ = some rows ↔ _
        rw [Option.map_eq_some_iff]
        simp only [ih]
        constructor
        · intro h
          obtain ⟨rows', ⟨hall, rfl⟩, rfl⟩ := h
          refine ⟨⟨?_, hall⟩, ?_⟩
          · intro v' hv'
            rw [← Option.some.inj hv', hv]
            rfl
          · simp [hv]
        · intro h
          obtain ⟨⟨-, hall⟩, rfl⟩ := h
          exact ⟨_, ⟨hall, rfl⟩, by simp [hv]⟩

/-- With enough fuel, the script ends as it is decided. -/
theorem csv_of_clear {shift_exits : Bool} {args : List Text}
    (hdecided : Decided shift_exits args rs) (hclear : Clear shift_exits rs) :
    ∃ k, ∀ fuel, k ≤ fuel → csv_loop shift_exits fuel ⟨args, [], []⟩ =
      .ok ⟨[], switches_of rs, rows_of rs⟩ := by
  obtain ⟨k, hk⟩ := hdecided.leads hclear [] []
  refine ⟨k + 1, ?_⟩
  intro fuel hfuel
  have hsum : k + ((fuel - k - 1) + 1) = fuel := by omega
  have hrun := hk ((fuel - k - 1) + 1)
  rw [hsum] at hrun
  rw [hrun]
  rfl

theorem csv_of_not_clear {shift_exits : Bool} {args : List Text}
    (hdecided : Decided shift_exits args rs) (hclear : ¬Clear shift_exits rs) :
    ∃ k e, ∀ fuel, k ≤ fuel → csv_loop shift_exits fuel ⟨args, [], []⟩ = .error e := by
  obtain ⟨e, k, -, hk⟩ := hdecided.fails hclear [] []
  refine ⟨k, e, ?_⟩
  intro fuel hfuel
  have hrun := hk (fuel - k)
  rw [Nat.add_sub_cancel' hfuel] at hrun
  exact hrun

theorem mem_rows_of {o : Char} {value : Option Text} :
    (o, value) ∈ rows_of rs ↔ o ∈ numbered ∧ ∃ r ∈ rs, r.flag = o ∧ r.optarg.text = value := by
  unfold rows_of
  rw [List.mem_map]
  constructor
  · intro h
    obtain ⟨r, hr, heq⟩ := h
    obtain ⟨hmem, hflag⟩ := List.mem_filter.mp hr
    obtain ⟨rfl, rfl⟩ := Prod.mk.inj heq
    exact ⟨by simpa using hflag, r, hmem, rfl, rfl⟩
  · intro h
    obtain ⟨ho, r, hmem, rfl, rfl⟩ := h
    exact ⟨r, List.mem_filter.mpr ⟨hmem, by simpa using ho⟩, rfl⟩

/-- A number that is in effect is that of an option that was given. -/
theorem exists_of_in_effect {o : Char} {z : ℤ} (h : in_effect rs o = some z) :
    ∃ r ∈ rs, r.flag = o := by
  obtain ⟨r, hr, -⟩ := Option.bind_eq_some_iff.mp h
  obtain ⟨hmem, hflag⟩ := List.mem_filter.mp (List.mem_of_getLast? hr)
  exact ⟨r, hmem, by simpa using hflag⟩

/-- An option that was given and accepted has a number in effect. -/
theorem in_effect_isSome (hparsed : ∀ r ∈ rs, Parsed r) {r : Report} (hr : r ∈ rs)
    (hflag : r.flag ∈ numbered) : (in_effect rs r.flag).isSome = true := by
  -- so there is a last one of them, which was accepted
  have hmem : r ∈ rs.filter fun r' => r'.flag = r.flag := List.mem_filter.mpr ⟨hr, by simp⟩
  unfold in_effect
  cases hlast : (rs.filter fun r' => r'.flag = r.flag).getLast? with
  | none =>
    rw [List.getLast?_eq_none_iff.mp hlast] at hmem
    cases hmem
  | some r' =>
    obtain ⟨hr', hflag'⟩ := List.mem_filter.mp (List.mem_of_getLast? hlast)
    have heq : r'.flag = r.flag := by simpa using hflag'
    obtain ⟨v, val, hv, hval⟩ := hparsed r' hr' (heq ▸ hflag)
    show (r'.optarg.text.bind parse_arg_arg).isSome = true
    rw [hv]
    show (parse_arg_arg v).isSome = true
    rw [hval]
    rfl

/-- **Rows**: they hold the numbers in effect and no other exactly if every
    value given for an option is converted to its number in effect. -/
theorem stored_in_effect_iff (hparsed : ∀ r ∈ rs, Parsed r) :
    (∃ rows, stored (rows_of rs) = some rows ∧
        ∀ o ∈ numbered, ∀ z, (o, some z) ∈ rows ↔ in_effect rs o = some z) ↔
      ∀ r ∈ rs, r.flag ∈ numbered → r.optarg.text.bind Jaguar.int = in_effect rs r.flag := by
  constructor
  · intro h
    obtain ⟨rows, hstored, hnumbers⟩ := h
    obtain ⟨hconverts, hrows⟩ := stored_eq.mp hstored
    intro r hr hflag
    obtain ⟨v, val, hv, -⟩ := hparsed r hr hflag
    have hrow : (r.flag, some v) ∈ rows_of rs := mem_rows_of.mpr ⟨hflag, r, hr, rfl, hv⟩
    obtain ⟨z, hz⟩ := Option.isSome_iff_exists.mp (hconverts _ hrow v rfl)
    -- what is recorded for the option is its converted value
    have hmem : (r.flag, some z) ∈ rows := by
      rw [hrows]
      refine List.mem_map.mpr ⟨_, hrow, ?_⟩
      show (r.flag, Jaguar.int v) = _
      rw [hz]
    rw [hv, (hnumbers r.flag hflag z).mp hmem]
    exact hz
  · intro hvalues
    -- every row has a value given for its option, so the number in effect
    have hgiven : ∀ o value, (o, value) ∈ rows_of rs → value.bind Jaguar.int = in_effect rs o := by
      intro o value hrow
      obtain ⟨ho, r, hr, rfl, rfl⟩ := mem_rows_of.mp hrow
      exact hvalues r hr ho
    refine ⟨_, stored_eq.mpr ⟨?_, rfl⟩, ?_⟩
    · intro row hrow v hv
      obtain ⟨o, value⟩ := row
      obtain rfl : value = some v := hv
      have hconverts : Jaguar.int v = in_effect rs o := hgiven o _ hrow
      obtain ⟨ho, r, hr, rfl, -⟩ := mem_rows_of.mp hrow
      rw [hconverts]
      exact in_effect_isSome hparsed hr ho
    · intro o ho z
      rw [List.mem_map]
      constructor
      · intro hmem
        obtain ⟨⟨o', value⟩, hrow, heq⟩ := hmem
        obtain ⟨rfl, hz⟩ := Prod.mk.inj heq
        rw [← hgiven _ _ hrow]
        exact hz
      · intro hz
        -- the number in effect was given by some option, which has a row
        obtain ⟨r, hr, rfl⟩ := exists_of_in_effect hz
        have hrow : (r.flag, r.optarg.text) ∈ rows_of rs := mem_rows_of.mpr ⟨ho, r, hr, rfl, rfl⟩
        refine ⟨_, hrow, ?_⟩
        show (r.flag, r.optarg.text.bind Jaguar.int) = _
        rw [hgiven _ _ hrow, hz]

/-- **Agreement**: for readable arguments that the program accepts, what the
    script records agrees exactly if there is no `-u`, nothing to shift is missing
    at the end, and every value given for an option is the number in effect. -/
theorem parsers_agree_iff (shift_exits : Bool) (fopen : Text → Bool) {args : List Text}
    {rs : List Report} {s : Settings} (hreports : reports optstring args = some rs)
    (haccepts : settings fopen rs = some s) (hreadable : ∀ r ∈ rs, Readable r) :
    Records shift_exits args s ↔
      Clear shift_exits rs ∧
        ∀ r ∈ rs, r.flag ∈ numbered → r.optarg.text.bind Jaguar.int = in_effect rs r.flag := by
  obtain ⟨hswitches, hparsed, hnumber⟩ := settings_eq (fits_of_reports hreports) haccepts
  have hdecided : Decided shift_exits args rs := script_decided hreports hparsed hreadable
  rw [← stored_in_effect_iff hparsed]
  constructor
  · intro h
    obtain ⟨seen, rows, needed, hcsv, hagrees⟩ := h
    by_cases hclear : Clear shift_exits rs
    · refine ⟨hclear, ?_⟩
      obtain ⟨k, hloop⟩ := csv_of_clear hdecided hclear
      have hrun := hcsv (max needed k) (Nat.le_max_left _ _)
      unfold square_evictions_csv at hrun
      rw [hloop _ (Nat.le_max_right _ _)] at hrun
      simp only at hrun
      cases hstored : stored (rows_of rs) with
      | none =>
        rw [hstored] at hrun
        cases hrun
      | some rows' =>
        rw [hstored] at hrun
        obtain ⟨-, rfl⟩ := Prod.mk.inj (Except.ok.inj hrun)
        refine ⟨_, rfl, ?_⟩
        intro o ho z
        rw [← hnumber o ho]
        exact hagrees.numbers o ho z
    · obtain ⟨k, e, hloop⟩ := csv_of_not_clear hdecided hclear
      have hrun := hcsv (max needed k) (Nat.le_max_left _ _)
      unfold square_evictions_csv at hrun
      rw [hloop _ (Nat.le_max_right _ _)] at hrun
      cases hrun
  · intro h
    obtain ⟨hclear, rows, hstored, hnumbers⟩ := h
    obtain ⟨k, hloop⟩ := csv_of_clear hdecided hclear
    refine ⟨switches_of rs, rows, k, ?_, ⟨fun c => by rw [hswitches], ?_⟩⟩
    · intro fuel hfuel
      unfold square_evictions_csv
      rw [hloop fuel hfuel]
      simp only
      rw [hstored]
    · intro o ho z
      rw [hnumber o ho]
      exact hnumbers o ho z

end agreement

/-- `-hr5 -n 3 -a7`. -/
theorem parsers_agree_cluster : ∃ rs s,
    reports optstring ["-hr5".toList, "-n".toList, ['3'], "-a7".toList] = some rs ∧
      settings (fun _ => false) rs = some s ∧
      Records true ["-hr5".toList, "-n".toList, ['3'], "-a7".toList] s := by
  have hreports : reports optstring ["-hr5".toList, "-n".toList, ['3'], "-a7".toList] =
      some [⟨'h', .none⟩, ⟨'r', .attached ['5']⟩, ⟨'n', .detached ['3']⟩, ⟨'a', .attached ['7']⟩] := by
    decide
  have haccepts : (settings (fun _ => false) [⟨'h', .none⟩, ⟨'r', .attached ['5']⟩,
      ⟨'n', .detached ['3']⟩, ⟨'a', .attached ['7']⟩]).isSome = true := by
    decide
  obtain ⟨s, hs⟩ := Option.isSome_iff_exists.mp haccepts
  refine ⟨_, s, hreports, hs, (parsers_agree_iff true (fun _ => false) hreports hs ?_).mpr ⟨?_, ?_⟩⟩
  · intro r hr
    simp only [List.mem_cons, List.not_mem_nil, or_false] at hr
    rcases hr with rfl | rfl | rfl | rfl
    · exact ⟨nofun, fun h => absurd h (by decide)⟩
    · exact ⟨nofun, fun h => absurd h (by decide)⟩
    · exact ⟨fun h => absurd h (by decide), fun _ v hv => Option.some.inj hv ▸
        List.all_iff_forall_prop.mp (by decide)⟩
    · exact ⟨nofun, fun _ v hv => Option.some.inj hv ▸
        List.all_iff_forall_prop.mp (by decide)⟩
  · refine ⟨by decide, ?_⟩
    intro _ r hr hdrops
    rw [← Option.some.inj hr] at hdrops
    exact absurd hdrops.1 (by decide)
  · decide

/-- `-u` is an option of the program, and ends the script. -/
theorem script_rejects_infinite : ∃ rs s, reports optstring ["-u".toList] = some rs ∧
    settings (fun _ => true) rs = some s ∧
    ∀ shift_exits, ¬Records shift_exits ["-u".toList] s := by
  have hreports : reports optstring ["-u".toList] = some [⟨'u', .none⟩] := by decide
  refine ⟨_, _, hreports, rfl, ?_⟩
  intro shift_exits h
  obtain ⟨seen, rows, needed, hcsv, -⟩ := h
  have hrun := hcsv (needed + 1) (Nat.le_succ _)
  have herror : square_evictions_csv shift_exits (needed + 1) ["-u".toList] =
      .error (.unexpected "-u".toList) := rfl
  rw [herror] at hrun
  cases hrun

example : square_evictions_csv true 9 ["-hr".toList] = .error .cannot_shift := by decide

end SquareEvictionsOptions
