import Catbench.Clients.SquareEvictions.Options
import Mathlib.Data.Bool.AllAny

/-! # What `square_evictions_csv` does with options

    The script on arguments that `getopt` reads as options.

    * **Suffixes**: behind a switch stand the other options of its word.
    * **Words**: the script takes the options of a word one by one.
    * **Vectors**: `script_decided` says what the script sees and records of all
      words, and which vectors it does not get through.
-/

open Getopt

namespace SquareEvictionsOptions

/-! ## Section 1: Suffixes -/

theorem drop_two_cons (a b : Char) (t : Text) : drop_two (a :: b :: t) = t := by
  unfold drop_two
  rw [if_pos (by simp)]
  rfl

/-- The suffix begins as the rest of the word, and is the rest of the word if
    there is no line break in it. -/
theorem suffix_append {flag : Char} (hflag : flag ≠ '\n') {u : Text} (hu : '\n' ∉ u) (t : Text) :
    ∃ t', suffix ('-' :: flag :: (u ++ t)) = u ++ t' ∧ ('\n' ∉ t → t' = t) := by
  unfold suffix
  by_cases ht : '\n' ∈ t
  · -- `sed` edits every line, but the first one begins the same way
    obtain ⟨line, t₂, rfl, hline⟩ := List.eq_append_cons_of_mem ht
    have hbreak : '\n' ∉ '-' :: flag :: (u ++ line) := by
      simp [hflag.symm, hu, hline]
    have hsplit := TextLines.split_append_break hbreak t₂
    have hword : '-' :: flag :: (u ++ (line ++ '\n' :: t₂)) =
        ('-' :: flag :: (u ++ line)) ++ '\n' :: t₂ := by simp
    rw [hword, TextLines.ended, TextLines.rest, hsplit]
    simp only [List.map_cons, drop_two_cons, TextLines.join, List.flatMap_cons, List.append_assoc]
    obtain ⟨t', ht'⟩ := Shell.command_substitution_append hu
      (line ++ (['\n'] ++ (((TextLines.ended t₂).map drop_two).flatMap (· ++ ['\n']) ++
        drop_two (TextLines.rest t₂))))
    exact ⟨t', ht', fun h => absurd ht h⟩
  · have hbreak : '\n' ∉ '-' :: flag :: (u ++ t) := by
      simp [hflag.symm, hu, ht]
    refine ⟨t, ?_, fun _ => rfl⟩
    rw [TextLines.ended, TextLines.rest, TextLines.split_of_no_break hbreak, drop_two_cons]
    have hnone : '\n' ∉ u ++ t := by simp [hu, ht]
    exact Shell.command_substitution_of_notMem hnone

theorem suffix_of_notMem {flag : Char} (hflag : flag ≠ '\n') {t : Text} (ht : '\n' ∉ t) :
    suffix ('-' :: flag :: t) = t := by
  obtain ⟨t', hsuffix, hplain⟩ := suffix_append hflag (List.not_mem_nil) t
  rw [List.nil_append, List.nil_append, hplain ht] at hsuffix
  exact hsuffix

/-! ## Section 2: Runs of the script -/

section runs
variable {shift_exits : Bool} {s s' s'' : State}

/-- The script comes from one state to the other. -/
def Leads (shift_exits : Bool) (s s' : State) : Prop :=
  ∃ k, ∀ n, csv_loop shift_exits (k + n) s = csv_loop shift_exits n s'

/-- The script gives up. -/
def Fails (shift_exits : Bool) (s : State) : Prop :=
  ∃ e k, e ≠ .running ∧ ∀ n, csv_loop shift_exits (k + n) s = .error e

theorem Leads.refl (s : State) : Leads shift_exits s s :=
  ⟨0, fun n => by rw [Nat.zero_add]⟩

theorem Leads.trans (h : Leads shift_exits s s') (h' : Leads shift_exits s' s'') :
    Leads shift_exits s s'' := by
  obtain ⟨k, hk⟩ := h
  obtain ⟨k', hk'⟩ := h'
  refine ⟨k + k', ?_⟩
  intro n
  rw [Nat.add_assoc, hk, hk']

theorem Leads.fails (h : Leads shift_exits s s') (h' : Fails shift_exits s') :
    Fails shift_exits s := by
  obtain ⟨k, hk⟩ := h
  obtain ⟨e, k', he, hk'⟩ := h'
  refine ⟨e, k + k', he, ?_⟩
  intro n
  rw [Nat.add_assoc, hk, hk']

theorem Leads.step {switch : Text} {args : List Text} {seen : List Char}
    {header : List (Char × Option Text)}
    (h : csv_step shift_exits switch ⟨args, seen, header⟩ = .ok s') :
    Leads shift_exits ⟨switch :: args, seen, header⟩ s' := by
  refine ⟨1, ?_⟩
  intro n
  rw [Nat.add_comm, csv_loop]
  simp only [h]

theorem Fails.step {switch : Text} {args : List Text} {seen : List Char}
    {header : List (Char × Option Text)} {e : Stop} (he : e ≠ .running)
    (h : csv_step shift_exits switch ⟨args, seen, header⟩ = .error e) :
    Fails shift_exits ⟨switch :: args, seen, header⟩ := by
  refine ⟨e, 1, he, ?_⟩
  intro n
  rw [Nat.add_comm, csv_loop]
  simp only [h]

end runs

/-! ## Section 3: Options -/

theorem plain_notMem : ∀ c ∈ plain, c ∉ numbered :=
  List.all_iff_forall_prop.mp (by decide)

theorem plain_lower : ∀ c ∈ plain, c ≠ '\n' ∧ ('a' ≤ c && c ≤ 'z') = true :=
  List.all_iff_forall_prop.mp (by decide)

theorem skipping_notMem : ∀ c ∈ skipping, c ∉ numbered ∧ c ∉ plain :=
  List.all_iff_forall_prop.mp (by decide)

theorem no_value_cases {c : Char} (h : arity optstring c = some .no_value) : c ∈ plain ∨ c = 'u' := by
  have hall : ∀ c ∈ optstring, arity optstring c = some .no_value → c ∈ plain ∨ c = 'u' :=
    List.all_iff_forall_prop.mp (by decide)
  exact hall c (mem_of_arity h) h

theorem required_cases {c : Char} (h : arity optstring c = some .required) :
    c ∈ numbered ∨ c = 'f' ∨ c = 'l' := by
  have hall : ∀ c ∈ optstring, arity optstring c = some .required →
      c ∈ numbered ∨ c = 'f' ∨ c = 'l' :=
    List.all_iff_forall_prop.mp (by decide)
  exact hall c (mem_of_arity h) h

theorem optional_cases {c : Char} (h : arity optstring c = some .optional) : c = 'r' := by
  have hall : ∀ c ∈ optstring, arity optstring c = some .optional → c = 'r' :=
    List.all_iff_forall_prop.mp (by decide)
  exact hall c (mem_of_arity h) h

theorem skipping_of_required {c : Char} (h : arity optstring c = some .required)
    (hnumbered : c ∉ numbered) : c ∈ skipping := by
  rcases required_cases h with hmem | rfl | rfl
  · exact absurd hmem hnumbered
  · decide
  · decide

theorem skipping_of_optional {c : Char} (h : arity optstring c = some .optional) :
    c ∈ skipping := by
  rw [optional_cases h]
  decide

/-- Options are small letters. -/
theorem lower_of_arity {c : Char} {a : Arity} (h : arity optstring c = some a) :
    ('a' ≤ c && c ≤ 'z') = true := by
  have hall : ∀ c ∈ optstring, c ≠ ':' → ('a' ≤ c && c ≤ 'z') = true :=
    List.all_iff_forall_prop.mp (by decide)
  have hcolon : arity optstring ':' = none := by decide
  apply hall c (mem_of_arity h)
  intro heq
  rw [heq, hcolon] at h
  cases h

theorem ne_break_of_arity {c : Char} {a : Arity} (h : arity optstring c = some a) : c ≠ '\n' := by
  intro heq
  have hlower := lower_of_arity h
  rw [heq] at hlower
  exact absurd hlower (by decide)

/-- A number does not begin with a letter. -/
theorem parse_arg_arg_lower {v : Text} (hlower : starts_lower v = true) :
    parse_arg_arg v = none := by
  cases v with
  | nil => cases hlower
  | cons c v =>
    -- a small letter is no space, no sign and no digit
    have hbounds : 97 ≤ c.toNat ∧ c.toNat ≤ 122 := by
      have h : ('a' ≤ c && c ≤ 'z') = true := hlower
      rw [Bool.and_eq_true, decide_eq_true_eq, decide_eq_true_eq] at h
      exact h
    obtain ⟨hlo, hhi⟩ := hbounds
    have hne : ∀ d : Char, d.toNat < 97 → c ≠ d := by
      intro d hd heq
      rw [heq] at hlo
      omega
    have hspace : isspace c = false := by
      unfold isspace
      rw [decide_eq_false (hne ' ' (by decide)), decide_eq_false (by omega : ¬c.toNat ≤ 0x0D)]
      simp
    have hdigit : c.isDigit = false := by
      have : ¬c.toNat ≤ 57 := by omega
      rw [Char.isDigit, Bool.and_eq_false_iff, decide_eq_false_iff_not, decide_eq_false_iff_not]
      right
      exact this
    have hskip : (c :: v).dropWhile isspace = c :: v :=
      List.dropWhile_cons_of_neg (by rw [hspace]; exact Bool.false_ne_true)
    have hnumber : leading_number (c :: v) = none := by
      unfold leading_number
      rw [List.takeWhile_cons_of_neg (by rw [hdigit]; exact Bool.false_ne_true)]
      rfl
    unfold parse_arg_arg sscanf_d
    rw [hskip]
    split
    · next heq => exact absurd (List.cons.inj heq).1 (hne '-' (by decide))
    · next heq => exact absurd (List.cons.inj heq).1 (hne '+' (by decide))
    · rw [hnumber]
      rfl

theorem not_lower_of_parse {v : Text} {val : ℤ} (h : parse_arg_arg v = some val) :
    starts_lower v = false := by
  rw [Bool.eq_false_iff]
  intro hlower
  rw [parse_arg_arg_lower hlower] at h
  cases h

theorem ne_nil_of_parse {v : Text} {val : ℤ} (h : parse_arg_arg v = some val) : v ≠ [] := by
  intro heq
  rw [heq] at h
  cases h

/-! ## Section 4: Words -/

section words
variable {shift_exits : Bool} {args : List Text} {seen : List Char}
  {header : List (Char × Option Text)}

theorem csv_step_plain {c : Char} (hc : c ∈ plain) (t : Text) (s : State) :
    csv_step shift_exits ('-' :: c :: t) s =
      after_switch shift_exits ('-' :: c :: t) none { s with seen := s.seen ++ [c] } := by
  rw [csv_step, if_neg (plain_notMem c hc), if_pos hc]

theorem csv_step_numbered {c : Char} (hc : c ∈ numbered) (t : Text) (s : State) :
    csv_step shift_exits ('-' :: c :: t) s =
      after_switch shift_exits ('-' :: c :: t) (some c) s := by
  rw [csv_step, if_pos hc]

/-- A switch that is followed by options in its word gives way to them. -/
theorem leads_plain {c : Char} (hc : c ∈ plain) {a : Arity} {o : Char}
    (ho : arity optstring o = some a) {u t : Text} (hu : '\n' ∉ u)
    (hlower : starts_lower (u ++ o :: t) = true) :
    ∃ t', ('\n' ∉ t → t' = t) ∧
      Leads shift_exits ⟨('-' :: c :: (u ++ o :: t)) :: args, seen, header⟩
        ⟨('-' :: (u ++ o :: t')) :: args, seen ++ [c], header⟩ := by
  have hfront : '\n' ∉ u ++ [o] := by simp [hu, (ne_break_of_arity ho).symm]
  obtain ⟨t', hsuffix, hplain⟩ := suffix_append (plain_lower c hc).1 hfront t
  rw [List.append_assoc, List.append_assoc, List.singleton_append, List.singleton_append] at hsuffix
  refine ⟨t', hplain, Leads.step ?_⟩
  have hlower' : starts_lower (u ++ o :: t') = true := by
    cases u with
    | nil => exact hlower
    | cons c' u => exact hlower
  rw [csv_step_plain hc, after_switch, hsuffix, if_pos hlower']
  simp

/-- **Switches**: the script sees the switches of a word one by one. -/
theorem leads_switches {switches : List Char} (hswitches : ∀ c ∈ switches, c ∈ plain) {o : Char}
    {a : Arity} (ho : arity optstring o = some a) (t : Text) :
    ∃ t', ('\n' ∉ t → t' = t) ∧
      Leads shift_exits ⟨('-' :: (switches ++ o :: t)) :: args, seen, header⟩
        ⟨('-' :: o :: t') :: args, seen ++ switches, header⟩ := by
  induction switches generalizing seen t with
  | nil =>
    refine ⟨t, fun _ => rfl, ?_⟩
    rw [List.append_nil]
    exact Leads.refl _
  | cons c switches ih =>
    have hrest : ∀ c ∈ switches, c ∈ plain := fun c' hc' => hswitches c' (List.mem_cons_of_mem _ hc')
    have hu : '\n' ∉ switches := fun hmem => (plain_lower _ (hrest _ hmem)).1 rfl
    have hlower : starts_lower (switches ++ o :: t) = true := by
      cases switches with
      | nil => exact lower_of_arity ho
      | cons c' switches => exact (plain_lower c' (hrest c' List.mem_cons_self)).2
    -- the first switch gives way to the rest of the word
    obtain ⟨t₁, ht₁, hfirst⟩ := leads_plain (hswitches c List.mem_cons_self) ho hu hlower
    have hih : ∃ t₂, ('\n' ∉ t₁ → t₂ = t₁) ∧
        Leads shift_exits ⟨('-' :: (switches ++ o :: t₁)) :: args, seen ++ [c], header⟩
          ⟨('-' :: o :: t₂) :: args, seen ++ [c] ++ switches, header⟩ := ih hrest t₁
    obtain ⟨t₂, ht₂, hothers⟩ := hih
    refine ⟨t₂, ?_, ?_⟩
    · intro ht
      have heq := ht₁ ht
      rw [ht₂ (heq ▸ ht), heq]
    · rw [List.append_assoc] at hothers
      exact hfirst.trans hothers

theorem suffix_singleton {c : Char} {a : Arity} (hc : arity optstring c = some a) :
    suffix ['-', c] = [] :=
  suffix_of_notMem (ne_break_of_arity hc) List.not_mem_nil

theorem leads_plain_last {c : Char} (hc : c ∈ plain) {a : Arity} (ha : arity optstring c = some a) :
    Leads shift_exits ⟨['-', c] :: args, seen, header⟩ ⟨args, seen ++ [c], header⟩ := by
  apply Leads.step
  rw [csv_step_plain hc, after_switch, suffix_singleton ha]
  rfl

theorem leads_numbered_attached {c : Char} (hc : c ∈ numbered) {a : Arity}
    (ha : arity optstring c = some a) {v : Text} (hbreak : '\n' ∉ v) {val : ℤ}
    (hparse : parse_arg_arg v = some val) :
    Leads shift_exits ⟨('-' :: c :: v) :: args, seen, header⟩
      ⟨args, seen, header ++ [(c, some v)]⟩ := by
  apply Leads.step
  rw [csv_step_numbered hc, after_switch, suffix_of_notMem (ne_break_of_arity ha) hbreak,
    not_lower_of_parse hparse]
  simp [ne_nil_of_parse hparse]

theorem leads_numbered_detached {c : Char} (hc : c ∈ numbered) {a : Arity}
    (ha : arity optstring c = some a) (v : Text) :
    Leads shift_exits ⟨['-', c] :: v :: args, seen, header⟩
      ⟨args, seen, header ++ [(c, some v)]⟩ := by
  apply Leads.step
  rw [csv_step_numbered hc, after_switch, suffix_singleton ha]
  rfl

theorem csv_step_skipping {c : Char} (hc : c ∈ skipping) (t : Text) (s : State) :
    csv_step shift_exits ('-' :: c :: t) s =
      drop_next shift_exits { s with seen := s.seen ++ [c] } := by
  obtain ⟨hnumbered, hplain⟩ := skipping_notMem c hc
  rw [csv_step, if_neg hnumbered, if_neg hplain, if_pos hc]

theorem leads_skipping_dash {c : Char} (hc : c ∈ skipping) (t w : Text) :
    Leads shift_exits ⟨('-' :: c :: t) :: ('-' :: w) :: args, seen, header⟩
      ⟨('-' :: w) :: args, seen ++ [c], header⟩ := by
  apply Leads.step
  rw [csv_step_skipping hc]
  rfl

theorem leads_skipping_value {c : Char} (hc : c ∈ skipping) (t : Text) {v : Text}
    (hv : v.head? ≠ some '-') :
    Leads shift_exits ⟨('-' :: c :: t) :: v :: args, seen, header⟩
      ⟨args, seen ++ [c], header⟩ := by
  apply Leads.step
  rw [csv_step_skipping hc]
  unfold drop_next
  simp only
  split
  · next heq =>
    rw [(List.cons.inj heq).1] at hv
    exact absurd rfl hv
  · rfl

/-- At the end there is nothing to shift. -/
theorem csv_step_skipping_last {c : Char} (hc : c ∈ skipping) (t : Text) :
    csv_step shift_exits ('-' :: c :: t) ⟨[], seen, header⟩ =
      if shift_exits then .error .cannot_shift else .ok ⟨[], seen ++ [c], header⟩ := by
  rw [csv_step_skipping hc]
  rfl

/-- The script does not know the switch. -/
theorem fails_unknown (t : Text) : Fails shift_exits ⟨('-' :: 'u' :: t) :: args, seen, header⟩ :=
  Fails.step (e := .unexpected ('-' :: 'u' :: t)) nofun rfl

end words

/-! ## Section 5: Vectors -/

/-- The switches among the options, in order. -/
def switches_of (rs : List Report) : List Char :=
  (rs.filter fun r => r.flag ∉ numbered).map (·.flag)

/-- The rows that the options should give, in order. -/
def rows_of (rs : List Report) : List (Char × Option Text) :=
  (rs.filter fun r => r.flag ∈ numbered).map fun r => (r.flag, r.optarg.text)

/-- The script drops the argument after the option, which is not its value. -/
def DropsNext (r : Report) : Prop := r.flag ∈ skipping ∧ ∀ v, r.optarg ≠ .detached v

/-- The option is written in a way that the script can read. -/
structure Readable (r : Report) : Prop where
  no_dash : r.flag ∈ skipping → ∀ v, r.optarg = .detached v → v.head? ≠ some '-'
  no_special : r.flag ∈ numbered → ∀ v, r.optarg.text = some v → ∀ c ∈ v, c ∉ ['\n', '\\']

/-- The number of the option was accepted. -/
def Parsed (r : Report) : Prop :=
  r.flag ∈ numbered → ∃ v val, r.optarg.text = some v ∧ parse_arg_arg v = some val

/-- The script gets through the options. -/
def Clear (shift_exits : Bool) (rs : List Report) : Prop :=
  (∀ r ∈ rs, r.flag ≠ 'u') ∧ (shift_exits = true → ∀ r ∈ rs.getLast?, ¬DropsNext r)

@[simp] theorem switches_of_append (rs rs' : List Report) :
    switches_of (rs ++ rs') = switches_of rs ++ switches_of rs' := by
  simp [switches_of]

@[simp] theorem rows_of_append (rs rs' : List Report) :
    rows_of (rs ++ rs') = rows_of rs ++ rows_of rs' := by
  simp [rows_of]

/-- What `getopt` reports of switches. -/
def plain_reports (switches : List Char) : List Report := switches.map fun c => ⟨c, .none⟩

theorem of_plain_reports {switches : List Char} (h : ∀ c ∈ switches, c ∈ plain) :
    switches_of (plain_reports switches) = switches ∧ rows_of (plain_reports switches) = [] := by
  induction switches with
  | nil => exact ⟨rfl, rfl⟩
  | cons c switches ih =>
    obtain ⟨hswitches, hrows⟩ := ih fun c' hc' => h c' (List.mem_cons_of_mem _ hc')
    have hc := plain_notMem c (h c List.mem_cons_self)
    unfold plain_reports
    constructor
    · rw [List.map_cons, switches_of, List.filter_cons_of_pos (by simpa using hc), List.map_cons]
      exact congrArg (c :: ·) hswitches
    · rw [List.map_cons, rows_of, List.filter_cons_of_neg (by simpa using hc)]
      exact hrows

theorem of_numbered {r : Report} (h : r.flag ∈ numbered) :
    switches_of [r] = [] ∧ rows_of [r] = [(r.flag, r.optarg.text)] := by
  simp [switches_of, rows_of, h]

theorem of_skipping {r : Report} (h : r.flag ∈ skipping) :
    switches_of [r] = [r.flag] ∧ rows_of [r] = [] := by
  simp [switches_of, rows_of, (skipping_notMem _ h).1]

theorem notMem_skipping {c : Char} (h : c ∈ plain ∨ c ∈ numbered) : c ∉ skipping := by
  intro hskip
  obtain ⟨hnumbered, hplain⟩ := skipping_notMem c hskip
  rcases h with h | h
  · exact hplain h
  · exact hnumbered h

/-- The script would have to shift at the end of the arguments. -/
def Stuck (shift_exits : Bool) (args : List Text) (rs : List Report) : Prop :=
  args = [] ∧ shift_exits = true ∧ ∃ r ∈ rs.getLast?, DropsNext r

/-- The script takes the first arguments for the given options. -/
structure Takes (shift_exits : Bool) (args args' : List Text) (rs : List Report) : Prop where
  leads : ¬Stuck shift_exits args' rs → ∀ seen header, Leads shift_exits ⟨args, seen, header⟩
    ⟨args', seen ++ switches_of rs, header ++ rows_of rs⟩
  fails : Stuck shift_exits args' rs → ∀ seen header, Fails shift_exits ⟨args, seen, header⟩

section takes
variable {shift_exits : Bool} {args args' : List Text}

theorem not_stuck {r : Report} (h : ¬DropsNext r) : ¬Stuck shift_exits args' [r] := by
  intro hstuck
  obtain ⟨-, -, r', hr', hdrops⟩ := hstuck
  rw [← Option.some.inj hr'] at hdrops
  exact h hdrops

theorem takes_plain {c : Char} (hc : c ∈ plain) {a : Arity} (ha : arity optstring c = some a) :
    Takes shift_exits (['-', c] :: args) args [⟨c, .none⟩] := by
  have hdrops : ¬DropsNext ⟨c, .none⟩ := fun h => notMem_skipping (Or.inl hc) h.1
  refine ⟨?_, fun h => absurd h (not_stuck hdrops)⟩
  intro _ seen header
  obtain ⟨hseen, hrows⟩ := of_plain_reports (List.forall_mem_singleton.mpr hc)
  have hleads : Leads shift_exits ⟨['-', c] :: args, seen, header⟩ ⟨args, seen ++ [c], header⟩ :=
    leads_plain_last hc ha
  rw [show ([⟨c, .none⟩] : List Report) = plain_reports [c] from rfl, hseen, hrows, List.append_nil]
  exact hleads

theorem takes_attached {c : Char} (hc : c ∈ numbered) {a : Arity} (ha : arity optstring c = some a)
    {v : Text} (hparsed : Parsed ⟨c, .attached v⟩) (hreadable : Readable ⟨c, .attached v⟩) :
    Takes shift_exits (('-' :: c :: v) :: args) args [⟨c, .attached v⟩] := by
  have hdrops : ¬DropsNext ⟨c, .attached v⟩ := fun h => notMem_skipping (Or.inr hc) h.1
  refine ⟨?_, fun h => absurd h (not_stuck hdrops)⟩
  intro _ seen header
  obtain ⟨v', val, hv', hval⟩ := hparsed hc
  obtain rfl : v = v' := Option.some.inj hv'
  have hbreak : '\n' ∉ v := fun hmem => hreadable.no_special hc v rfl _ hmem (by decide)
  obtain ⟨hseen, hrows⟩ := of_numbered (r := ⟨c, .attached v⟩) hc
  rw [hseen, hrows, List.append_nil]
  exact leads_numbered_attached hc ha hbreak hval

theorem takes_detached {c : Char} (hc : c ∈ numbered) {a : Arity} (ha : arity optstring c = some a)
    (v : Text) : Takes shift_exits (['-', c] :: v :: args) args [⟨c, .detached v⟩] := by
  have hdrops : ¬DropsNext ⟨c, .detached v⟩ := fun h => notMem_skipping (Or.inr hc) h.1
  refine ⟨?_, fun h => absurd h (not_stuck hdrops)⟩
  intro _ seen header
  obtain ⟨hseen, hrows⟩ := of_numbered (r := ⟨c, .detached v⟩) hc
  rw [hseen, hrows, List.append_nil]
  exact leads_numbered_detached hc ha v

theorem takes_value {c : Char} (hc : c ∈ skipping) (t : Text) {v : Text}
    (hreadable : Readable ⟨c, .detached v⟩) :
    Takes shift_exits (('-' :: c :: t) :: v :: args) args [⟨c, .detached v⟩] := by
  have hdrops : ¬DropsNext ⟨c, .detached v⟩ := fun h => h.2 v rfl
  refine ⟨?_, fun h => absurd h (not_stuck hdrops)⟩
  intro _ seen header
  obtain ⟨hseen, hrows⟩ := of_skipping (r := ⟨c, .detached v⟩) hc
  rw [hseen, hrows, List.append_nil]
  exact leads_skipping_value hc t (hreadable.no_dash hc v rfl)

/-- The next argument is no value if it begins with a dash. -/
def Dashed (args : List Text) : Prop := ∀ w ∈ args.head?, ∃ t, w = '-' :: t

theorem takes_dropping {c : Char} (hc : c ∈ skipping) (t : Text) {r : Report} (hflag : r.flag = c)
    (hdrops : DropsNext r) (hargs : Dashed args) :
    Takes shift_exits (('-' :: c :: t) :: args) args [r] := by
  obtain ⟨hseen, hrows⟩ := of_skipping (r := r) (hflag ▸ hc)
  constructor
  · intro hgo seen header
    rw [hseen, hrows, List.append_nil, hflag]
    cases args with
    | nil =>
      -- nothing to shift, and the shell goes on
      have hexits : ¬shift_exits = true := fun h => hgo ⟨rfl, h, r, rfl, hdrops⟩
      apply Leads.step
      rw [csv_step_skipping_last hc, if_neg hexits]
    | cons w args =>
      obtain ⟨t', rfl⟩ := hargs w rfl
      exact leads_skipping_dash hc t t'
  · intro hstuck seen header
    obtain ⟨hnil, hexits, -⟩ := hstuck
    rw [hnil]
    refine Fails.step (e := .cannot_shift) (by decide) ?_
    rw [csv_step_skipping_last hc, if_pos hexits]

/-- The switches before an option in its word are taken one by one. -/
theorem Takes.after_switches {switches : List Char} (hswitches : ∀ c ∈ switches, c ∈ plain)
    {o : Char} {a : Arity} (ho : arity optstring o = some a) {t : Text} {r : Report}
    {words words' : List Text}
    (h : ∀ t', ('\n' ∉ t → t' = t) → Takes shift_exits (('-' :: o :: t') :: words) words' [r]) :
    Takes shift_exits (('-' :: (switches ++ o :: t)) :: words) words'
      (plain_reports switches ++ [r]) := by
  have hstuck : Stuck shift_exits words' (plain_reports switches ++ [r]) ↔
      Stuck shift_exits words' [r] := by
    unfold Stuck
    rw [List.getLast?_concat]
    rfl
  obtain ⟨hseen, hrows⟩ := of_plain_reports hswitches
  constructor
  · intro hgo seen header
    obtain ⟨t', ht', hleads⟩ := leads_switches hswitches ho t
    rw [switches_of_append, rows_of_append, hseen, hrows, List.nil_append, ← List.append_assoc]
    exact hleads.trans ((h t' ht').leads (fun hs => hgo (hstuck.mpr hs)) _ _)
  · intro hs seen header
    obtain ⟨t', ht', hleads⟩ := leads_switches hswitches ho t
    exact hleads.fails ((h t' ht').fails (hstuck.mp hs) _ _)

/-- A word of switches that the script knows, and a tail. -/
theorem switches_plain {switches : List Char} {last : List Report}
    (harity : ∀ c ∈ switches, arity optstring c = some .no_value)
    (hu : ∀ r ∈ plain_reports switches ++ last, r.flag ≠ 'u') : ∀ c ∈ switches, c ∈ plain := by
  intro c hc
  rcases no_value_cases (harity c hc) with h | h
  · exact h
  · have hmem : (⟨c, .none⟩ : Report) ∈ plain_reports switches ++ last :=
      List.mem_append_left _ (List.mem_map.mpr ⟨c, hc, rfl⟩)
    exact absurd h (hu _ hmem)

/-- A word of switches alone: the last one has nothing behind it. -/
theorem takes_switches {switches : List Char} (hne : switches ≠ [])
    (hswitches : ∀ c ∈ switches, c ∈ plain)
    (harity : ∀ c ∈ switches, arity optstring c = some .no_value) :
    Takes shift_exits (('-' :: switches) :: args) args (plain_reports switches) := by
  obtain ⟨init, o, hconcat⟩ := (List.eq_nil_or_concat switches).resolve_left hne
  rw [List.concat_eq_append] at hconcat
  subst hconcat
  have ho : o ∈ init ++ [o] := by simp
  have hreports : plain_reports (init ++ [o]) = plain_reports init ++ [⟨o, .none⟩] := by
    simp [plain_reports]
  rw [hreports]
  apply Takes.after_switches (fun c hc => hswitches c (List.mem_append_left _ hc)) (harity o ho)
  intro t' ht'
  rw [ht' List.not_mem_nil]
  exact takes_plain (hswitches o ho) (harity o ho)

/-- **Complete words**: the script takes their options and no more. -/
theorem word_complete {c : Char} {cs : Text} {front : List Report}
    (hcluster : cluster optstring (c :: cs) = some (front, none))
    (hu : ∀ r ∈ front, r.flag ≠ 'u') (hparsed : ∀ r ∈ front, Parsed r)
    (hreadable : ∀ r ∈ front, Readable r) (hargs : Dashed args) :
    Takes shift_exits (('-' :: c :: cs) :: args) args front := by
  obtain ⟨switches, tail, last, hword, harity, hfront, htail⟩ := cluster_cases hcluster
  have hfront : front = plain_reports switches ++ last := hfront
  subst hfront
  have hswitches := switches_plain harity hu
  cases htail with
  | nothing =>
    rw [List.append_nil] at hword
    have hne : switches ≠ [] := by
      intro h
      rw [h] at hword
      cases hword
    rw [hword, List.append_nil]
    exact takes_switches hne hswitches harity
  | @attached o value ho hne =>
    rw [hword]
    have hmem : (⟨o, .attached value⟩ : Report) ∈ plain_reports switches ++ [⟨o, .attached value⟩] := by
      simp
    apply Takes.after_switches hswitches ho
    intro t' ht'
    by_cases hnum : o ∈ numbered
    · have hbreak : '\n' ∉ value := fun hb =>
        (hreadable _ hmem).no_special hnum value rfl _ hb (by decide)
      rw [ht' hbreak]
      exact takes_attached hnum ho (hparsed _ hmem) (hreadable _ hmem)
    · -- the script does not look at an attached value of these
      have hskip : o ∈ skipping := skipping_of_required ho hnum
      exact takes_dropping hskip t' rfl ⟨hskip, nofun⟩ hargs
  | @optional o value ho =>
    rw [hword]
    apply Takes.after_switches hswitches ho
    intro t' _
    have hskip : o ∈ skipping := skipping_of_optional ho
    refine takes_dropping hskip t' rfl ⟨hskip, ?_⟩ hargs
    intro v
    show (if value = [] then Optarg.none else .attached value) ≠ .detached v
    split
    · nofun
    · nofun

/-- **Words with a value behind them**: the script takes both. -/
theorem word_pending {c : Char} {cs : Text} {front : List Report} {flag : Char} {v : Text}
    (hcluster : cluster optstring (c :: cs) = some (front, some flag))
    (hu : ∀ r ∈ front, r.flag ≠ 'u') (hreadable : Readable ⟨flag, .detached v⟩) :
    Takes shift_exits (('-' :: c :: cs) :: v :: args) args (front ++ [⟨flag, .detached v⟩]) := by
  obtain ⟨switches, tail, last, hword, harity, hfront, htail⟩ := cluster_cases hcluster
  have hfront : front = plain_reports switches ++ last := hfront
  subst hfront
  have hswitches := switches_plain harity hu
  cases htail with
  | next ho =>
    rw [hword, List.append_nil]
    apply Takes.after_switches hswitches ho
    intro t' ht'
    rw [ht' List.not_mem_nil]
    by_cases hnum : flag ∈ numbered
    · exact takes_detached hnum ho v
    · exact takes_value (skipping_of_required ho hnum) [] hreadable

/-- The unknown switch stands among the switches of its word, not in the tail. -/
theorem mem_switches_of_unknown {switches : List Char} {tail : Text} {last : List Report}
    {pending : Option Char} (htail : Tail optstring tail last pending)
    (hu : ∃ r ∈ plain_reports switches ++ last, r.flag = 'u') : 'u' ∈ switches := by
  obtain ⟨r, hr, hflag⟩ := hu
  rcases List.mem_append.mp hr with hmem | hmem
  · obtain ⟨c, hc, rfl⟩ := List.mem_map.mp hmem
    rw [← show c = 'u' from hflag]
    exact hc
  · have hrequired : arity optstring 'u' ≠ some .required := by decide
    have hoptional : arity optstring 'u' ≠ some .optional := by decide
    cases htail with
    | nothing => cases hmem
    | next _ => cases hmem
    | @attached o _ ho _ =>
      rw [List.mem_singleton.mp hmem] at hflag
      have heq : o = 'u' := hflag
      rw [heq] at ho
      exact absurd ho hrequired
    | @optional o _ ho =>
      rw [List.mem_singleton.mp hmem] at hflag
      have heq : o = 'u' := hflag
      rw [heq] at ho
      exact absurd ho hoptional

/-- **Unknown switches**: the script does not get past them. -/
theorem word_unknown {c : Char} {cs : Text} {front : List Report} {pending : Option Char}
    (hcluster : cluster optstring (c :: cs) = some (front, pending))
    (hu : ∃ r ∈ front, r.flag = 'u') (seen : List Char) (header : List (Char × Option Text)) :
    Fails shift_exits ⟨('-' :: c :: cs) :: args, seen, header⟩ := by
  obtain ⟨switches, tail, last, hword, harity, rfl, htail⟩ := cluster_cases hcluster
  have hswitches : 'u' ∈ switches := mem_switches_of_unknown htail hu
  -- the script takes the switches before it, and stops there
  obtain ⟨before, after, rfl, hbefore⟩ := List.eq_append_cons_of_mem hswitches
  have hplain : ∀ c ∈ before, c ∈ plain := by
    intro c' hc'
    rcases no_value_cases (harity c' (List.mem_append_left _ hc')) with h | h
    · exact h
    · rw [h] at hc'
      exact absurd hc' hbefore
  have hu : arity optstring 'u' = some .no_value := by decide
  obtain ⟨t', -, hleads⟩ := leads_switches hplain hu (after ++ tail)
  rw [hword, List.append_assoc, List.cons_append]
  exact hleads.fails (fails_unknown t')

/-! ## Section 6: Whole vectors -/

theorem dashed_of_reports {args : List Text} {rs : List Report}
    (h : reports optstring args = some rs) : Dashed args := by
  intro w hw
  cases args with
  | nil => cases hw
  | cons word words =>
    obtain ⟨c, cs, hword⟩ := dash_of_reports h
    rw [← Option.some.inj hw]
    exact ⟨c :: cs, hword⟩

/-- A word reports an option. -/
theorem reports_ne_nil {word : Text} {words : List Text} {rs : List Report}
    (h : reports optstring (word :: words) = some rs) : rs ≠ [] := by
  obtain ⟨c, cs, front, pending, -, hcluster, hcase⟩ := reports_cases h
  rcases hcase with ⟨rfl, rest, -, rfl⟩ | ⟨flag, value, words', rest, -, -, -, rfl⟩
  · obtain ⟨switches, tail, last, hword, -, rfl, htail⟩ := cluster_cases hcluster
    intro hnil
    obtain ⟨hfront, -⟩ := List.append_eq_nil_iff.mp hnil
    obtain ⟨hswitches, hlast⟩ := List.append_eq_nil_iff.mp hfront
    rw [List.map_eq_nil_iff.mp hswitches] at hword
    cases htail with
    | nothing => cases hword
    | attached _ _ => cases hlast
    | optional _ => cases hlast
  · simp

/-- The script gets through the options that are clear, and sees and records
    exactly them; it gives up on others. -/
structure Decided (shift_exits : Bool) (args : List Text) (rs : List Report) : Prop where
  leads : Clear shift_exits rs → ∀ seen header, Leads shift_exits ⟨args, seen, header⟩
    ⟨[], seen ++ switches_of rs, header ++ rows_of rs⟩
  fails : ¬Clear shift_exits rs → ∀ seen header, Fails shift_exits ⟨args, seen, header⟩

theorem clear_append {front rest : List Report} (hu : ∀ r ∈ front, r.flag ≠ 'u')
    (hrest : reports optstring args' = some rest) :
    Clear shift_exits (front ++ rest) ↔ ¬Stuck shift_exits args' front ∧ Clear shift_exits rest := by
  cases args' with
  | nil =>
    obtain rfl : rest = [] := (Option.some.inj hrest).symm
    rw [List.append_nil]
    constructor
    · intro h
      refine ⟨?_, by simp [Clear]⟩
      intro hstuck
      obtain ⟨-, hexits, r, hr, hdrops⟩ := hstuck
      exact h.2 hexits r hr hdrops
    · intro h
      refine ⟨hu, ?_⟩
      intro hexits r hr hdrops
      exact h.1 ⟨rfl, hexits, r, hr, hdrops⟩
  | cons word words =>
    have hnot : ¬Stuck shift_exits (word :: words) front := fun h => nomatch h.1
    unfold Clear
    rw [List.getLast?_append_of_ne_nil _ (reports_ne_nil hrest), List.forall_mem_append]
    constructor
    · intro h
      exact ⟨hnot, h.1.2, h.2⟩
    · intro h
      exact ⟨⟨hu, h.2.1⟩, h.2.2⟩

/-- Behind the arguments that the script has taken, the others decide. -/
theorem Takes.decided {front rest : List Report} (htakes : Takes shift_exits args args' front)
    (hu : ∀ r ∈ front, r.flag ≠ 'u') (hrest : reports optstring args' = some rest)
    (hdecided : Decided shift_exits args' rest) : Decided shift_exits args (front ++ rest) := by
  have hclear : Clear shift_exits (front ++ rest) ↔
      ¬Stuck shift_exits args' front ∧ Clear shift_exits rest := clear_append hu hrest
  constructor
  · intro h seen header
    obtain ⟨hgo, hothers⟩ := hclear.mp h
    rw [switches_of_append, rows_of_append, ← List.append_assoc, ← List.append_assoc]
    exact (htakes.leads hgo seen header).trans (hdecided.leads hothers _ _)
  · intro h seen header
    by_cases hstuck : Stuck shift_exits args' front
    · exact htakes.fails hstuck seen header
    · have hnot : ¬Clear shift_exits rest := fun hothers => h (hclear.mpr ⟨hstuck, hothers⟩)
      exact (htakes.leads hstuck seen header).fails (hdecided.fails hnot _ _)

theorem decided_unknown {c : Char} {cs : Text} {front rest : List Report} {pending : Option Char}
    (hcluster : cluster optstring (c :: cs) = some (front, pending))
    (hu : ∃ r ∈ front, r.flag = 'u') :
    Decided shift_exits (('-' :: c :: cs) :: args) (front ++ rest) := by
  constructor
  · intro hclear
    obtain ⟨r, hr, hflag⟩ := hu
    exact absurd hflag (hclear.1 r (List.mem_append_left _ hr))
  · intro _ seen header
    exact word_unknown hcluster hu seen header

theorem pending_ne_unknown {cs : Text} {front : List Report} {flag : Char}
    (hcluster : cluster optstring cs = some (front, some flag)) : flag ≠ 'u' := by
  intro heq
  have harity := (fits_of_cluster hcluster).2 flag rfl
  rw [heq] at harity
  exact absurd harity (by decide)

/-- **Vectors**: what the script does with options that `getopt` reports. -/
theorem script_decided {rs : List Report} (h : reports optstring args = some rs)
    (hparsed : ∀ r ∈ rs, Parsed r) (hreadable : ∀ r ∈ rs, Readable r) :
    Decided shift_exits args rs := by
  -- A word may take the next one with it, so the induction is on the length.
  induction hn : args.length using Nat.strong_induction_on generalizing args rs with
  | _ n ih =>
    subst hn
    cases args with
    | nil =>
      obtain rfl : rs = [] := (Option.some.inj h).symm
      constructor
      · intro _ seen header
        have hseen : switches_of [] = [] := rfl
        have hrows : rows_of [] = [] := rfl
        rw [hseen, hrows, List.append_nil, List.append_nil]
        exact Leads.refl _
      · intro hnot
        exact absurd (by simp [Clear]) hnot
    | cons word words =>
      obtain ⟨c, cs, front, pending, rfl, hcluster, hcase⟩ := reports_cases h
      by_cases hunknown : ∃ r ∈ front, r.flag = 'u'
      · rcases hcase with ⟨-, rest, -, rfl⟩ | ⟨flag, value, words', rest, -, -, -, rfl⟩
        · exact decided_unknown hcluster hunknown
        · exact decided_unknown hcluster hunknown
      · have hu : ∀ r ∈ front, r.flag ≠ 'u' := fun r hr hflag => hunknown ⟨r, hr, hflag⟩
        rcases hcase with ⟨rfl, rest, hrest, rfl⟩ |
          ⟨flag, value, words', rest, rfl, rfl, hrest, rfl⟩
        · obtain ⟨hparsed, hparsed'⟩ := List.forall_mem_append.mp hparsed
          obtain ⟨hreadable, hreadable'⟩ := List.forall_mem_append.mp hreadable
          have htakes : Takes shift_exits (('-' :: c :: cs) :: words) words front :=
            word_complete hcluster hu hparsed hreadable (dashed_of_reports hrest)
          exact htakes.decided hu hrest (ih _ (Nat.lt_succ_self _) hrest hparsed' hreadable' rfl)
        · obtain ⟨hparsed, hparsed'⟩ := List.forall_mem_append.mp hparsed
          obtain ⟨hreadable, hreadable'⟩ := List.forall_mem_append.mp hreadable
          obtain ⟨hvalue, hreadable'⟩ := List.forall_mem_cons.mp hreadable'
          obtain ⟨-, hparsed'⟩ := List.forall_mem_cons.mp hparsed'
          have htakes : Takes shift_exits (('-' :: c :: cs) :: value :: words') words'
              (front ++ [⟨flag, .detached value⟩]) :=
            word_pending hcluster hu hvalue
          have hu' : ∀ r ∈ front ++ [⟨flag, .detached value⟩], r.flag ≠ 'u' := by
            rw [List.forall_mem_append, List.forall_mem_singleton]
            exact ⟨hu, pending_ne_unknown hcluster⟩
          have hlength : words'.length < (('-' :: c :: cs) :: value :: words').length := by
            simp only [List.length_cons]
            omega
          have hothers := ih _ hlength hrest hparsed' hreadable' rfl
          rw [List.append_cons]
          exact htakes.decided hu' hrest hothers

end takes

end SquareEvictionsOptions
