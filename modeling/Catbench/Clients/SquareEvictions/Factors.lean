import Catbench.Clients.SquareEvictions.Coverage
import Catbench.Clients.SquareEvictions.Options
import Catbench.Framework.Pieces

/-! # The factors of `square_evictions`

    The argument of `-f` is read by a loop around `sscanf`, and the array for the
    factors has as many entries as the commas say.  The loop goes on at the end of
    the text, where `sscanf` returns a nonzero `EOF`, and ends where something else
    than a number comes; it does not look at what follows a number.  Nothing is
    rejected before `main` compares the product of the array with the number of
    lines.

    Theorem: a run parses the list exactly or rejects it, iff it does not get to
    that comparison, or every item begins with a number and all items are nothing
    but numbers or the product does not divide the number of lines.

    The product wraps like the word that holds it.
-/

open SquareEvictions
open SquareEvictionsOptions (isspace leading_number to_int sscanf_d)

namespace SquareEvictionsFactors

abbrev Text := List Char

/-! ## Section 1: Model -/

/-- How `sscanf` ends with one conversion: the return values 1, 0 and `EOF`. -/
inductive Scan where
  | converted (n : ℤ)
  | mismatch
  | eof
  deriving DecidableEq, Repr

/-- The comma behind the conversion does not count. -/
def sscanf (text : Text) : Scan :=
  match sscanf_d text with
  | some n => .converted n
  | none => if text.dropWhile isspace = [] then .eof else .mismatch

/-- `strchr(text, ',') + 1`, unless there is no comma. -/
def behind_comma (text : Text) : Option Text :=
  match text.dropWhile (· ≠ ',') with
  | [] => none
  | _ :: rest => some rest

theorem length_behind_comma {text rest : Text} (h : behind_comma text = some rest) :
    rest.length < text.length := by
  unfold behind_comma at h
  split at h
  · cases h
  · next c t hdrop =>
    obtain rfl := Option.some.inj h
    have hle := (List.dropWhile_suffix (p := (· ≠ ',')) (l := text)).length_le
    rw [hdrop, List.length_cons] at hle
    omega

/-- The store of a conversion, as its index and value. -/
def Scan.store (dest : ℕ) : Scan → List (ℕ × ℤ)
  | .converted n => [(dest, n)]
  | _ => []

/-- The loop: its stores to the array, from the entry `dest` on.  The last item is
    scanned twice. -/
def scan_loop (factors : Text) (dest : ℕ) : List (ℕ × ℤ) :=
  -- only 0 ends the loop here, and `EOF` is not 0
  if sscanf factors = .mismatch then []
  else (sscanf factors).store dest ++
    match h : behind_comma factors with
    | some repl =>
      have := length_behind_comma h
      scan_loop repl (dest + 1)
    | none => (sscanf factors).store dest
termination_by factors.length

/-- What the last store to an entry has left there. -/
def entry : List (ℕ × ℤ) → ℕ → Option ℤ
  | [], _ => none
  | (i, n) :: stores, j => (entry stores j).or (if i = j then some n else none)

/-- `check` after the loop over the factors. -/
def product (factors : List ℤ) : ℤ :=
  factors.foldl (fun check factor => Int.bmod (check * factor) (2 ^ 32)) 1

/-- The division by `check` is defined and leaves nothing. -/
def passes (lines_expanded : ℕ) (factors : List ℤ) : Bool :=
  product factors ≠ 0 ∧ Int.tmod lines_expanded (product factors) = 0

/-- With these options besides `-f`, `main` comes to the product. -/
def gets_to_check (sys : Sys) (o : Options) (cache_line_size cache_num_sets : ℤ) : Bool :=
  match check_options sys { o with rng_factors := some [] } with
  | .error _ => false
  | .ok o =>
    0 < cache_line_size ∧ 0 < cache_num_sets ∧ o.randomize ∧ pow_of_two cache_num_sets.toNat

/-- What `main` does with the factors. -/
structure Run where
  nrng_factors : ℕ
  /-- The stores to the array, in order. -/
  stores : List (ℕ × ℤ)
  /-- The entries that the loop over the factors reads. -/
  reads : List ℕ
  goes_on : Bool

/-- `main` with `-f`; `garbage` is in the entries that are not written. -/
def main_f (sys : Sys) (o : Options) (cache_line_size cache_num_sets : ℤ) (garbage : ℕ → ℤ)
    (optarg : Text) : Run :=
  let nrng_factors := 1 + optarg.count ','
  let stores := scan_loop optarg 0
  let factors := (List.range nrng_factors).map fun j => (entry stores j).getD (garbage j)
  let reached := gets_to_check sys o cache_line_size cache_num_sets
  { nrng_factors := nrng_factors
    stores := stores
    reads := if reached then List.range nrng_factors else []
    goes_on := reached && passes (lines cache_num_sets.toNat o.percent_expanded) factors }

/-! ## Section 2: What is expected of a run -/

/-- A number and nothing else. -/
def whole_number (t : Text) : Option ℤ :=
  if t ≠ [] ∧ t.all Char.isDigit then some (Nat.ofDigitChars 10 t 0 : ℤ) else none

/-- A decimal integer, which may have a sign, and blanks before it. -/
def decimal (item : Text) : Option ℤ :=
  match item.dropWhile isspace with
  | '-' :: t => (whole_number t).map fun n => -n
  | '+' :: t => whole_number t
  | t => whole_number t

/-- A comma-separated list of decimal integers. -/
def IsList (optarg : Text) (ints : List ℤ) : Prop :=
  ∃ items, items ≠ [] ∧ optarg = [','].intercalate items ∧
    List.Forall₂ (fun item n => decimal item = some n) items ints

/-- The list is parsed exactly or rejected. -/
structure ExactOrRejected (optarg : Text) (r : Run) : Prop where
  exact : r.goes_on = true → ∃ ints, IsList optarg ints ∧ r.nrng_factors = ints.length ∧
    ∀ j, j < ints.length → entry r.stores j = ints[j]?
  written : ∀ j ∈ r.reads, (entry r.stores j).isSome
  within : ∀ p ∈ r.stores, p.1 < r.nrng_factors

/-! ## Section 3: Items -/

theorem whole_number_leading {t : Text} {n : ℤ} (h : whole_number t = some n) :
    leading_number t = some n := by
  unfold whole_number at h
  split at h
  · next hcond =>
    obtain ⟨hne, hdigits⟩ := hcond
    have htake : t.takeWhile Char.isDigit = t :=
      List.takeWhile_eq_self_iff.mpr (List.all_eq_true.mp hdigits)
    rw [leading_number, htake, if_neg hne, h]
  · cases h

/-- An integer is scanned, as far as it fits. -/
theorem sscanf_of_decimal {item : Text} {n : ℤ} (h : decimal item = some n) :
    sscanf_d item = some (to_int n) := by
  unfold decimal at h
  split at h
  · next t hdrop =>
    obtain ⟨m, hm, rfl⟩ := Option.map_eq_some_iff.mp h
    rw [sscanf_d, hdrop]
    simp [whole_number_leading hm]
  · next t hdrop =>
    rw [sscanf_d, hdrop]
    simp [whole_number_leading h]
  · next t hminus hplus =>
    unfold sscanf_d
    split
    · next t' hdrop => exact absurd hdrop (hminus t')
    · next t' hdrop => exact absurd hdrop (hplus t')
    · rw [whole_number_leading h]
      rfl

theorem to_int_eq_self_iff {n : ℤ} : to_int n = n ↔ Machine.IsInt n := by
  unfold to_int Machine.IsInt
  constructor
  · intro h
    rw [← h]
    have := Int.le_bmod (x := max (-2 ^ 63) (min (2 ^ 63 - 1) n)) (m := 2 ^ 32) (by decide)
    have := Int.bmod_lt (x := max (-2 ^ 63) (min (2 ^ 63 - 1) n)) (m := 2 ^ 32) (by decide)
    omega
  · intro h
    have hclamp : max (-2 ^ 63) (min (2 ^ 63 - 1) n) = n := by omega
    rw [hclamp]
    exact Int.bmod_eq_of_le_mul_two (by omega) (by omega)

/-- What stands behind a comma does not matter. -/
theorem leading_number_comma (t rest : Text) :
    leading_number (t ++ ',' :: rest) = leading_number t := by
  have htake : (t ++ ',' :: rest).takeWhile Char.isDigit = t.takeWhile Char.isDigit := by
    rw [List.takeWhile_append]
    split
    · next hall =>
      rw [List.takeWhile_cons_of_neg (by decide), List.append_nil,
        (List.takeWhile_prefix _).eq_of_length hall]
    · rfl
  rw [leading_number, leading_number, htake]

theorem dropWhile_comma (item rest : Text) :
    (item ++ ',' :: rest).dropWhile isspace = item.dropWhile isspace ++ ',' :: rest := by
  rw [List.dropWhile_append]
  split
  · next hempty =>
    rw [List.dropWhile_cons_of_neg (by decide), List.isEmpty_iff.mp hempty, List.nil_append]
  · rfl

theorem sscanf_d_comma (item rest : Text) : sscanf_d (item ++ ',' :: rest) = sscanf_d item := by
  unfold sscanf_d
  rw [dropWhile_comma]
  cases item.dropWhile isspace with
  | nil => exact congrArg (Option.map to_int) (leading_number_comma [] rest)
  | cons c t =>
    rw [List.cons_append]
    by_cases hminus : c = '-'
    · subst hminus
      simp [leading_number_comma]
    · by_cases hplus : c = '+'
      · subst hplus
        simp [leading_number_comma]
      · have hwhole := leading_number_comma (c :: t) rest
        simp only [List.cons_append] at hwhole
        simp [hminus, hplus, hwhole]

/-- An item with a comma behind it is never taken for the end of the text. -/
theorem sscanf_comma (item rest : Text) :
    sscanf (item ++ ',' :: rest) =
      match sscanf_d item with
      | some n => .converted n
      | none => .mismatch := by
  rw [sscanf, sscanf_d_comma, dropWhile_comma]
  cases sscanf_d item with
  | some n => rfl
  | none => simp

/-! ## Section 4: The loop -/

/-- The numbers that the items begin with, up to an item without one. -/
def scanned : List Text → List ℤ
  | [] => []
  | item :: items =>
    match sscanf_d item with
    | some n => n :: scanned items
    | none => []

theorem ne_comma_of_mem {item : Text} (h : ',' ∉ item) :
    ∀ c ∈ item, decide (c ≠ ',') = true := by
  intro c hc
  rw [decide_eq_true_iff]
  intro heq
  exact h (heq ▸ hc)

theorem behind_comma_append {item : Text} (h : ',' ∉ item) (rest : Text) :
    behind_comma (item ++ ',' :: rest) = some rest := by
  rw [behind_comma, List.dropWhile_append_of_pos (ne_comma_of_mem h),
    List.dropWhile_cons_of_neg (by simp)]

theorem behind_comma_of_not_mem {item : Text} (h : ',' ∉ item) : behind_comma item = none := by
  rw [behind_comma, List.dropWhile_eq_nil_iff.mpr (ne_comma_of_mem h)]

/-- A turn of the loop with a comma behind the item. -/
theorem scan_loop_comma {item : Text} (h : ',' ∉ item) (rest : Text) (dest : ℕ) :
    scan_loop (item ++ ',' :: rest) dest =
      match sscanf_d item with
      | some n => (dest, n) :: scan_loop rest (dest + 1)
      | none => [] := by
  rw [scan_loop, sscanf_comma]
  cases sscanf_d item with
  | none => simp
  | some n =>
    simp only [reduceCtorEq, if_false, Scan.store]
    split
    · next repl hrepl =>
      rw [behind_comma_append h] at hrepl
      obtain rfl := Option.some.inj hrepl
      rfl
    · next hrepl =>
      rw [behind_comma_append h] at hrepl
      cases hrepl

/-- The last turn; what is no number is not stored, whether it ends the loop or not. -/
theorem scan_loop_last {item : Text} (h : ',' ∉ item) (dest : ℕ) :
    scan_loop item dest =
      match sscanf_d item with
      | some n => [(dest, n), (dest, n)]
      | none => [] := by
  have hstop : ∀ repl, behind_comma item ≠ some repl := by
    intro repl hrepl
    rw [behind_comma_of_not_mem h] at hrepl
    cases hrepl
  rw [scan_loop]
  unfold sscanf
  cases sscanf_d item with
  | none =>
    by_cases hblank : item.dropWhile isspace = []
    · -- the end of the text counts as a success, with nothing stored
      simp only [if_pos hblank, reduceCtorEq, if_false, Scan.store]
      split
      · next repl hrepl => exact absurd hrepl (hstop repl)
      · rfl
    · simp only [if_neg hblank, if_true]
  | some n =>
    simp only [reduceCtorEq, if_false, Scan.store]
    split
    · next repl hrepl => exact absurd hrepl (hstop repl)
    · rfl

theorem entry_eq_none {stores : List (ℕ × ℤ)} {j : ℕ} (h : ∀ p ∈ stores, p.1 ≠ j) :
    entry stores j = none := by
  induction stores with
  | nil => rfl
  | cons p stores ih =>
    obtain ⟨hp, hstores⟩ := List.forall_mem_cons.mp h
    obtain ⟨i, n⟩ := p
    rw [entry, ih hstores, if_neg hp, Option.or_none]

/-- Stores are to the entries of the items. -/
theorem scan_loop_within (text : Text) (dest : ℕ) :
    ∀ p ∈ scan_loop text dest, dest ≤ p.1 ∧ p.1 < dest + (text.splitOn ',').length := by
  induction text using Pieces.splitOn_induction (x := ',') generalizing dest with
  | last item hitem =>
    rw [scan_loop_last hitem]
    cases sscanf_d item with
    | none => exact nofun
    | some n => simp
  | more item rest hitem ih =>
    rw [scan_loop_comma hitem]
    cases sscanf_d item with
    | none => exact nofun
    | some n =>
      rw [List.forall_mem_cons, List.length_cons]
      refine ⟨⟨Nat.le_refl _, by omega⟩, fun p hp => ?_⟩
      have := ih (dest + 1) p hp
      omega

/-- An entry has the number of its item, if all items before it have numbers too. -/
theorem entry_scan_loop (text : Text) (dest j : ℕ) :
    entry (scan_loop text dest) (dest + j) = (scanned (text.splitOn ','))[j]? := by
  induction text using Pieces.splitOn_induction (x := ',') generalizing dest j with
  | last item hitem =>
    rw [scan_loop_last hitem, scanned]
    cases sscanf_d item with
    | none => rfl
    | some n =>
      cases j with
      | zero => simp [entry]
      | succ j => simp [entry, scanned]
  | more item rest hitem ih =>
    rw [scan_loop_comma hitem, scanned]
    cases sscanf_d item with
    | none => rfl
    | some n =>
      simp only [entry]
      cases j with
      | zero =>
        have hlater : entry (scan_loop rest (dest + 1)) (dest + 0) = none :=
          entry_eq_none fun p hp => by
            have := (scan_loop_within rest (dest + 1) p hp).1
            omega
        rw [hlater, Option.none_or, if_pos (Nat.add_zero dest).symm]
        rfl
      | succ j =>
        have hindex : dest + (j + 1) = dest + 1 + j := by omega
        rw [hindex, ih, if_neg (by omega), Option.or_none]
        rfl

/-! ## Section 5: The list -/

/-- All items begin with a number. -/
def Begins (optarg : Text) : Prop := ∀ item ∈ optarg.splitOn ',', (sscanf_d item).isSome

/-- All items are numbers that an `int` holds. -/
def Decimals (optarg : Text) : Prop :=
  ∀ item ∈ optarg.splitOn ',', ∃ n, decimal item = some n ∧ Machine.IsInt n

theorem scanned_of_begins {items : List Text} (h : ∀ item ∈ items, (sscanf_d item).isSome) :
    scanned items = items.filterMap sscanf_d ∧ (scanned items).length = items.length := by
  induction items with
  | nil => exact ⟨rfl, rfl⟩
  | cons item items ih =>
    obtain ⟨hitem, hitems⟩ := List.forall_mem_cons.mp h
    obtain ⟨n, hn⟩ := Option.isSome_iff_exists.mp hitem
    obtain ⟨heq, hlength⟩ := ih hitems
    rw [scanned, List.filterMap_cons, hn]
    exact ⟨congrArg _ heq, congrArg Nat.succ hlength⟩

/-- An item without a number leaves its entry, and those behind it. -/
theorem begins_of_scanned {items : List Text} (h : items.length ≤ (scanned items).length) :
    ∀ item ∈ items, (sscanf_d item).isSome := by
  induction items with
  | nil => exact nofun
  | cons item items ih =>
    rw [scanned] at h
    cases hn : sscanf_d item with
    | none =>
      rw [hn] at h
      cases h
    | some n =>
      rw [hn] at h
      rw [List.forall_mem_cons, hn]
      exact ⟨rfl, ih (Nat.le_of_succ_le_succ h)⟩

theorem entry_eq (optarg : Text) (j : ℕ) :
    entry (scan_loop optarg 0) j = (scanned (optarg.splitOn ','))[j]? := by
  rw [← entry_scan_loop optarg 0 j, Nat.zero_add]

theorem written_iff (optarg : Text) :
    (∀ j ∈ List.range (1 + optarg.count ','), (entry (scan_loop optarg 0) j).isSome) ↔
      Begins optarg := by
  have hlength := Pieces.length_splitOn ',' optarg
  simp only [entry_eq, List.mem_range, ← hlength]
  constructor
  · intro h
    apply begins_of_scanned
    by_contra hlt
    have hlast := h (scanned (optarg.splitOn ',')).length (by omega)
    rw [List.getElem?_eq_none (Nat.le_refl _)] at hlast
    cases hlast
  · intro h j hj
    rw [← (scanned_of_begins h).2] at hj
    rw [List.getElem?_eq_getElem hj]
    rfl

/-- What the product is taken of, if all entries are written. -/
theorem factors_eq {optarg : Text} (h : Begins optarg) (garbage : ℕ → ℤ) :
    ((List.range (1 + optarg.count ',')).map fun j =>
      (entry (scan_loop optarg 0) j).getD (garbage j)) =
        (optarg.splitOn ',').filterMap sscanf_d := by
  obtain ⟨hscanned, hlength⟩ := scanned_of_begins h
  rw [← hscanned, ← Pieces.length_splitOn, ← hlength]
  apply List.ext_getElem
  · rw [List.length_map, List.length_range]
  · intro j hj hj'
    rw [List.getElem_map, List.getElem_range, entry_eq, List.getElem?_eq_getElem hj']
    rfl

theorem comma_not_mem_whole_number {t : Text} {n : ℤ} (h : whole_number t = some n) : ',' ∉ t := by
  unfold whole_number at h
  split at h
  · next hcond =>
    intro hmem
    exact absurd (List.all_eq_true.mp hcond.2 ',' hmem) (by decide)
  · cases h

theorem comma_not_mem_decimal {item : Text} {n : ℤ} (h : decimal item = some n) : ',' ∉ item := by
  have hdrop : ',' ∉ item.dropWhile isspace := by
    unfold decimal at h
    split at h
    · next t hdrop =>
      obtain ⟨m, hm, -⟩ := Option.map_eq_some_iff.mp h
      rw [hdrop]
      simp [comma_not_mem_whole_number hm]
    · next t hdrop =>
      rw [hdrop]
      simp [comma_not_mem_whole_number h]
    · exact comma_not_mem_whole_number h
  rw [← List.takeWhile_append_dropWhile (p := isspace) (l := item), List.mem_append, not_or]
  refine ⟨fun hmem => ?_, hdrop⟩
  exact absurd (List.mem_takeWhile_imp hmem) (by decide)

/-- A list of integers is split into its items. -/
theorem items_of_isList {optarg : Text} {ints : List ℤ} (h : IsList optarg ints) :
    List.Forall₂ (fun item n => decimal item = some n) (optarg.splitOn ',') ints := by
  obtain ⟨items, hne, rfl, hints⟩ := h
  have hitems : ∀ item ∈ items, ',' ∉ item := by
    intro item hmem
    obtain ⟨n, -, hn⟩ := Pieces.mem_left_of_forall₂ hints hmem
    exact comma_not_mem_decimal hn
  rwa [List.splitOn_intercalate ',' hitems hne]

/-- Integers are scanned up to the range of an `int`. -/
theorem scanned_of_decimals {items : List Text} {ints : List ℤ}
    (h : List.Forall₂ (fun item n => decimal item = some n) items ints) :
    scanned items = ints.map to_int := by
  induction h with
  | nil => rfl
  | cons hitem _ ih => rw [scanned, sscanf_of_decimal hitem, List.map_cons, ih]

theorem isList_of_decimals {optarg : Text} (h : Decimals optarg) :
    ∃ ints, IsList optarg ints ∧ ∀ n ∈ ints, Machine.IsInt n := by
  obtain ⟨ints, hints, hint⟩ := Pieces.exists_forall₂ h
  exact ⟨ints, ⟨optarg.splitOn ',', List.splitOn_ne_nil ',' optarg,
    (List.intercalate_splitOn ',').symm, hints⟩, hint⟩

/-- The array has the integers of a list iff an `int` holds them. -/
theorem decimals_of_exact {optarg : Text} {ints : List ℤ} (h : IsList optarg ints)
    (hentry : ∀ j, j < ints.length → entry (scan_loop optarg 0) j = ints[j]?) :
    Decimals optarg := by
  have hitems := items_of_isList h
  have hscanned := scanned_of_decimals hitems
  have hself : ints.map to_int = ints := by
    apply List.ext_getElem (List.length_map _)
    intro j hj hj'
    have hj := hentry j hj'
    rw [entry_eq, hscanned, List.getElem?_map, List.getElem?_eq_getElem hj', Option.map_some] at hj
    rw [List.getElem_map]
    exact Option.some.inj hj
  intro item hmem
  obtain ⟨n, hn, hdecimal⟩ := Pieces.mem_left_of_forall₂ hitems hmem
  have heq : to_int n = n := List.map_inj_left.mp (hself.trans (List.map_id ints).symm) n hn
  exact ⟨n, hdecimal, to_int_eq_self_iff.mp heq⟩

/-! ## Section 6: Runs -/

section runs
variable {sys : Sys} {o : Options} {cache_line_size cache_num_sets : ℤ} {garbage : ℕ → ℤ}
  {optarg : Text}

/-- In a run that gets to the product, all entries are read. -/
theorem reads_eq (h : gets_to_check sys o cache_line_size cache_num_sets = true) :
    (main_f sys o cache_line_size cache_num_sets garbage optarg).reads =
      List.range (1 + optarg.count ',') := by
  simp [main_f, h]

theorem goes_on_eq (h : gets_to_check sys o cache_line_size cache_num_sets = true)
    (hbegins : Begins optarg) :
    (main_f sys o cache_line_size cache_num_sets garbage optarg).goes_on =
      passes (lines cache_num_sets.toNat o.percent_expanded)
        ((optarg.splitOn ',').filterMap sscanf_d) := by
  show (gets_to_check sys o cache_line_size cache_num_sets && passes _ (List.map _ _)) = _
  rw [h, Bool.true_and, factors_eq hbegins]

/-- No store is beyond the array. -/
theorem within_array (optarg : Text) :
    ∀ p ∈ scan_loop optarg 0, p.1 < 1 + optarg.count ',' := by
  intro p hp
  have := (scan_loop_within optarg 0 p hp).2
  rw [Pieces.length_splitOn] at this
  omega

variable (sys o cache_line_size cache_num_sets garbage optarg) in
/-- **Factors**: the list is parsed exactly or rejected, iff the run does not get to the
    product, or all items begin with numbers, and they are nothing but numbers in range
    or the product does not divide the number of lines. -/
theorem factors_exact_iff :
    ExactOrRejected optarg (main_f sys o cache_line_size cache_num_sets garbage optarg) ↔
      (gets_to_check sys o cache_line_size cache_num_sets = true →
        Begins optarg ∧ (Decimals optarg ∨
          passes (lines cache_num_sets.toNat o.percent_expanded)
            ((optarg.splitOn ',').filterMap sscanf_d) = false)) := by
  constructor
  · intro h hreached
    have hwritten := h.written
    rw [reads_eq hreached] at hwritten
    have hbegins : Begins optarg := (written_iff optarg).mp hwritten
    refine ⟨hbegins, ?_⟩
    by_contra hno
    obtain ⟨hdecimals, hpasses⟩ := not_or.mp hno
    rw [Bool.not_eq_false] at hpasses
    obtain ⟨ints, hlist, -, hentry⟩ := h.exact ((goes_on_eq hreached hbegins).trans hpasses)
    exact hdecimals (decimals_of_exact hlist hentry)
  · intro h
    cases hreached : gets_to_check sys o cache_line_size cache_num_sets with
    | false =>
      -- nothing is read, and the run does not go on
      refine ⟨fun hgo => ?_, fun j hj => ?_, within_array optarg⟩
      · simp [main_f, hreached] at hgo
      · simp [main_f, hreached] at hj
    | true =>
      obtain ⟨hbegins, hor⟩ := h hreached
      refine ⟨fun hgo => ?_, ?_, within_array optarg⟩
      · rw [goes_on_eq hreached hbegins] at hgo
        rcases hor with hdecimals | hpasses
        · obtain ⟨ints, hlist, hint⟩ := isList_of_decimals hdecimals
          have hitems := items_of_isList hlist
          have hself : ints.map to_int = ints :=
            (List.map_congr_left fun n hn => to_int_eq_self_iff.mpr (hint n hn)).trans
              (List.map_id ints)
          refine ⟨ints, hlist, ?_, fun j _ => ?_⟩
          · show 1 + optarg.count ',' = ints.length
            rw [← Pieces.length_splitOn, hitems.length_eq]
          · show entry (scan_loop optarg 0) j = ints[j]?
            rw [entry_eq, scanned_of_decimals hitems, hself]
        · rw [hpasses] at hgo
          cases hgo
      · rw [reads_eq hreached]
        exact (written_iff optarg).mpr hbegins

end runs

/-- With 512 lines, an entry behind the last comma is read and was never written; and
    what follows a number is passed over. -/
theorem factors_not_exact :
    ¬ExactOrRejected "2,".toList
        (main_f quietSys (randomizedOptions 25 50) 64 1024 (fun _ => 2) "2,".toList) ∧
      ¬ExactOrRejected "2x".toList
        (main_f quietSys (randomizedOptions 25 50) 64 1024 (fun _ => 2) "2x".toList) := by
  have hreached : gets_to_check quietSys (randomizedOptions 25 50) 64 1024 = true := by decide
  constructor
  · intro h
    have hwritten := h.written
    rw [reads_eq hreached] at hwritten
    have hempty := (written_iff _).mp hwritten [] (by decide)
    exact absurd hempty (by decide)
  · intro h
    have hbegins : Begins "2x".toList := by
      show ∀ item ∈ "2x".toList.splitOn ',', (sscanf_d item).isSome
      decide
    have hgo := h.exact ((goes_on_eq hreached hbegins).trans (by decide))
    obtain ⟨ints, hlist, -, -⟩ := hgo
    obtain ⟨n, -, hn⟩ := Pieces.mem_left_of_forall₂ (items_of_isList hlist)
      (show "2x".toList ∈ "2x".toList.splitOn ',' by decide)
    cases hn

/-! ## Section 7: The setup -/

section setup
variable {sys : Sys} {o : Options} {cache_line_size cache_num_sets : ℤ} {w : Machine.Arith}
  {factors : List ℤ} {siz_reduced lines_expanded : ℕ}

/-- Products that fit do not wrap. -/
theorem product_eq (h : ∀ front, front <+: factors →
      Machine.IsInt (front.foldl (fun check factor => check * factor) 1)) :
    product factors = factors.foldl (fun check factor => check * factor) 1 := by
  induction factors using List.reverseRecOn with
  | nil => rfl
  | append_singleton factors n ih =>
    have hfront := ih fun front hpre => h front (hpre.trans (List.prefix_append factors [n]))
    have hall := h _ List.prefix_rfl
    unfold product at hfront ⊢
    rw [List.foldl_append, List.foldl_cons, List.foldl_nil] at hall ⊢
    rw [hfront, List.foldl_append, List.foldl_cons, List.foldl_nil]
    exact Int.bmod_eq_of_le_mul_two (by have := hall.1; omega) (by have := hall.2; omega)

/-- As long as the products fit, the setup of the generators checks them in the same way. -/
theorem choose_period_iff (h : ∀ front, front <+: factors →
      Machine.IsInt (front.foldl (fun check factor => check * factor) 1)) :
    (∃ period, choose_period w (some factors) siz_reduced lines_expanded = .ok period) ↔
      passes lines_expanded factors = true := by
  rw [passes, decide_eq_true_iff, product_eq h, choose_period]
  constructor
  · intro hex
    obtain ⟨period, hperiod⟩ := hex
    split at hperiod
    · cases hperiod
    · next hne =>
      split at hperiod
      · cases hperiod
      · next hmod => exact ⟨hne, not_not.mp hmod⟩
  · intro hpass
    rw [if_neg hpass.1, if_neg (not_not.mpr hpass.2)]
    exact ⟨_, rfl⟩

/-- Before the product, it does not matter which factors there are. -/
theorem check_options_factors (factors : List ℤ) :
    check_options sys { o with rng_factors := some factors } =
      (check_options sys { o with rng_factors := some [] }).map
        fun o => { o with rng_factors := some factors } := by
  simp only [check_options, Option.isSome_some]
  split_ifs <;> rfl

/-- Generators are built only behind the check. -/
theorem gets_of_main_setup {fuel : ℕ} {g : Generators}
    (h : main_setup w sys fuel { o with rng_factors := some factors } cache_line_size
      cache_num_sets = some (.ok (some g))) :
    gets_to_check sys o cache_line_size cache_num_sets = true ∧
      ∃ siz_reduced period, choose_period w (some factors) siz_reduced
        (lines cache_num_sets.toNat o.percent_expanded) = .ok period := by
  constructor
  · rw [main_setup, check_options_factors] at h
    rw [gets_to_check]
    cases hcheck : check_options sys { o with rng_factors := some [] } with
    | error e =>
      rw [hcheck] at h
      cases h
    | ok o' =>
      rw [hcheck] at h
      simp only [Except.map] at h
      split at h
      · cases h
      · next hgeometry =>
        split at h
        · next hrandomize =>
          have hpow : pow_of_two cache_num_sets.toNat = true := by
            by_contra hno
            rw [Bool.not_eq_true] at hno
            simp [build_generators, hno] at h
          obtain ⟨hline, hsets⟩ := not_or.mp hgeometry
          simp only [decide_eq_true_iff]
          exact ⟨by omega, by omega, hrandomize, hpow⟩
        · cases h
  · obtain ⟨-, hbuild⟩ := main_setup_inv h
    obtain ⟨siz, fs, hperiod, -⟩ := build_generators_inv hbuild
    exact ⟨_, _, hperiod⟩

end setup

end SquareEvictionsFactors
