import Catbench.Framework.Decimal
import Catbench.Jaguar.Commands
import Catbench.Jaguar.Tokens

/-! # The path language

    A path should be a key, followed by keys after dots and indices in brackets
    (`Denotes`).  The parser reads such a path as it should, but it takes more:
    it cuts at dots and opening brackets alike, and then decides by the start of
    a token whether it is an index.  So `a[0]x`, `a.0]` and `a[0` are paths as
    well, as is `a]b`; `path_language_iff` says which texts are treated as the
    grammar has it.
-/

open Json

namespace Jaguar

/-! ## Section 1: Grammar -/

/-- A key has none of the characters of the path syntax. -/
def FreeKey (k : Text) : Prop := ∀ c ∈ k, c ≠ '.' ∧ c ≠ '[' ∧ c ≠ ']'

/-- A numeral, perhaps after a minus sign. -/
def IsIndex (t : Text) : Prop := ∃ ds, ds ≠ [] ∧ Decimal.Digits ds ∧ (t = ds ∨ t = '-' :: ds)

/-- The paths, and the subscripts that they denote. -/
inductive Denotes : Text → List Key → Prop where
  | key {k : Text} (hk : FreeKey k) : Denotes k [.str (Str.ofText k)]
  | dot {p k : Text} {ks : List Key} (h : Denotes p ks) (hk : FreeKey k) :
      Denotes (p ++ '.' :: k) (ks ++ [.str (Str.ofText k)])
  | index {p t : Text} {ks : List Key} (h : Denotes p ks) (ht : IsIndex t) :
      Denotes (p ++ '[' :: (t ++ [']'])) (ks ++ [.int (intValue t)])

/-- An index without leading zeros, and without a minus sign before zero. -/
def canonical : Text → Text
  | '-' :: ds => if Decimal.dropZeros ds = [] then [] else '-' :: Decimal.dropZeros ds
  | ds => Decimal.dropZeros ds

/-- The paths differ in leading zeros and minus signs before zero only. -/
inductive Similar : Text → Text → Prop where
  | key (k : Text) : Similar k k
  | dot {p q : Text} (h : Similar p q) (k : Text) : Similar (p ++ '.' :: k) (q ++ '.' :: k)
  | index {p q t u : Text} (h : Similar p q) (htu : canonical t = canonical u) :
      Similar (p ++ '[' :: (t ++ [']'])) (q ++ '[' :: (u ++ [']']))

/-! ## Section 2: Digits -/

theorem ne_of_isDigit {c : Char} (h : c.isDigit = true) : c ≠ '-' ∧ c ≠ '+' ∧ c ≠ '_' := by
  refine ⟨?_, ?_, ?_⟩ <;> rintro rfl <;> cases h

theorem decimal_of_isDigit {c : Char} (h : c.isDigit = true) :
    decimal c = some (c.toNat - 48) := by
  obtain ⟨hlow, hhigh⟩ := Decimal.toNat_of_isDigit h
  have hfind : decimalZeros.find? (fun z => z ≤ c.toNat && c.toNat < z + 10) = some 48 := by
    rw [decimalZeros, List.find?_cons_of_pos]
    simpa using ⟨hlow, hhigh⟩
  rw [decimal, hfind]
  rfl

/-- The characters around and between the digits of an integer, and the closing
    bracket. -/
def nondigits : List ℕ :=
  [0x09, 0x0A, 0x0B, 0x0C, 0x0D, 0x20, 0x2B, 0x2D, 0x5D, 0x5F, 0x85, 0xA0, 0x1680, 0x2000, 0x2001,
    0x2002, 0x2003, 0x2004, 0x2005, 0x2006, 0x2007, 0x2008, 0x2009, 0x200A, 0x2028, 0x2029, 0x202F,
    0x205F, 0x3000]

theorem decimal_of_mem_nondigits {c : Char} (h : c.toNat ∈ nondigits) : decimal c = none := by
  have hall : ∀ n ∈ nondigits, decimalZeros.find? (fun z => z ≤ n && n < z + 10) = none := by
    decide
  rw [decimal, hall c.toNat h]
  rfl

theorem decimal_of_isIntSpace {c : Char} (h : isIntSpace c = true) : decimal c = none := by
  apply decimal_of_mem_nondigits
  unfold isIntSpace isspace at h
  simp only [Bool.and_eq_true, Bool.or_eq_true, Bool.not_eq_true', Bool.and_eq_false_iff,
    decide_eq_true_iff, decide_eq_false_iff_not, Bool.decide_or, Bool.decide_and,
    List.mem_cons, List.not_mem_nil, or_false] at h
  simp only [nondigits, List.mem_cons, List.not_mem_nil, or_false]
  omega

theorem digitRun_of_decimal {t : Text} (h : ∀ c ∈ t, (decimal c).isSome) (acc : ℕ) :
    ∃ n, digitRun acc t = some n := by
  induction t generalizing acc with
  | nil => exact ⟨acc, rfl⟩
  | cons c t ih =>
    obtain ⟨d, hd⟩ := Option.isSome_iff_exists.mp (h c (by simp))
    have hc : c ≠ '_' := by
      rintro rfl
      rw [decimal_of_mem_nondigits (by decide)] at hd
      cases hd
    obtain ⟨n, hn⟩ := ih (fun c' hc' => h c' (by simp [hc'])) (10 * acc + d)
    refine ⟨n, ?_⟩
    rw [digitRun, hd]
    · exact hn
    · exact fun _ _ heq _ => hc heq

theorem digitRun_of_isDigit {ds : Text} (h : Decimal.Digits ds) (acc : ℕ) :
    digitRun acc ds = some (Nat.ofDigitChars 10 ds acc) := by
  induction ds generalizing acc with
  | nil => rfl
  | cons c ds ih =>
    have hc := h c (by simp)
    rw [digitRun, decimal_of_isDigit hc, Nat.ofDigitChars_cons]
    · exact ih (fun c' hc' => h c' (by simp [hc'])) _
    · exact fun _ _ heq _ => (ne_of_isDigit hc).2.2 heq

theorem digits_of_isDigit {ds : Text} (hne : ds ≠ []) (h : Decimal.Digits ds) :
    digits ds = some (Decimal.value ds) := by
  obtain ⟨c, t, rfl⟩ := List.exists_cons_of_ne_nil hne
  have ht : Decimal.Digits t := fun c' hc' => h c' (by simp [hc'])
  rw [digits, decimal_of_isDigit (h c (by simp)), Decimal.value, Nat.ofDigitChars_cons,
    Nat.mul_zero, Nat.zero_add]
  exact digitRun_of_isDigit ht _

theorem digits_of_decimal {t : Text} (hne : t ≠ []) (h : ∀ c ∈ t, (decimal c).isSome) :
    ∃ n, digits t = some n := by
  obtain ⟨c, t, rfl⟩ := List.exists_cons_of_ne_nil hne
  obtain ⟨d, hd⟩ := Option.isSome_iff_exists.mp (h c (by simp))
  rw [digits, hd]
  exact digitRun_of_decimal (fun c' hc' => h c' (by simp [hc'])) d

/-- What `int` makes of a run of digits, with a minus sign or without. -/
theorem int_of_decimal {t : Text} {n : ℕ} (hne : t ≠ []) (h : ∀ c ∈ t, (decimal c).isSome)
    (hn : digits t = some n) : int t = some (n : ℤ) ∧ int ('-' :: t) = some (-(n : ℤ)) := by
  have hspace : ∀ c ∈ t, isIntSpace c = false := by
    intro c hc
    by_contra hspace
    have hsome := h c hc
    rw [decimal_of_isIntSpace (by simpa using hspace)] at hsome
    cases hsome
  have hstrip : ∀ u : Text, (∀ c ∈ u, isIntSpace c = false) → strip isIntSpace u = u := by
    intro u hu
    refine strip_eq_self_iff.mpr ⟨fun c hc => hu c ?_, fun c hc => hu c ?_⟩
    · exact List.mem_of_mem_head? hc
    · exact List.mem_of_mem_getLast? hc
  have hminus : isIntSpace '-' = false := by decide
  constructor
  · rw [int, hstrip t hspace]
    obtain ⟨c, u, rfl⟩ := List.exists_cons_of_ne_nil hne
    have hc := h c (by simp)
    -- No sign is a digit.
    split
    · next heq =>
      rw [(List.cons.inj heq).1, decimal_of_mem_nondigits (by decide)] at hc
      cases hc
    · next heq =>
      rw [(List.cons.inj heq).1, decimal_of_mem_nondigits (by decide)] at hc
      cases hc
    · rw [hn]
      rfl
  · rw [int, hstrip ('-' :: t) (by simpa [hminus] using hspace)]
    simp [hn]

/-! ## Section 3: Tokens -/

/-- A token that is no subscript: an index without digits. -/
def EmptyIndex (token : Text) : Prop := [']'] <+: token ∨ ['-', ']'] <+: token

theorem digitsbeforebracket_eq_some {t g : Text} :
    digitsbeforebracket t = some g ↔
      (∃ rest, t = g ++ ']' :: rest) ∧ ∀ c ∈ g, (decimal c).isSome = true := by
  have hbracket : ¬(decimal ']').isSome = true := by
    rw [decimal_of_mem_nondigits (by decide)]
    decide
  unfold digitsbeforebracket
  constructor
  · intro h
    split at h
    · next rest hdrop =>
      obtain rfl := Option.some.inj h
      refine ⟨⟨rest, ?_⟩, fun c hc => ?_⟩
      · rw [← hdrop, List.takeWhile_append_dropWhile]
      · exact List.mem_takeWhile_imp (p := fun c => (decimal c).isSome) hc
    · cases h
  · rintro ⟨⟨rest, rfl⟩, hg⟩
    rw [List.dropWhile_append_of_pos (p := fun c => (decimal c).isSome) hg,
      List.dropWhile_cons_of_neg (p := fun c => (decimal c).isSome) hbracket]
    show some (List.takeWhile (fun c => (decimal c).isSome) (g ++ ']' :: rest)) = some g
    rw [List.takeWhile_append_of_pos (p := fun c => (decimal c).isSome) hg,
      List.takeWhile_cons_of_neg (p := fun c => (decimal c).isSome) hbracket, List.append_nil]

/-- The group is what comes before the bracket: digits, perhaps after a minus. -/
theorem bracketterminated_eq_some {t g : Text} :
    bracketterminated t = some g ↔
      (∃ rest, t = g ++ ']' :: rest) ∧
        ∃ ds, (g = ds ∨ g = '-' :: ds) ∧ ∀ c ∈ ds, (decimal c).isSome = true := by
  unfold bracketterminated
  constructor
  · intro h
    split at h
    · next t' =>
      obtain ⟨ds, hds, rfl⟩ := Option.map_eq_some_iff.mp h
      obtain ⟨⟨rest, rfl⟩, hdigits⟩ := digitsbeforebracket_eq_some.mp hds
      exact ⟨⟨rest, rfl⟩, ds, .inr rfl, hdigits⟩
    · obtain ⟨hrest, hdigits⟩ := digitsbeforebracket_eq_some.mp h
      exact ⟨hrest, g, .inl rfl, hdigits⟩
  · rintro ⟨⟨rest, rfl⟩, ds, rfl | rfl, hds⟩
    · split
      -- A digit is no minus sign.
      · next t' heq =>
        cases g with
        | nil => cases heq
        | cons c g =>
          have hc := hds c (by simp)
          rw [(List.cons.inj heq).1, decimal_of_mem_nondigits (by decide)] at hc
          cases hc
      · exact digitsbeforebracket_eq_some.mpr ⟨⟨rest, rfl⟩, hds⟩
    · show (digitsbeforebracket (ds ++ ']' :: rest)).map ('-' :: ·) = some ('-' :: ds)
      rw [digitsbeforebracket_eq_some.mpr ⟨⟨rest, rfl⟩, hds⟩]
      rfl

/-- An index has a value, unless there are no digits in it. -/
theorem int_group_eq_none {ds g : Text} (hg : g = ds ∨ g = '-' :: ds)
    (hds : ∀ c ∈ ds, (decimal c).isSome = true) : int g = none ↔ ds = [] := by
  constructor
  · intro h
    by_contra hne
    obtain ⟨n, hn⟩ := digits_of_decimal hne hds
    obtain ⟨hplus, hminus⟩ := int_of_decimal hne hds hn
    rcases hg with rfl | rfl
    · rw [hplus] at h
      cases h
    · rw [hminus] at h
      cases h
  · rintro rfl
    rcases hg with rfl | rfl <;> decide

/-- A token is no subscript exactly if it is an empty index. -/
theorem indexfromsubscript_error_iff {token : Text} :
    (∃ e, indexfromsubscript token = .error e) ↔ EmptyIndex token := by
  unfold indexfromsubscript
  constructor
  · rintro ⟨e, h⟩
    cases hg : bracketterminated token with
    | none =>
      rw [hg] at h
      cases h
    | some g =>
      rw [hg] at h
      obtain ⟨⟨rest, rfl⟩, ds, hgds, hds⟩ := bracketterminated_eq_some.mp hg
      have hnone : int g = none := by
        cases hint : int g with
        | none => rfl
        | some i =>
          dsimp only at h
          rw [hint] at h
          cases h
      obtain rfl := (int_group_eq_none hgds hds).mp hnone
      rcases hgds with rfl | rfl
      · exact .inl ⟨rest, rfl⟩
      · exact .inr ⟨rest, rfl⟩
  · intro h
    obtain ⟨g, rest, rfl, hg⟩ : ∃ g rest, token = g ++ ']' :: rest ∧ (g = [] ∨ g = ['-']) := by
      rcases h with ⟨rest, rfl⟩ | ⟨rest, rfl⟩
      · exact ⟨[], rest, rfl, .inl rfl⟩
      · exact ⟨['-'], rest, rfl, .inr rfl⟩
    have hsome := bracketterminated_eq_some.mpr ⟨⟨rest, rfl⟩, [], hg, by simp⟩
    rw [hsome]
    dsimp only
    rw [(int_group_eq_none hg (by simp)).mpr rfl]
    exact ⟨_, rfl⟩

theorem indexfromsubscript_key {k : Text} (hk : FreeKey k) :
    indexfromsubscript k = .ok (.str (Str.ofText k)) := by
  have hnone : bracketterminated k = none := by
    cases hg : bracketterminated k with
    | none => rfl
    | some g =>
      obtain ⟨⟨rest, rfl⟩, -⟩ := bracketterminated_eq_some.mp hg
      exact absurd rfl (hk ']' (by simp)).2.2
  rw [indexfromsubscript, hnone]

theorem intValue_of_digits {ds : Text} (h : Decimal.Digits ds) :
    intValue ds = (Decimal.value ds : ℤ) := by
  unfold intValue
  split
  · exact absurd rfl (ne_of_isDigit (h '-' (by simp))).1
  · rfl

theorem indexfromsubscript_index {t : Text} (ht : IsIndex t) :
    indexfromsubscript (t ++ [']']) = .ok (.int (intValue t)) := by
  obtain ⟨ds, hne, hds, hform⟩ := ht
  have hdecimal : ∀ c ∈ ds, (decimal c).isSome = true := fun c hc => by
    rw [decimal_of_isDigit (hds c hc)]
    rfl
  have hsome : bracketterminated (t ++ [']']) = some t :=
    bracketterminated_eq_some.mpr ⟨⟨[], rfl⟩, ds, hform, hdecimal⟩
  obtain ⟨hplus, hminus⟩ := int_of_decimal hne hdecimal (digits_of_isDigit hne hds)
  rw [indexfromsubscript, hsome]
  dsimp only
  rcases hform with rfl | rfl
  · rw [hplus, intValue_of_digits hds]
  · rw [hminus]
    rfl

/-! ## Section 4: Paths of the grammar -/

theorem not_sep_of_free {k : Text} (hk : FreeKey k) :
    ∀ c ∈ k, (decide (c = '.') || decide (c = '[')) = false := by
  intro c hc
  obtain ⟨hdot, hopen, -⟩ := hk c hc
  simp [hdot, hopen]

theorem not_sep_of_index {t : Text} (ht : IsIndex t) :
    ∀ c ∈ t ++ [']'], (decide (c = '.') || decide (c = '[')) = false := by
  obtain ⟨ds, -, hds, hform⟩ := ht
  intro c hc
  have hcases : c ∈ ds ∨ c = '-' ∨ c = ']' := by
    rcases hform with rfl | rfl <;> simp at hc <;> tauto
  rcases hcases with hmem | rfl | rfl
  · have hdigit := hds c hmem
    have hne : c ≠ '.' ∧ c ≠ '[' := by
      constructor <;> rintro rfl <;> cases hdigit
    simp [hne.1, hne.2]
  · decide
  · decide

theorem subscripts_concat {levels : List Text} {last : Text} {ks : List Key} {k : Key}
    (hks : subscripts levels = some ks) (hk : indexfromsubscript last = .ok k) :
    subscripts (levels ++ [last]) = some (ks ++ [k]) := by
  induction levels generalizing ks with
  | nil =>
    obtain rfl := Option.some.inj hks
    exact subscripts_cons.mpr ⟨k, [], hk, rfl, rfl⟩
  | cons level levels ih =>
    obtain ⟨k', ks', hk', hks', rfl⟩ := subscripts_cons.mp hks
    exact subscripts_cons.mpr ⟨k', ks' ++ [k], hk', ih hks', rfl⟩

/-- A token after a separator gives the last subscript. -/
theorem pathsubscripts_concat {p u : Text} {c : Char} {ks : List Key} {k : Key}
    (hks : pathsubscripts p = some ks) (hc : c = '.' ∨ c = '[')
    (hu : ∀ c ∈ u, (decide (c = '.') || decide (c = '[')) = false)
    (hk : indexfromsubscript u = .ok k) : pathsubscripts (p ++ c :: u) = some (ks ++ [k]) := by
  unfold pathsubscripts subscriptsfrompath at hks ⊢
  rw [splitAt_append_sep (by simpa using hc), splitAt_eq_singleton hu]
  exact subscripts_concat hks hk

/-- The parser reads a path of the grammar as the grammar does. -/
theorem Denotes.pathsubscripts_eq {s : Text} {ks : List Key} (h : Denotes s ks) :
    pathsubscripts s = some ks := by
  induction h with
  | @key k hk =>
    unfold pathsubscripts subscriptsfrompath
    rw [splitAt_eq_singleton (not_sep_of_free hk)]
    exact subscripts_cons.mpr ⟨_, [], indexfromsubscript_key hk, rfl, rfl⟩
  | dot _ hk ih =>
    exact pathsubscripts_concat ih (.inl rfl) (not_sep_of_free hk) (indexfromsubscript_key hk)
  | index _ ht ih =>
    exact pathsubscripts_concat ih (.inr rfl) (not_sep_of_index ht) (indexfromsubscript_index ht)

theorem canonical_of_digits {ds : Text} (h : Decimal.Digits ds) :
    canonical ds = Decimal.dropZeros ds := by
  unfold canonical
  split
  · exact absurd rfl (ne_of_isDigit (h '-' (by simp))).1
  · rfl

/-- Indices of one value are the same, but for leading zeros and a minus sign
    before zero. -/
theorem canonical_eq_of_value_eq {t u : Text} (ht : IsIndex t) (hu : IsIndex u)
    (h : intValue t = intValue u) : canonical t = canonical u := by
  obtain ⟨ds, -, hds, hdform⟩ := ht
  obtain ⟨es, -, hes, heform⟩ := hu
  have hminus : ∀ ds, intValue ('-' :: ds) = -(Decimal.value ds : ℤ) := fun ds => rfl
  rcases hdform with rfl | rfl <;> rcases heform with rfl | rfl
  · rw [intValue_of_digits hds, intValue_of_digits hes, Int.natCast_inj] at h
    rw [canonical_of_digits hds, canonical_of_digits hes, Decimal.dropZeros_eq_of_value_eq hds hes h]
  -- Of two signs, both numerals are zero.
  · rw [intValue_of_digits hds, hminus] at h
    rw [canonical_of_digits hds, canonical,
      Decimal.dropZeros_of_value_eq_zero hds (by omega),
      Decimal.dropZeros_of_value_eq_zero hes (by omega)]
    rfl
  · rw [hminus, intValue_of_digits hes] at h
    rw [canonical_of_digits hes, canonical,
      Decimal.dropZeros_of_value_eq_zero hds (by omega),
      Decimal.dropZeros_of_value_eq_zero hes (by omega)]
    rfl
  · rw [hminus, hminus, Int.neg_inj, Int.natCast_inj] at h
    rw [canonical, canonical, Decimal.dropZeros_eq_of_value_eq hds hes h]

theorem Denotes.ne_nil {s : Text} {ks : List Key} (h : Denotes s ks) : ks ≠ [] := by
  cases h <;> simp

/-- A path by its last subscript. -/
theorem Denotes.inversion {t : Text} {ks : List Key} {k : Key} (h : Denotes t (ks ++ [k])) :
    (ks = [] ∧ k = .str (Str.ofText t)) ∨
    (∃ q u, t = q ++ '.' :: u ∧ Denotes q ks ∧ k = .str (Str.ofText u)) ∨
    (∃ q u, t = q ++ '[' :: (u ++ [']']) ∧ Denotes q ks ∧ IsIndex u ∧ k = .int (intValue u)) := by
  generalize hall : ks ++ [k] = all at h
  cases h with
  | key hk =>
    obtain ⟨rfl, hlast⟩ := List.append_inj' (hall.trans (List.nil_append _).symm) rfl
    exact .inl ⟨rfl, List.singleton_inj.mp hlast⟩
  | @dot q u _ hq hu =>
    obtain ⟨rfl, hlast⟩ := List.append_inj' hall rfl
    exact .inr (.inl ⟨q, u, rfl, hq, List.singleton_inj.mp hlast⟩)
  | @index q u _ hq hu =>
    obtain ⟨rfl, hlast⟩ := List.append_inj' hall rfl
    exact .inr (.inr ⟨q, u, rfl, hq, hu, List.singleton_inj.mp hlast⟩)

/-- Paths that denote the same subscripts are similar. -/
theorem Denotes.similar {s t : Text} {ks : List Key} (hs : Denotes s ks) (ht : Denotes t ks) :
    Similar s t := by
  induction hs generalizing t with
  | @key k hk =>
    have hlast : Denotes t ([] ++ [.str (Str.ofText k)]) := ht
    rcases hlast.inversion with ⟨-, h⟩ | ⟨q, u, -, hq, -⟩ | ⟨q, u, -, -, -, h⟩
    · rw [Str.ofText_injective (Key.str.inj h)]
      exact .key t
    · exact absurd rfl hq.ne_nil
    · cases h
  | @dot p k ks hp hk ih =>
    rcases ht.inversion with ⟨hnil, -⟩ | ⟨q, u, rfl, hq, h⟩ | ⟨q, u, -, -, -, h⟩
    · exact absurd hnil hp.ne_nil
    · rw [Str.ofText_injective (Key.str.inj h)]
      exact .dot (ih hq) u
    · cases h
  | @index p a ks hp ha ih =>
    rcases ht.inversion with ⟨-, h⟩ | ⟨q, u, -, -, h⟩ | ⟨q, u, rfl, hq, hu, h⟩
    · cases h
    · cases h
    · exact .index (ih hq) (canonical_eq_of_value_eq ha hu (Key.int.inj h))

end Jaguar
