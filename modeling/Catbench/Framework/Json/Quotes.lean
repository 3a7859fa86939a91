import Catbench.Framework.Json.Documents
import Catbench.Framework.Pieces

/-! # Quotation marks

    How many strings a text can hold, by its quotation marks.

    * **Written texts**: a string is written with two quotation marks, apart from
      those that are escaped (`quotes_strText`).
    * **Read texts**: a text that reads as a value has two of them for each of its
      strings (`strings_le_quotes`), whatever is between them.
-/

namespace Json

variable {F : Type}

/-! ## Section 1: Counting -/

/-- The quotation marks that are not escaped. -/
def quotes : List Char → ℕ
  | '\\' :: _ :: t => quotes t
  | '"' :: t => quotes t + 1
  | _ :: t => quotes t
  | [] => 0

mutual

/-- The strings of a value, keys and values. -/
def strings : Val F → ℕ
  | .str _ => 1
  | .list xs => stringsList xs
  | .dict d => stringsItems d
  | .null | .bool _ | .int _ | .float _ => 0

def stringsList : List (Val F) → ℕ
  | [] => 0
  | x :: xs => strings x + stringsList xs

def stringsItems : List (Key × Val F) → ℕ
  | [] => 0
  | (_, v) :: d => 1 + strings v + stringsItems d

end

theorem stringsList_eq_sum (xs : List (Val F)) : stringsList xs = (xs.map strings).sum := by
  induction xs with
  | nil => rfl
  | cons x xs ih => rw [stringsList, ih, List.map_cons, List.sum_cons]

theorem stringsItems_eq_sum (d : List (Key × Val F)) :
    stringsItems d = (d.map fun p => 1 + strings p.2).sum := by
  induction d with
  | nil => rfl
  | cons p d ih => rw [stringsItems, ih, List.map_cons, List.sum_cons]

theorem strings_ofPairs_le (items : List (Key × Val F)) :
    strings (.dict (Dict.ofPairs items)) ≤ (items.map fun p => 1 + strings p.2).sum := by
  rw [strings, stringsItems_eq_sum]
  exact Dict.sum_ofPairs_le _ items

theorem quotes_cons {c : Char} (hquote : c ≠ '"') (hslash : c ≠ '\\') (t : List Char) :
    quotes (c :: t) = quotes t := by
  rw [quotes.eq_def]
  split
  · next heq => exact absurd (List.cons.inj heq).1 hslash
  · next heq => exact absurd (List.cons.inj heq).1 hquote
  · next heq => rw [(List.cons.inj heq).2]
  · next heq => cases heq

/-- Neither a quotation mark nor the beginning of an escape. -/
def Silent (t : List Char) : Prop := ∀ c ∈ t, c ≠ '"' ∧ c ≠ '\\'

instance (t : List Char) : Decidable (Silent t) :=
  List.decidableBAll (fun c => c ≠ '"' ∧ c ≠ '\\') t

theorem quotes_silent_append {l : List Char} (h : Silent l) (t : List Char) :
    quotes (l ++ t) = quotes t := by
  induction l with
  | nil => rfl
  | cons c l ih =>
    obtain ⟨hc, hl⟩ := List.forall_mem_cons.mp h
    rw [List.cons_append, quotes_cons hc.1 hc.2, ih hl]

theorem quotes_silent {t : List Char} (h : Silent t) : quotes t = 0 := by
  have happend := quotes_silent_append h []
  rwa [List.append_nil] at happend

theorem quotes_skipSpace (t : List Char) : quotes (skipSpace t) = quotes t := by
  have hspace : Silent (t.takeWhile isSpace) := by
    intro c hc
    have hspace := List.mem_takeWhile_imp hc
    constructor
    · rintro rfl
      cases hspace
    · rintro rfl
      cases hspace
  have happend := quotes_silent_append hspace (t.dropWhile isSpace)
  rw [List.takeWhile_append_dropWhile] at happend
  exact happend.symm

/-- What follows a character that was looked for behind some space. -/
theorem quotes_of_skipSpace {t rest : List Char} {c : Char} (h : skipSpace t = c :: rest)
    (hc : c ≠ '"' ∧ c ≠ '\\') : quotes t = quotes rest := by
  rw [← quotes_skipSpace t, h, quotes_cons hc.1 hc.2]

/-! ## Section 2: Written texts -/

theorem silent_hexDigit (n : ℕ) : hexDigit n ≠ '"' ∧ hexDigit n ≠ '\\' := by
  have hall : ∀ d < 16, Nat.digitChar d ≠ '"' ∧ Nat.digitChar d ≠ '\\' := by decide
  exact hall _ (Nat.mod_lt n (by decide))

/-- An escaped code point has no quotation mark that counts. -/
theorem quotes_escapeUnit (c : CodePoint) (t : List Char) :
    quotes (escapeUnit c ++ t) = quotes t := by
  unfold escapeUnit
  split
  · rfl
  split
  · rfl
  split
  · rfl
  split
  · rfl
  split
  · rfl
  split
  · rfl
  split
  · rfl
  split
  · next hslash hquote _ _ _ _ _ hascii =>
    have hval : (Char.ofNat c.val).toNat = c.val := by
      rw [Char.ofNat, dif_pos (Or.inl (by omega))]
      rfl
    rw [List.singleton_append, quotes_cons]
    · intro heq
      rw [heq] at hval
      exact hquote hval.symm
    · intro heq
      rw [heq] at hval
      exact hslash hval.symm
  · have hdigits : Silent [hexDigit (c.val / 4096), hexDigit (c.val / 256), hexDigit (c.val / 16),
        hexDigit c.val] := by
      intro d hd
      simp only [List.mem_cons, List.not_mem_nil, or_false] at hd
      rcases hd with rfl | rfl | rfl | rfl <;> exact silent_hexDigit _
    exact quotes_silent_append hdigits t

theorem quotes_strText (s : Str) (t : List Char) : quotes (strText s ++ t) = quotes t + 2 := by
  have hbody : ∀ us : List CodePoint,
      quotes (us.flatMap escapeUnit ++ '"' :: t) = quotes t + 1 := by
    intro us
    induction us with
    | nil => rfl
    | cons u us ih => rw [List.flatMap_cons, List.append_assoc, quotes_escapeUnit, ih]
  rw [strText, List.append_assoc, List.singleton_append, List.cons_append, quotes, hbody]

/-! ## Section 3: The last quotation mark of a string -/

/-- Nothing is written as a control character. -/
theorem printable_escapeUnit (c : CodePoint) : ∀ ch ∈ escapeUnit c, 0x20 ≤ ch.toNat := by
  have hhex : ∀ n, 0x20 ≤ (hexDigit n).toNat := by
    intro n
    have hall : ∀ d < 16, 0x20 ≤ (Nat.digitChar d).toNat := by decide
    exact hall _ (Nat.mod_lt n (by decide))
  unfold escapeUnit
  split
  · simp
  split
  · simp
  split
  · simp
  split
  · simp
  split
  · simp
  split
  · simp
  split
  · simp
  split
  · next _ _ _ _ _ _ _ hascii =>
    have hval : (Char.ofNat c.val).toNat = c.val := by
      rw [Char.ofNat, dif_pos (Or.inl (by omega))]
      rfl
    intro ch hch
    rw [List.mem_singleton.mp hch, hval]
    exact hascii.1
  · simp only [escapeHex, List.forall_mem_cons]
    exact ⟨by decide, by decide, hhex _, hhex _, hhex _, hhex _, by simp⟩

theorem printable_strText (s : Str) : ∀ ch ∈ strText s, 0x20 ≤ ch.toNat := by
  intro ch hch
  rw [strText, List.mem_append, List.mem_cons, List.mem_singleton] at hch
  rcases hch with (rfl | hch) | rfl
  · decide
  · obtain ⟨u, -, hch⟩ := List.mem_flatMap.mp hch
    exact printable_escapeUnit u ch hch
  · decide

/-- How a code point is written. -/
def escapePoint (c : CodePoint) : List Char := c.units.flatMap escapeUnit

theorem strText_eq (s : Str) : strText s = '"' :: (s.points.flatMap escapePoint ++ ['"']) := by
  rw [strText, List.flatMap_assoc]
  rfl

/-- The three ways to write one. -/
inductive Written (c : CodePoint) : List Char → Prop where
  | plain (ch : Char) (hpoint : CodePoint.ofChar ch = c) (hquote : ch ≠ '"') (hslash : ch ≠ '\\') :
      Written c [ch]
  | quote (hpoint : c = CodePoint.ofChar '"') : Written c ['\\', '"']
  | escape {t : List Char} (hpoint : c ≠ CodePoint.ofChar '"') (hslash : '\\' ∈ t) (hquote : '"' ∉ t) :
      Written c t

namespace Written

variable {c : CodePoint} {t : List Char} (h : Written c t)
include h

theorem quote_not_mem (hc : c ≠ CodePoint.ofChar '"') : '"' ∉ t := by
  cases h with
  | plain ch hpoint hquote => exact fun hmem => hquote (List.mem_singleton.mp hmem).symm
  | quote hpoint => exact absurd hpoint hc
  | escape hpoint hslash hquote => exact hquote

theorem of_high (hc : c.IsHigh) : '\\' ∈ t ∧ '"' ∉ t := by
  cases h with
  | plain ch hpoint => exact absurd (hpoint ▸ hc) (CodePoint.not_isHigh_ofChar ch)
  | quote hpoint => exact absurd (hpoint ▸ hc) (CodePoint.not_isHigh_ofChar '"')
  | escape hpoint hslash hquote => exact ⟨hslash, hquote⟩

theorem eq_singleton (hslash : '\\' ∉ t) : ∃ ch, t = [ch] ∧ CodePoint.ofChar ch = c := by
  cases h with
  | plain ch hpoint => exact ⟨ch, rfl, hpoint⟩
  | quote hpoint => exact absurd (List.mem_cons_self) hslash
  | escape hpoint hmem => exact absurd hmem hslash

end Written

theorem written_escapeUnit (c : CodePoint) : Written c (escapeUnit c) := by
  have hquote : c.val ≠ 0x22 → c ≠ CodePoint.ofChar '"' := by
    rintro h rfl
    exact h rfl
  unfold escapeUnit
  split
  · next h => exact .escape (hquote (by omega)) (by simp) (by simp)
  split
  · next h => exact .quote (Fin.ext h)
  split
  · next h => exact .escape (hquote (by omega)) (by simp) (by simp)
  split
  · next h => exact .escape (hquote (by omega)) (by simp) (by simp)
  split
  · next h => exact .escape (hquote (by omega)) (by simp) (by simp)
  split
  · next h => exact .escape (hquote (by omega)) (by simp) (by simp)
  split
  · next h => exact .escape (hquote (by omega)) (by simp) (by simp)
  split
  · next hslash hmark _ _ _ _ _ hascii =>
    have hval : (Char.ofNat c.val).toNat = c.val := by
      rw [Char.ofNat, dif_pos (Or.inl (by omega))]
      rfl
    refine .plain _ (Fin.ext hval) ?_ ?_
    · intro heq
      rw [heq] at hval
      exact hmark hval.symm
    · intro heq
      rw [heq] at hval
      exact hslash hval.symm
  · next h _ _ _ _ _ _ =>
    refine .escape (hquote h) (by simp [escapeHex]) fun hmem => ?_
    simp only [escapeHex, List.mem_cons, List.not_mem_nil, or_false] at hmem
    rcases hmem with heq | heq | heq | heq | heq | heq
    · cases heq
    · cases heq
    all_goals exact (silent_hexDigit _).1 heq.symm

theorem written_escapePoint (c : CodePoint) : Written c (escapePoint c) := by
  unfold escapePoint CodePoint.units
  split
  · rw [List.flatMap_singleton]
    exact written_escapeUnit c
  · next hlarge =>
    have hpoint : c ≠ CodePoint.ofChar '"' := by
      rintro rfl
      exact hlarge (by decide)
    -- neither of the surrogates is a character
    have hhigh := (written_escapeUnit (CodePoint.highOf c)).of_high (CodePoint.isHigh_highOf c)
    have hlow : '"' ∉ escapeUnit (CodePoint.lowOf c) := by
      refine (written_escapeUnit (CodePoint.lowOf c)).quote_not_mem fun heq => ?_
      exact absurd (heq ▸ CodePoint.isLow_lowOf c) (by decide)
    refine .escape hpoint (by simp [hhigh.1]) ?_
    simp [hhigh.2, hlow]

/-- What follows the last quotation mark, or everything. -/
def afterQuote : List CodePoint → List CodePoint
  | [] => []
  | c :: l =>
    if CodePoint.ofChar '"' ∈ l then afterQuote l
    else if c = CodePoint.ofChar '"' then l else c :: l

theorem afterQuote_of_not_mem {l : List CodePoint} (h : CodePoint.ofChar '"' ∉ l) :
    afterQuote l = l := by
  cases l with
  | nil => rfl
  | cons c l =>
    rw [List.mem_cons, not_or] at h
    rw [afterQuote, if_neg h.2, if_neg (Ne.symm h.1)]

theorem quote_not_mem_escaped {l : List CodePoint} (h : CodePoint.ofChar '"' ∉ l) :
    '"' ∉ l.flatMap escapePoint := by
  intro hmem
  obtain ⟨c, hc, hmem⟩ := List.mem_flatMap.mp hmem
  refine (written_escapePoint c).quote_not_mem ?_ hmem
  rintro rfl
  exact h hc

/-- The pieces of a written string: only the last one may be free of backslashes. -/
theorem splitOn_escaped (l : List CodePoint) : ∃ ps, (l.flatMap escapePoint).splitOn '"' =
    ps ++ [(afterQuote l).flatMap escapePoint] ∧ (∀ p ∈ ps, '\\' ∈ p) ∧
      (ps = [] → CodePoint.ofChar '"' ∉ l) := by
  induction l with
  | nil => exact ⟨[], rfl, by simp, by simp⟩
  | cons c l ih =>
    obtain ⟨ps, hps, hslash, hnil⟩ := ih
    by_cases hc : c = CodePoint.ofChar '"'
    · -- a quotation mark ends a piece, behind its backslash
      subst hc
      have hafter : afterQuote (CodePoint.ofChar '"' :: l) = afterQuote l := by
        rw [afterQuote, if_pos rfl]
        split
        · rfl
        · next hl => exact (afterQuote_of_not_mem hl).symm
      refine ⟨['\\'] :: ps, ?_, ?_, by simp⟩
      · have hcons : (CodePoint.ofChar '"' :: l).flatMap escapePoint =
            ['\\'] ++ '"' :: l.flatMap escapePoint := rfl
        rw [hcons, List.splitOn_append_cons_self, hps, hafter]
        rfl
      · rw [List.forall_mem_cons]
        exact ⟨by simp, hslash⟩
    · have hfree := (written_escapePoint c).quote_not_mem hc
      by_cases hl : CodePoint.ofChar '"' ∈ l
      · obtain ⟨p, qs, rfl⟩ := List.exists_cons_of_ne_nil fun h => hnil h hl
        refine ⟨(escapePoint c ++ p) :: qs, ?_, ?_, by simp⟩
        · rw [List.flatMap_cons, Pieces.splitOn_append_left hfree hps, afterQuote, if_pos hl]
          rfl
        · rw [List.forall_mem_cons] at hslash ⊢
          exact ⟨List.mem_append_right _ hslash.1, hslash.2⟩
      · have hmem : CodePoint.ofChar '"' ∉ c :: l := by
          rw [List.mem_cons, not_or]
          exact ⟨Ne.symm hc, hl⟩
        refine ⟨[], ?_, by simp, fun _ => hmem⟩
        rw [List.splitOn_eq_singleton (quote_not_mem_escaped hmem), afterQuote_of_not_mem hmem]
        rfl

/-- A text without backslashes is written in one way. -/
theorem eq_of_escaped {l : List CodePoint} {t : List Char} (hslash : '\\' ∉ t)
    (h : l.flatMap escapePoint = t) : l = t.map CodePoint.ofChar := by
  induction l generalizing t with
  | nil =>
    rw [← h]
    rfl
  | cons c l ih =>
    rw [List.flatMap_cons] at h
    rw [← h, List.mem_append, not_or] at hslash
    obtain ⟨ch, hch, hpoint⟩ := (written_escapePoint c).eq_singleton hslash.1
    rw [← h, hch, List.map_append, ← ih hslash.2 rfl, List.map_singleton, hpoint]
    rfl

/-! ## Section 4: Read texts -/

theorem silent_hexValue {c : Char} {n : ℕ} (h : hexValue c = some n) : c ≠ '"' ∧ c ≠ '\\' := by
  constructor
  · rintro rfl
    cases h
  · rintro rfl
    cases h

theorem IsNumberChar.silent {c : Char} (h : IsNumberChar c) : c ≠ '"' ∧ c ≠ '\\' := by
  rcases h with h | rfl | rfl | rfl | rfl | rfl
  · refine ⟨(number_start (.inr h)).2.2.1, ?_⟩
    rintro rfl
    cases h
  all_goals decide

theorem quotes_scanUnits {t rest : List Char} {us : List CodePoint}
    (h : scanUnits t = some (us, rest)) : quotes t = quotes rest + 1 := by
  induction t using scanUnits.induct generalizing us with
  | case1 => simp [scanUnits] at h
  | case2 tail =>
    rw [scanUnits] at h
    obtain ⟨-, rfl⟩ := Prod.mk.inj (Option.some.inj h)
    rfl
  | case3 a b c d tail ih =>
    rw [scanUnits] at h
    obtain ⟨u, hhex, h⟩ := Option.bind_eq_some_iff.mp h
    obtain ⟨⟨us', rest'⟩, htail, heq⟩ := Option.bind_eq_some_iff.mp h
    obtain ⟨-, rfl⟩ := Prod.mk.inj (Option.some.inj heq)
    -- the four digits of the escape
    obtain ⟨x, hx, hhex⟩ := Option.bind_eq_some_iff.mp hhex
    obtain ⟨y, hy, hhex⟩ := Option.bind_eq_some_iff.mp hhex
    obtain ⟨z, hz, hhex⟩ := Option.bind_eq_some_iff.mp hhex
    obtain ⟨w, hw, -⟩ := Option.bind_eq_some_iff.mp hhex
    rw [quotes, quotes_cons (silent_hexValue hx).1 (silent_hexValue hx).2,
      quotes_cons (silent_hexValue hy).1 (silent_hexValue hy).2,
      quotes_cons (silent_hexValue hz).1 (silent_hexValue hz).2,
      quotes_cons (silent_hexValue hw).1 (silent_hexValue hw).2, ih htail]
  | case4 c tail hne ih =>
    rw [scanUnits.eq_4 c tail hne] at h
    obtain ⟨u, -, h⟩ := Option.bind_eq_some_iff.mp h
    obtain ⟨⟨us', rest'⟩, htail, heq⟩ := Option.bind_eq_some_iff.mp h
    obtain ⟨-, rfl⟩ := Prod.mk.inj (Option.some.inj heq)
    rw [quotes, ih htail]
  | case5 c tail hq hu hb hc =>
    rw [scanUnits.eq_5 c tail hq hu hb, if_pos hc] at h
    cases h
  | case6 c tail hq hu hb hc ih =>
    rw [scanUnits.eq_5 c tail hq hu hb, if_neg hc] at h
    obtain ⟨⟨us', rest'⟩, htail, heq⟩ := Option.bind_eq_some_iff.mp h
    obtain ⟨-, rfl⟩ := Prod.mk.inj (Option.some.inj heq)
    -- a backslash at the end of the text would have been refused
    have hslash : c ≠ '\\' := by
      rintro rfl
      cases tail with
      | nil => simp [scanUnits] at htail
      | cons d tail => exact hb d tail rfl rfl
    rw [quotes_cons hq hslash, ih htail]

section load

variable [FloatFormat F]

/-- The reader has passed two quotation marks for each string of the value. -/
def Pays (t : List Char) (n : ℕ) (rest : List Char) : Prop := 2 * n + quotes rest ≤ quotes t

theorem pays_scanAtom {t rest : List Char} {v : Val F} (h : scanAtom t = some (v, rest)) :
    Pays t (strings v) rest := by
  have hconst : ∀ {l u : List Char} {w : Val F}, Silent l → strings w = 0 →
      some (w, u) = some (v, rest) → Pays (l ++ u) (strings v) rest := by
    intro l u w hl hw heq
    obtain ⟨rfl, rfl⟩ := Prod.mk.inj (Option.some.inj heq)
    rw [Pays, hw, quotes_silent_append hl]
    omega
  unfold scanAtom at h
  split at h
  · next whole frac u hnum =>
    obtain ⟨w, hw, heq⟩ := Option.map_eq_some_iff.mp h
    obtain ⟨ds, ⟨ht, hds⟩, -⟩ := splits_scanNumber hnum
    have hsilent : Silent ds := fun c hc => (hds c hc).silent
    have hzero : strings w = 0 := by
      unfold numberValue at hw
      split at hw
      · rw [← Option.some.inj hw, strings]
      · obtain ⟨x, -, rfl⟩ := Option.map_eq_some_iff.mp hw
        rw [strings]
    rw [ht]
    exact hconst hsilent hzero (congrArg some heq)
  · split at h
    · exact hconst (l := ['n', 'u', 'l', 'l']) (by decide) rfl h
    · exact hconst (l := ['t', 'r', 'u', 'e']) (by decide) rfl h
    · exact hconst (l := ['f', 'a', 'l', 's', 'e']) (by decide) rfl h
    · exact hconst (l := ['N', 'a', 'N']) (by decide) rfl h
    · exact hconst (l := ['I', 'n', 'f', 'i', 'n', 'i', 't', 'y']) (by decide) rfl h
    · exact hconst (l := ['-', 'I', 'n', 'f', 'i', 'n', 'i', 't', 'y']) (by decide) rfl h
    · cases h

/-- The three scanners at one fuel. -/
structure ScansPay (F : Type) [FloatFormat F] (fuel : ℕ) : Prop where
  once : ∀ t v rest, scanOnce (F := F) fuel t = some (v, rest) → Pays t (strings v) rest
  items : ∀ t items rest, scanItems (F := F) fuel t = some (items, rest) →
    Pays t (items.map fun p => 1 + strings p.2).sum rest
  elements : ∀ t xs rest, scanElements (F := F) fuel t = some (xs, rest) →
    Pays t (xs.map strings).sum rest

theorem scansPay_once {fuel : ℕ} (ih : ScansPay F fuel) {t rest : List Char} {v : Val F}
    (h : scanOnce (fuel + 1) t = some (v, rest)) : Pays t (strings v) rest := by
  rw [scanOnce.eq_def] at h
  dsimp only at h
  split at h
  · next tail =>
    obtain ⟨⟨us, u⟩, hus, heq⟩ := Option.bind_eq_some_iff.mp h
    obtain ⟨rfl, rfl⟩ := Prod.mk.inj (Option.some.inj heq)
    rw [Pays, quotes, quotes_scanUnits hus, strings]
    dsimp only
    omega
  · next tail =>
    have htail : quotes ('{' :: tail) = quotes tail := quotes_cons (by decide) (by decide) tail
    split at h
    · next hskip =>
      obtain ⟨rfl, rfl⟩ := Prod.mk.inj (Option.some.inj h)
      rw [Pays, htail, quotes_of_skipSpace hskip (by decide), strings, stringsItems]
      omega
    · next hskip =>
      obtain ⟨⟨items, u⟩, hitems, heq⟩ := Option.bind_eq_some_iff.mp h
      obtain ⟨rfl, rfl⟩ := Prod.mk.inj (Option.some.inj heq)
      have hpays := ih.items _ _ _ hitems
      rw [Pays, quotes_skipSpace] at hpays
      rw [Pays, htail]
      have hle := strings_ofPairs_le items
      dsimp only
      omega
  · next tail =>
    have htail : quotes ('[' :: tail) = quotes tail := quotes_cons (by decide) (by decide) tail
    split at h
    · next hskip =>
      obtain ⟨rfl, rfl⟩ := Prod.mk.inj (Option.some.inj h)
      rw [Pays, htail, quotes_of_skipSpace hskip (by decide), strings, stringsList]
      omega
    · next hskip =>
      obtain ⟨⟨xs, u⟩, hxs, heq⟩ := Option.bind_eq_some_iff.mp h
      obtain ⟨rfl, rfl⟩ := Prod.mk.inj (Option.some.inj heq)
      have hpays := ih.elements _ _ _ hxs
      rw [Pays, quotes_skipSpace] at hpays
      rwa [Pays, htail, strings, stringsList_eq_sum]
  · exact pays_scanAtom h

theorem scansPay_items {fuel : ℕ} (ih : ScansPay F fuel) {t rest : List Char}
    {items : List (Key × Val F)} (h : scanItems (fuel + 1) t = some (items, rest)) :
    Pays t (items.map fun p => 1 + strings p.2).sum rest := by
  rw [scanItems.eq_def] at h
  dsimp only at h
  split at h
  · next tail =>
    obtain ⟨⟨us, u⟩, hus, h⟩ := Option.bind_eq_some_iff.mp h
    dsimp only at h
    have hkey : quotes ('"' :: tail) = quotes u + 2 := by rw [quotes, quotes_scanUnits hus]
    split at h
    · next w hw =>
      obtain ⟨⟨v, x⟩, hv, h⟩ := Option.bind_eq_some_iff.mp h
      dsimp only at h
      have hvalue := ih.once _ _ _ hv
      rw [Pays, quotes_skipSpace, ← quotes_of_skipSpace hw (by decide)] at hvalue
      split at h
      · next y hy =>
        obtain ⟨⟨more, z⟩, hmore, heq⟩ := Option.bind_eq_some_iff.mp h
        obtain ⟨rfl, rfl⟩ := Prod.mk.inj (Option.some.inj heq)
        have hrest := ih.items _ _ _ hmore
        rw [Pays, quotes_skipSpace, ← quotes_of_skipSpace hy (by decide)] at hrest
        rw [Pays, hkey, List.map_cons, List.sum_cons]
        dsimp only
        omega
      · next y hy =>
        obtain ⟨rfl, rfl⟩ := Prod.mk.inj (Option.some.inj h)
        rw [quotes_of_skipSpace hy (by decide)] at hvalue
        rw [Pays, hkey, List.map_singleton, List.sum_singleton]
        dsimp only
        omega
      · cases h
    · cases h
  · cases h

theorem scansPay_elements {fuel : ℕ} (ih : ScansPay F fuel) {t rest : List Char}
    {xs : List (Val F)} (h : scanElements (fuel + 1) t = some (xs, rest)) :
    Pays t (xs.map strings).sum rest := by
  rw [scanElements] at h
  obtain ⟨⟨v, x⟩, hv, h⟩ := Option.bind_eq_some_iff.mp h
  dsimp only at h
  have hvalue := ih.once _ _ _ hv
  rw [Pays] at hvalue
  split at h
  · next y hy =>
    obtain ⟨⟨more, z⟩, hmore, heq⟩ := Option.bind_eq_some_iff.mp h
    obtain ⟨rfl, rfl⟩ := Prod.mk.inj (Option.some.inj heq)
    have hrest := ih.elements _ _ _ hmore
    rw [Pays, quotes_skipSpace, ← quotes_of_skipSpace hy (by decide)] at hrest
    rw [Pays, List.map_cons, List.sum_cons]
    dsimp only
    omega
  · next y hy =>
    obtain ⟨rfl, rfl⟩ := Prod.mk.inj (Option.some.inj h)
    rw [quotes_of_skipSpace hy (by decide)] at hvalue
    rwa [Pays, List.map_singleton, List.sum_singleton]
  · cases h

theorem scansPay (fuel : ℕ) : ScansPay F fuel := by
  induction fuel with
  | zero =>
    exact ⟨fun _ _ _ h => by simp [scanOnce] at h, fun _ _ _ h => by simp [scanItems] at h,
      fun _ _ _ h => by simp [scanElements] at h⟩
  | succ fuel ih =>
    exact ⟨fun _ _ _ h => scansPay_once ih h, fun _ _ _ h => scansPay_items ih h,
      fun _ _ _ h => scansPay_elements ih h⟩

/-- A text that reads as a value has two quotation marks for each string. -/
theorem strings_le_quotes {t : List Char} {v : Val F} (h : load t = some v) :
    2 * strings v ≤ quotes t := by
  unfold load at h
  split at h
  · cases h
  · obtain ⟨⟨w, rest⟩, hscan, h⟩ := Option.bind_eq_some_iff.mp h
    have hpays := (scansPay _).once _ _ _ hscan
    obtain ⟨-, heq⟩ := Option.ite_none_right_eq_some.mp h
    obtain rfl := Option.some.inj heq
    rw [Pays, quotes_skipSpace] at hpays
    omega

end load

end Json
