import Catbench.Framework.Json.Documents

/-! # How Python prints a value

    `repr` of the values that the `json` module reads.  A string is printed
    between quotes, and what Python does not count as printable is printed as an
    escape sequence; which characters are printable is a table of the Unicode
    version, so it is a parameter.

    * **Strings**: no escape sequence has a character that is neither a letter,
      a digit nor a backslash (`not_mem_escape`), and a string is printed as it is
      exactly if printing it does not add a backslash (`count_escape`).
    * **Numbers**: they are printed without blanks and marks
      (`isReprChar_valRepr`).
-/

namespace Json

/-- The character of a code point, if it is no surrogate. -/
def CodePoint.toChar? (c : CodePoint) : Option Char :=
  if (Char.ofNat c.val).toNat = c.val then some (Char.ofNat c.val) else none

theorem CodePoint.ofChar_of_toChar? {c : CodePoint} {ch : Char} (h : c.toChar? = some ch) :
    CodePoint.ofChar ch = c := by
  obtain ⟨heq, h⟩ := Option.ite_none_right_eq_some.mp h
  rw [← Option.some.inj h]
  exact Fin.ext heq

theorem CodePoint.ofChar_injective : Function.Injective CodePoint.ofChar := by
  intro a b h
  exact Char.toNat_inj.mp (congrArg (fun c : CodePoint => c.val) h)

/-! ## Section 1: `repr` -/

/-- The last `digits` digits of `n` to the base 16. -/
def hexText : ℕ → ℕ → List Char
  | 0, _ => []
  | digits + 1, n => hexText digits (n / 16) ++ [hexDigit n]

section repr
variable (printable : Char → Bool)

/-- A code point between quotes. -/
def escape (quote : Char) (c : CodePoint) : List Char :=
  match c.toChar? with
  | none => '\\' :: 'u' :: hexText 4 c.val
  | some ch =>
    if ch = quote ∨ ch = '\\' then ['\\', ch]
    else if ch = '\t' then ['\\', 't']
    else if ch = '\n' then ['\\', 'n']
    else if ch = '\r' then ['\\', 'r']
    else if 0x20 ≤ c.val ∧ c.val < 0x7F then [ch]
    else if 0x7F < c.val ∧ printable ch then [ch]
    else if c.val ≤ 0xFF then '\\' :: 'x' :: hexText 2 c.val
    else if c.val ≤ 0xFFFF then '\\' :: 'u' :: hexText 4 c.val
    else '\\' :: 'U' :: hexText 8 c.val

/-- Double quotes only if there are single quotes and no double ones in the string. -/
def quoteOf (s : Str) : Char :=
  if CodePoint.ofChar '\'' ∈ s.points ∧ CodePoint.ofChar '"' ∉ s.points then '"' else '\''

/-- What stands between the quotes. -/
def strBody (s : Str) : List Char := s.points.flatMap (escape printable (quoteOf s))

def strRepr (s : Str) : List Char := quoteOf s :: strBody printable s ++ [quoteOf s]

def Key.repr : Key → List Char
  | .str s => strRepr printable s
  | .int i => intText i

variable {F : Type} [FloatFormat F]

def floatRepr : PyFloat F → List Char
  | .finite x => FloatFormat.repr x
  | .nan => ['n', 'a', 'n']
  | .inf => ['i', 'n', 'f']
  | .neginf => ['-', 'i', 'n', 'f']

mutual

def valRepr : Val F → List Char
  | .null => ['N', 'o', 'n', 'e']
  | .bool true => ['T', 'r', 'u', 'e']
  | .bool false => ['F', 'a', 'l', 's', 'e']
  | .int z => intText z
  | .float x => floatRepr x
  | .str s => strRepr printable s
  | .list xs => '[' :: ([',', ' '].intercalate (reprList xs) ++ [']'])
  | .dict d => '{' :: ([',', ' '].intercalate (reprItems d) ++ ['}'])

def reprList : List (Val F) → List (List Char)
  | [] => []
  | x :: xs => valRepr x :: reprList xs

def reprItems : List (Key × Val F) → List (List Char)
  | [] => []
  | (k, v) :: d => (k.repr printable ++ ':' :: ' ' :: valRepr v) :: reprItems d

end

theorem reprList_eq_map (xs : List (Val F)) :
    reprList printable xs = xs.map (valRepr printable) := by
  induction xs with
  | nil => rfl
  | cons x xs ih => rw [reprList, ih, List.map_cons]

theorem reprItems_eq_map (d : List (Key × Val F)) : reprItems printable d =
    d.map fun p => p.1.repr printable ++ ':' :: ' ' :: valRepr printable p.2 := by
  induction d with
  | nil => rfl
  | cons p d ih => rw [reprItems, ih, List.map_cons]

end repr

/-! ## Section 2: Strings -/

section strings
variable {printable : Char → Bool} {quote ch : Char} {c : CodePoint} {s : Str}

theorem isAlphanum_hexDigit (n : ℕ) : (hexDigit n).isAlphanum = true := by
  have hall : ∀ d < 16, (Nat.digitChar d).isAlphanum = true := by decide
  exact hall _ (Nat.mod_lt n (by decide))

theorem isAlphanum_hexText {digits n : ℕ} (h : ch ∈ hexText digits n) : ch.isAlphanum = true := by
  induction digits generalizing n with
  | zero => cases h
  | succ digits ih =>
    rcases List.mem_append.mp h with h | h
    · exact ih h
    · exact List.mem_singleton.mp h ▸ isAlphanum_hexDigit n

/-- Other characters than letters and digits are in no escape sequence. -/
theorem not_mem_escape (hslash : ch ≠ '\\') (halnum : ch.isAlphanum = false)
    (hc : CodePoint.ofChar ch ≠ c) : ch ∉ escape printable quote c := by
  have hhex : ∀ {mark : Char} {digits n : ℕ}, mark.isAlphanum = true →
      ch ∉ '\\' :: mark :: hexText digits n := by
    intro mark digits n hmark hmem
    rcases List.mem_cons.mp hmem with rfl | hmem
    · exact hslash rfl
    · rcases List.mem_cons.mp hmem with rfl | hmem
      · simp [hmark] at halnum
      · simp [isAlphanum_hexText hmem] at halnum
  have hpair : ∀ {mark : Char}, mark ≠ ch → ch ∉ ['\\', mark] := by
    intro mark hmark hmem
    rcases List.mem_cons.mp hmem with rfl | hmem
    · exact hslash rfl
    · exact hmark (List.mem_singleton.mp hmem).symm
  have hletter : ∀ {mark : Char}, mark.isAlphanum = true → mark ≠ ch := by
    rintro mark hmark rfl
    simp [hmark] at halnum
  unfold escape
  split
  · exact hhex (by decide)
  · next d hd =>
    have hne : d ≠ ch := by
      rintro rfl
      exact hc (CodePoint.ofChar_of_toChar? hd)
    have hsingle : ch ∉ [d] := by simpa using hne.symm
    split_ifs
    · exact hpair hne
    · exact hpair (hletter (by decide))
    · exact hpair (hletter (by decide))
    · exact hpair (hletter (by decide))
    · exact hsingle
    · exact hsingle
    · exact hhex (by decide)
    · exact hhex (by decide)
    · exact hhex (by decide)

theorem escape_ne_nil (printable : Char → Bool) (quote : Char) (c : CodePoint) :
    escape printable quote c ≠ [] := by
  unfold escape
  split
  · simp
  · split_ifs <;> simp

theorem strBody_eq_nil : strBody printable s = [] ↔ s.points = [] := by
  rw [strBody, List.flatMap_eq_nil_iff]
  constructor
  · intro h
    exact List.eq_nil_iff_forall_not_mem.mpr fun c hc => escape_ne_nil _ _ c (h c hc)
  · intro h
    simp [h]

/-- The line breaks of a string are escaped. -/
theorem newline_not_mem_escape (hquote : quote ≠ '\n') : '\n' ∉ escape printable quote c := by
  by_cases hc : CodePoint.ofChar '\n' = c
  · subst hc
    have hchar : (CodePoint.ofChar '\n').toChar? = some '\n' := by decide
    unfold escape
    simp [hchar, hquote.symm]
  · exact not_mem_escape (by decide) (by decide) hc

/-- The code point is printed as it is between the other quotes. -/
def Verbatim (printable : Char → Bool) (c : CodePoint) : Prop :=
  c ≠ CodePoint.ofChar '\\' ∧ (0x20 ≤ c.val ∧ c.val < 0x7F ∨
    0x7F < c.val ∧ (c.toChar?.any printable) = true)

theorem escape_verbatim (h : Verbatim printable c) (hc : c ≠ CodePoint.ofChar quote) :
    ∃ ch, escape printable quote c = [ch] ∧ CodePoint.ofChar ch = c := by
  obtain ⟨hslash, hrange⟩ := h
  have hchar : ∃ ch, c.toChar? = some ch := by
    rcases hrange with ⟨hlow, hhigh⟩ | ⟨-, hany⟩
    · have hascii : ∀ n < 0x7F, (Char.ofNat n).toNat = n := by decide
      exact ⟨_, if_pos (hascii c.val hhigh)⟩
    · obtain ⟨ch, hch, -⟩ := (Option.any_eq_true _ _).mp hany
      exact ⟨ch, hch⟩
  obtain ⟨ch, hch⟩ := hchar
  have hof := CodePoint.ofChar_of_toChar? hch
  refine ⟨ch, ?_, hof⟩
  have hquote : ¬(ch = quote ∨ ch = '\\') := by
    rintro (rfl | rfl)
    · exact hc hof.symm
    · exact hslash hof.symm
  have hval : c.val = ch.toNat := by rw [← hof]; rfl
  have hcontrol : ch ≠ '\t' ∧ ch ≠ '\n' ∧ ch ≠ '\r' := by
    refine ⟨?_, ?_, ?_⟩ <;> rintro rfl <;> simp [hval] at hrange
  unfold escape
  simp only [hch, if_neg hquote, if_neg hcontrol.1, if_neg hcontrol.2.1, if_neg hcontrol.2.2]
  rcases hrange with hascii | ⟨hhigh, hany⟩
  · rw [if_pos hascii]
  · rw [hch, Option.any_some] at hany
    rw [if_neg (by omega), if_pos ⟨hhigh, hany⟩]

variable (quote) in
/-- Anything else is printed with more backslashes than it has. -/
theorem count_escape_of_not_verbatim (h : ¬Verbatim printable c) :
    [c].count (CodePoint.ofChar '\\') < (escape printable quote c).count '\\' := by
  have hpos : ∀ {t : List Char}, c ≠ CodePoint.ofChar '\\' →
      [c].count (CodePoint.ofChar '\\') < ('\\' :: t).count '\\' := by
    intro t hc
    rw [List.count_cons_self, List.count_cons_of_ne hc, List.count_nil]
    omega
  unfold escape
  split
  · next hnone =>
    refine hpos ?_
    rintro rfl
    exact absurd hnone (by decide)
  · next ch hch =>
    have hof := CodePoint.ofChar_of_toChar? hch
    by_cases hslash : ch = '\\'
    · subst hslash
      rw [if_pos (.inr rfl), ← hof]
      decide
    · have hc : c ≠ CodePoint.ofChar '\\' := fun heq =>
        hslash (CodePoint.ofChar_injective (hof.trans heq))
      split_ifs with h₁ h₂ h₃ h₄ h₅ h₆
      · exact hpos hc
      · exact hpos hc
      · exact hpos hc
      · exact hpos hc
      · exact absurd ⟨hc, .inl h₅⟩ h
      · refine absurd ⟨hc, .inr ⟨h₆.1, ?_⟩⟩ h
        rw [hch]
        exact h₆.2
      · exact hpos hc
      · exact hpos hc
      · exact hpos hc

theorem count_escape_le (printable : Char → Bool) (quote : Char) (c : CodePoint) :
    [c].count (CodePoint.ofChar '\\') ≤ (escape printable quote c).count '\\' := by
  by_cases h : Verbatim printable c
  · rw [List.count_eq_zero.mpr (by simpa using h.1.symm)]
    exact Nat.zero_le _
  · exact (count_escape_of_not_verbatim quote h).le

/-- Printing a string does not lose backslashes, and it adds some unless the string
    is printed as it is. -/
theorem count_escapes (l : List CodePoint) :
    l.count (CodePoint.ofChar '\\') ≤ (l.flatMap (escape printable quote)).count '\\' ∧
      ((∃ c ∈ l, ¬Verbatim printable c) →
        l.count (CodePoint.ofChar '\\') < (l.flatMap (escape printable quote)).count '\\') := by
  induction l with
  | nil => simp
  | cons c l ih =>
    have hcons : (c :: l).count (CodePoint.ofChar '\\') =
        [c].count (CodePoint.ofChar '\\') + l.count (CodePoint.ofChar '\\') := by
      rw [← List.count_append, List.singleton_append]
    have hle := count_escape_le printable quote c
    rw [hcons, List.flatMap_cons, List.count_append]
    refine ⟨by omega, ?_⟩
    rintro ⟨d, hd, hnot⟩
    rcases List.mem_cons.mp hd with rfl | hd
    · have hlt := count_escape_of_not_verbatim quote hnot
      omega
    · have hlt := ih.2 ⟨d, hd, hnot⟩
      omega

theorem escapes_verbatim {l : List CodePoint} (h : ∀ c ∈ l, Verbatim printable c)
    (hquote : CodePoint.ofChar quote ∉ l) :
    (l.flatMap (escape printable quote)).map CodePoint.ofChar = l := by
  induction l with
  | nil => rfl
  | cons c l ih =>
    rw [List.forall_mem_cons] at h
    rw [List.mem_cons, not_or] at hquote
    obtain ⟨ch, hch, hof⟩ := escape_verbatim h.1 (Ne.symm hquote.1)
    rw [List.flatMap_cons, hch, List.singleton_append, List.map_cons, hof, ih h.2 hquote.2]

end strings

/-! ## Section 3: Numbers -/

/-- The characters in which numbers are printed. -/
def IsReprChar (c : Char) : Prop := c.isAlphanum = true ∨ c = '-' ∨ c = '+' ∨ c = '.'

theorem IsNumberChar.isReprChar {c : Char} (h : IsNumberChar c) : IsReprChar c := by
  rcases h with h | rfl | rfl | rfl | rfl | rfl
  · exact .inl (by simp [Char.isAlphanum, h])
  all_goals simp [IsReprChar]

section numbers
variable {F : Type} [FloatFormat F]

/-- An integer or a float. -/
def IsNumber : Val F → Prop
  | .int _ | .float _ => True
  | _ => False

instance : DecidablePred (IsNumber (F := F))
  | .int _ | .float _ => isTrue trivial
  | .null | .bool _ | .str _ | .list _ | .dict _ => isFalse id

theorem isReprChar_valRepr {printable : Char → Bool} {v : Val F} (h : IsNumber v) :
    ∀ c ∈ valRepr printable v, IsReprChar c := by
  have hlexeme : ∀ {minus whole frac exp : List Char}, Lexeme minus whole frac exp →
      ∀ c ∈ minus ++ whole ++ frac ++ exp, IsReprChar c :=
    fun hl c hc => (hl.isNumberChar c hc).isReprChar
  cases v with
  | int z =>
    obtain ⟨minus, whole, hl, heq⟩ := lexeme_intText z
    rw [valRepr, heq]
    simpa using hlexeme hl
  | float x =>
    rw [valRepr]
    cases x with
    | finite x =>
      obtain ⟨minus, whole, frac, exp, hl, -, heq⟩ := FloatFormat.isFloatText_repr x
      rw [floatRepr, heq]
      exact hlexeme hl
    | nan | inf | neginf => simp [floatRepr, IsReprChar]
  | null | bool | str | list | dict => cases h

/-- A number starts with a digit or with one of the letters of `nan` and `inf`, after
    a minus perhaps. -/
theorem valRepr_number_start (printable : Char → Bool) {v : Val F} (h : IsNumber v) :
    ∃ c t, (valRepr printable v = c :: t ∨ valRepr printable v = '-' :: c :: t) ∧
      (c.isDigit = true ∨ c = 'n' ∧ t = ['a', 'n'] ∨ c = 'i') := by
  have hlexeme : ∀ {minus whole frac exp : List Char}, Lexeme minus whole frac exp →
      ∃ c t, (minus ++ whole ++ frac ++ exp = c :: t ∨
        minus ++ whole ++ frac ++ exp = '-' :: c :: t) ∧ c.isDigit = true := by
    intro minus whole frac exp hl
    obtain ⟨hds, hne⟩ := hl.isDigits_whole
    obtain ⟨c, ds, rfl⟩ := List.exists_cons_of_ne_nil hne
    have hc := hds c List.mem_cons_self
    rcases hl.minus with rfl | rfl
    · exact ⟨c, ds ++ frac ++ exp, .inl (by simp), hc⟩
    · exact ⟨c, ds ++ frac ++ exp, .inr (by simp), hc⟩
  cases v with
  | int z =>
    obtain ⟨minus, whole, hl, heq⟩ := lexeme_intText z
    obtain ⟨c, t, ht, hc⟩ := hlexeme hl
    rw [valRepr, heq]
    exact ⟨c, t, by simpa using ht, .inl hc⟩
  | float x =>
    rw [valRepr]
    cases x with
    | finite x =>
      obtain ⟨minus, whole, frac, exp, hl, -, heq⟩ := FloatFormat.isFloatText_repr x
      obtain ⟨c, t, ht, hc⟩ := hlexeme hl
      rw [floatRepr, heq]
      exact ⟨c, t, ht, .inl hc⟩
    | nan => exact ⟨'n', ['a', 'n'], .inl rfl, .inr (.inl ⟨rfl, rfl⟩)⟩
    | inf => exact ⟨'i', ['n', 'f'], .inl rfl, .inr (.inr rfl)⟩
    | neginf => exact ⟨'i', ['n', 'f'], .inr rfl, .inr (.inr rfl)⟩
  | null | bool | str | list | dict => cases h

end numbers

end Json
