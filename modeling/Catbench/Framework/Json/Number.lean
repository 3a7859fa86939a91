import Mathlib.Data.List.TakeWhile
import Mathlib.Data.Int.Basic
import Mathlib.Tactic.IntervalCases

/-! # Numbers of a JSON text

    The reader takes the longest match of

    `-? (0 | [1-9][0-9]*) (. [0-9]+)? ([eE] [-+]? [0-9]+)?`

    and makes an integer of it when the last two parts are absent, else a
    floating-point number.  Floating point itself is a parameter: what matters
    here is that the text of a finite number is one of these lexemes and reads
    back as the same number.
-/

namespace Json

/-! ## Section 1: Reader -/

def scanWhole : List Char → Option (List Char × List Char)
  | [] => none
  | c :: rest =>
    if c = '0' then some (['0'], rest)
    else if c.isDigit then some ((c :: rest).takeWhile Char.isDigit, (c :: rest).dropWhile Char.isDigit)
    else none

/-- A point counts only with a digit after it. -/
def scanFrac : List Char → List Char × List Char
  | '.' :: rest =>
    if (rest.takeWhile Char.isDigit).isEmpty then ([], '.' :: rest)
    else ('.' :: rest.takeWhile Char.isDigit, rest.dropWhile Char.isDigit)
  | t => ([], t)

/-- An optional sign. -/
def scanSign : List Char → List Char × List Char
  | '+' :: rest => (['+'], rest)
  | '-' :: rest => (['-'], rest)
  | t => ([], t)

/-- An exponent mark counts only with a digit after it and its sign. -/
def scanExp : List Char → List Char × List Char
  | [] => ([], [])
  | c :: rest =>
    if c = 'e' ∨ c = 'E' then
      if ((scanSign rest).2.takeWhile Char.isDigit).isEmpty then ([], c :: rest)
      else (c :: (scanSign rest).1 ++ (scanSign rest).2.takeWhile Char.isDigit,
        (scanSign rest).2.dropWhile Char.isDigit)
    else ([], c :: rest)

/-- The sign of a number: only a minus. -/
def scanMinus : List Char → List Char × List Char
  | '-' :: rest => (['-'], rest)
  | t => ([], t)

/-- The integer part with its sign, the rest of the number, and what follows. -/
def scanNumber (t : List Char) : Option (List Char × List Char × List Char) := do
  let (whole, t₁) ← scanWhole (scanMinus t).2
  let (frac, t₂) := scanFrac t₁
  let (exp, t₃) := scanExp t₂
  some ((scanMinus t).1 ++ whole, frac ++ exp, t₃)

/-- The value of an integer lexeme. -/
def intValue : List Char → ℤ
  | '-' :: digits => -(Nat.ofDigitChars 10 digits 0 : ℤ)
  | digits => Nat.ofDigitChars 10 digits 0

/-! ## Section 2: Writer -/

/-- `int.__repr__`. -/
def intText (z : ℤ) : List Char :=
  if z < 0 then '-' :: Nat.toDigits 10 z.natAbs else Nat.toDigits 10 z.natAbs

/-! ## Section 3: Lexemes -/

def IsDigits (t : List Char) : Prop := ∀ c ∈ t, c.isDigit = true

/-- What follows a number does not continue it. -/
def EndsNumber (t : List Char) : Prop :=
  ∀ c ∈ t.head?, c.isDigit = false ∧ c ≠ '.' ∧ c ≠ 'e' ∧ c ≠ 'E'

/-- The parts of a number. -/
structure Lexeme (minus whole frac exp : List Char) : Prop where
  minus : minus = [] ∨ minus = ['-']
  whole : whole = ['0'] ∨ ∃ c ds, whole = c :: ds ∧ c ≠ '0' ∧ IsDigits (c :: ds)
  frac : frac = [] ∨ ∃ ds, frac = '.' :: ds ∧ ds ≠ [] ∧ IsDigits ds
  exp : exp = [] ∨ ∃ c sign ds, exp = c :: sign ++ ds ∧ (c = 'e' ∨ c = 'E') ∧
    (sign = [] ∨ sign = ['+'] ∨ sign = ['-']) ∧ ds ≠ [] ∧ IsDigits ds

/-- The text of a number with a fraction or an exponent. -/
def IsFloatText (t : List Char) : Prop :=
  ∃ minus whole frac exp, Lexeme minus whole frac exp ∧ frac ++ exp ≠ [] ∧
    t = minus ++ whole ++ frac ++ exp

theorem IsDigits.takeWhile {ds rest : List Char} (hds : IsDigits ds)
    (hrest : ∀ c ∈ rest.head?, c.isDigit = false) :
    (ds ++ rest).takeWhile Char.isDigit = ds ∧ (ds ++ rest).dropWhile Char.isDigit = rest := by
  have hnil : rest.takeWhile Char.isDigit = [] ∧ rest.dropWhile Char.isDigit = rest := by
    cases rest with
    | nil => exact ⟨rfl, rfl⟩
    | cons c rest => simp [hrest c rfl]
  rw [List.takeWhile_append_of_pos hds, List.dropWhile_append_of_pos hds, hnil.1, hnil.2]
  simp

theorem isDigit_zero : Char.isDigit '0' = true := by decide

theorem Lexeme.isDigits_whole {minus whole frac exp : List Char}
    (h : Lexeme minus whole frac exp) : IsDigits whole ∧ whole ≠ [] := by
  rcases h.whole with rfl | ⟨c, ds, rfl, -, hds⟩
  · exact ⟨by simp [IsDigits, isDigit_zero], by simp⟩
  · exact ⟨hds, by simp⟩

/-- A lexeme starts with a minus or a digit. -/
theorem Lexeme.head {minus whole frac exp : List Char} (h : Lexeme minus whole frac exp) :
    ∃ c t, minus ++ whole = c :: t ∧ (c = '-' ∨ c.isDigit = true) := by
  obtain ⟨hds, hne⟩ := h.isDigits_whole
  obtain ⟨c, ds, rfl⟩ := List.exists_cons_of_ne_nil hne
  rcases h.minus with rfl | rfl
  · exact ⟨c, ds, rfl, .inr (hds c (by simp))⟩
  · exact ⟨'-', c :: ds, rfl, .inl rfl⟩

section scan

variable {minus whole frac exp rest : List Char}

theorem scanMinus_lexeme (h : Lexeme minus whole frac exp) (t : List Char) :
    scanMinus (minus ++ (whole ++ t)) = (minus, whole ++ t) := by
  obtain ⟨hds, hne⟩ := h.isDigits_whole
  obtain ⟨c, ds, rfl⟩ := List.exists_cons_of_ne_nil hne
  have hc : c ≠ '-' := by
    rintro rfl
    exact absurd (hds '-' (by simp)) (by decide)
  rcases h.minus with rfl | rfl
  · simp only [List.nil_append, List.cons_append]
    unfold scanMinus
    split
    · next heq => exact absurd (List.cons.inj heq).1 hc
    · rfl
  · rfl

theorem scanWhole_lexeme (h : Lexeme minus whole frac exp)
    (hrest : ∀ c ∈ rest.head?, c.isDigit = false) :
    scanWhole (whole ++ rest) = some (whole, rest) := by
  rcases h.whole with rfl | ⟨c, ds, rfl, hc, hds⟩
  · rfl
  · have hspan := hds.takeWhile hrest
    simp only [List.cons_append] at hspan ⊢
    rw [scanWhole, if_neg hc, if_pos (hds c (by simp)), hspan.1, hspan.2]

theorem scanFrac_lexeme (h : Lexeme minus whole frac exp)
    (hrest : ∀ c ∈ rest.head?, c.isDigit = false ∧ c ≠ '.') :
    scanFrac (frac ++ rest) = (frac, rest) := by
  rcases h.frac with rfl | ⟨ds, rfl, hne, hds⟩
  · rw [List.nil_append]
    unfold scanFrac
    split
    · exact absurd rfl (hrest '.' (by simp)).2
    · rfl
  · obtain ⟨htake, hdrop⟩ := hds.takeWhile (fun c hc => (hrest c hc).1)
    rw [List.cons_append, scanFrac, htake, hdrop, if_neg (by simpa using hne)]

theorem scanExp_lexeme (h : Lexeme minus whole frac exp) (hrest : EndsNumber rest) :
    scanExp (exp ++ rest) = (exp, rest) := by
  rcases h.exp with rfl | ⟨c, sign, ds, rfl, hc, hsign, hne, hds⟩
  · rw [List.nil_append]
    cases rest with
    | nil => rfl
    | cons c rest =>
      have hc := hrest c rfl
      rw [scanExp, if_neg (by simp [hc])]
  · have hscan : scanSign (sign ++ (ds ++ rest)) = (sign, ds ++ rest) := by
      obtain ⟨d, ds', rfl⟩ := List.exists_cons_of_ne_nil hne
      have hd := hds d (by simp)
      rcases hsign with rfl | rfl | rfl
      · unfold scanSign
        split
        · next heq =>
          rw [List.nil_append, List.cons_append] at heq
          rw [(List.cons.inj heq).1] at hd
          exact absurd hd (by decide)
        · next heq =>
          rw [List.nil_append, List.cons_append] at heq
          rw [(List.cons.inj heq).1] at hd
          exact absurd hd (by decide)
        · rfl
      · rfl
      · rfl
    obtain ⟨htake, hdrop⟩ := hds.takeWhile (fun c hc => (hrest c hc).1)
    rw [List.append_assoc, List.cons_append, scanExp, if_pos hc, hscan]
    simp only [htake, hdrop]
    rw [if_neg (by simpa using hne)]

/-- The reader takes a lexeme as a whole. -/
theorem scanNumber_lexeme (h : Lexeme minus whole frac exp) (hrest : EndsNumber rest) :
    scanNumber (minus ++ whole ++ frac ++ exp ++ rest) =
      some (minus ++ whole, frac ++ exp, rest) := by
  have hexp : ∀ c ∈ (exp ++ rest).head?, c.isDigit = false ∧ c ≠ '.' := by
    rcases h.exp with rfl | ⟨c, sign, ds, rfl, hc, -⟩
    · exact fun c hc => ⟨(hrest c hc).1, (hrest c hc).2.1⟩
    · rcases hc with rfl | rfl <;> simp
  have hfrac : ∀ c ∈ (frac ++ (exp ++ rest)).head?, c.isDigit = false := by
    rcases h.frac with rfl | ⟨ds, rfl, -⟩
    · exact fun c hc => (hexp c hc).1
    · simp
  simp only [List.append_assoc]
  unfold scanNumber
  rw [scanMinus_lexeme h, scanWhole_lexeme h hfrac]
  simp only [Option.bind_eq_bind, Option.bind_some, scanFrac_lexeme h hexp,
    scanExp_lexeme h hrest]

end scan

/-! ## Section 4: Integers -/

theorem isDigits_toDigits (n : ℕ) : IsDigits (Nat.toDigits 10 n) := fun _ hc =>
  Nat.isDigit_of_mem_toDigits (by decide) (by decide) hc

/-- The decimal text of a positive number does not start with a zero. -/
theorem head?_toDigits {n : ℕ} (hn : 0 < n) : (Nat.toDigits 10 n).head? ≠ some '0' := by
  induction n using Nat.strong_induction_on with
  | _ n ih =>
    by_cases hlt : n < 10
    · rw [Nat.toDigits_of_lt_base hlt]
      interval_cases n <;> decide
    · rw [Nat.toDigits_of_base_le (by decide) (by omega), List.head?_append]
      have hdiv := ih (n / 10) (by omega) (by omega)
      cases hd : (Nat.toDigits 10 (n / 10)).head? with
      | none => simp [Nat.toDigits_ne_nil] at hd
      | some c => rw [hd] at hdiv; simpa using hdiv

theorem whole_toDigits (n : ℕ) : Nat.toDigits 10 n = ['0'] ∨
    ∃ c ds, Nat.toDigits 10 n = c :: ds ∧ c ≠ '0' ∧ IsDigits (c :: ds) := by
  by_cases hn : n = 0
  · exact .inl (by rw [hn]; rfl)
  · obtain ⟨c, ds, hcs⟩ := List.exists_cons_of_ne_nil (Nat.toDigits_ne_nil (n := n) (b := 10))
    refine .inr ⟨c, ds, hcs, ?_, hcs ▸ isDigits_toDigits _⟩
    have := head?_toDigits (Nat.pos_of_ne_zero hn)
    simpa [hcs] using this

theorem lexeme_intText (z : ℤ) : ∃ minus whole, Lexeme minus whole [] [] ∧
    intText z = minus ++ whole := by
  have hwhole := whole_toDigits z.natAbs
  unfold intText
  by_cases hz : z < 0
  · rw [if_pos hz]
    exact ⟨['-'], _, ⟨.inr rfl, hwhole, .inl rfl, .inl rfl⟩, rfl⟩
  · rw [if_neg hz]
    exact ⟨[], _, ⟨.inl rfl, hwhole, .inl rfl, .inl rfl⟩, rfl⟩

theorem intValue_intText (z : ℤ) : intValue (intText z) = z := by
  unfold intText
  by_cases hz : z < 0
  · rw [if_pos hz, intValue, Nat.ofDigitChars_ten_toDigits]
    omega
  · rw [if_neg hz]
    obtain ⟨c, ds, hcs⟩ := List.exists_cons_of_ne_nil (Nat.toDigits_ne_nil (n := z.natAbs) (b := 10))
    have hc : c ≠ '-' := by
      rintro rfl
      exact absurd (isDigits_toDigits z.natAbs '-' (by simp [hcs])) (by decide)
    unfold intValue
    split
    · next heq => rw [hcs] at heq; exact absurd (List.cons.inj heq).1 hc
    · rw [Nat.ofDigitChars_ten_toDigits]
      omega

end Json
