import Catbench.Framework.Json.Load

/-! # What is written is read back

    `load` inverts `dump`, up to what the text cannot hold: the order of the
    items of a dictionary and the type of its keys (`reload`).  A text that
    `dump` had to leave off in the middle is not accepted by `load`.
-/

namespace Json

variable {F : Type}

/-! ## Section 1: Induction over values -/

/-- Induction over a value by its elements and items. -/
theorem Val.induct {P : Val F → Prop} (null : P .null) (bool : ∀ b, P (.bool b))
    (int : ∀ z, P (.int z)) (float : ∀ x, P (.float x)) (str : ∀ s, P (.str s))
    (list : ∀ xs, (∀ x ∈ xs, P x) → P (.list xs))
    (dict : ∀ d, (∀ p ∈ d, P p.2) → P (.dict d)) (v : Val F) : P v :=
  @Val.rec F P (fun xs => ∀ x ∈ xs, P x) (fun d => ∀ p ∈ d, P p.2) (fun p => P p.2)
    null bool int float str list dict
    (by simp)
    (fun _ _ hx hxs => by
      intro y hy
      rcases List.mem_cons.mp hy with rfl | hy
      · exact hx
      · exact hxs y hy)
    (by simp)
    (fun _ _ hp hd => by
      intro q hq
      rcases List.mem_cons.mp hq with rfl | hq
      · exact hp
      · exact hd q hq)
    (fun _ _ hv => hv) v

/-! ## Section 2: The writer -/

namespace Out

theorem andThen_done (a b : Out) : (a.andThen b).done = (a.done && b.done) := by
  unfold andThen
  cases ha : a.done <;> simp [ha]

theorem andThen_text {a : Out} (ha : a.done = true) (b : Out) :
    (a.andThen b).text = a.text ++ b.text := by
  rw [andThen, if_pos ha]

theorem sepBy_done (sep : List Char) (outs : List Out) :
    (sepBy sep outs).done = outs.all (·.done) := by
  induction outs using sepBy.induct with
  | case1 => rfl
  | case2 a => simp [sepBy]
  | case3 a b rest ih => simp [sepBy, andThen_done, write, ih]

theorem sepBy_text {sep : List Char} {outs : List Out} (h : ∀ o ∈ outs, o.done = true) :
    (sepBy sep outs).text = List.intercalate sep (outs.map (·.text)) := by
  induction outs using sepBy.induct with
  | case1 => rfl
  | case2 a => simp [sepBy, List.intercalate]
  | case3 a b rest ih =>
    have hrest := ih (fun o ho => h o (List.mem_cons_of_mem a ho))
    rw [sepBy, andThen_text (h a (by simp)), andThen_text rfl, hrest]
    simp [List.intercalate, write]

end Out

/-! ## Section 3: Space -/

theorem skipSpace_cons {c : Char} (hc : isSpace c = false) (t : List Char) :
    skipSpace (c :: t) = c :: t := by
  simp [skipSpace, hc]

theorem skipSpace_newline (level : ℕ) {c : Char} (hc : isSpace c = false) (t : List Char) :
    skipSpace (newline level ++ c :: t) = c :: t := by
  have htabs : ∀ n, (List.replicate n '\t' ++ c :: t).dropWhile isSpace = c :: t := by
    intro n
    induction n with
    | zero => simp [hc]
    | succ n ih =>
      rw [List.replicate_succ, List.cons_append, List.dropWhile_cons_of_pos (by decide)]
      exact ih
  rw [newline, List.cons_append, skipSpace, List.dropWhile_cons_of_pos (by decide)]
  exact htabs level

/-! ## Section 4: Strings -/

theorem hexValue_digitChar : ∀ d < 16, hexValue (Nat.digitChar d) = some d := by decide

theorem hex4_escape {c : CodePoint} (hc : c.val < 0x10000) :
    hex4 (hexDigit (c.val / 4096)) (hexDigit (c.val / 256)) (hexDigit (c.val / 16))
      (hexDigit c.val) = some c := by
  have hdigit : ∀ n, hexValue (hexDigit n) = some (n % 16) := fun n =>
    hexValue_digitChar _ (Nat.mod_lt n (by decide))
  have hn : c.val / 4096 % 16 * 4096 + c.val / 256 % 16 * 256 + c.val / 16 % 16 * 16 +
      c.val % 16 = c.val := by omega
  simp only [hex4, hdigit, Option.bind_eq_bind, Option.bind_some, hn]
  simp

theorem CodePoint.units_lt {c u : CodePoint} (h : u ∈ c.units) : u.val < 0x10000 := by
  unfold CodePoint.units at h
  split at h
  · next hc =>
    rw [List.mem_singleton.mp h]
    exact hc
  · rcases List.mem_cons.mp h with rfl | h
    · simp only [CodePoint.highOf]; omega
    · rw [List.mem_singleton] at h
      subst h
      simp only [CodePoint.lowOf]; omega

theorem scanUnits_plain {c : Char} (hq : c ≠ '"') (hb : c ≠ '\\') (hc : 0x20 ≤ c.toNat)
    (t : List Char) :
    scanUnits (c :: t) = (scanUnits t).map fun p => (CodePoint.ofChar c :: p.1, p.2) := by
  rw [scanUnits.eq_def]
  split
  · next heq => cases heq
  · next heq => exact absurd (List.cons.inj heq).1 hq
  · next heq => exact absurd (List.cons.inj heq).1 hb
  · next heq => exact absurd (List.cons.inj heq).1 hb
  · next heq =>
    obtain ⟨rfl, rfl⟩ := List.cons.inj heq
    rw [if_neg (by omega)]
    cases scanUnits t <;> rfl

theorem scanUnits_unescape {c u : Char} (hu : unescape c = some u) (t : List Char) :
    scanUnits ('\\' :: c :: t) =
      (scanUnits t).map fun p => (CodePoint.ofChar u :: p.1, p.2) := by
  have hc : c ≠ 'u' := by
    rintro rfl
    cases hu
  rw [scanUnits.eq_def]
  split
  · next heq => cases heq
  · next heq => exact absurd (List.cons.inj heq).1 (by decide)
  · next heq => exact absurd (List.cons.inj (List.cons.inj heq).2).1 hc
  · next heq =>
    obtain ⟨-, heq⟩ := List.cons.inj heq
    obtain ⟨rfl, rfl⟩ := List.cons.inj heq
    rw [hu]
    cases scanUnits t <;> rfl
  · next hne heq =>
    obtain ⟨rfl, rfl⟩ := List.cons.inj heq
    exact absurd rfl (hne c t rfl)

/-- Reading one unit back. -/
theorem scanUnits_escapeUnit {c : CodePoint} (hc : c.val < 0x10000) (t : List Char) :
    scanUnits (escapeUnit c ++ t) = (scanUnits t).map fun p => (c :: p.1, p.2) := by
  have hpoint : ∀ {u : Char}, u.toNat = c.val → CodePoint.ofChar u = c := fun h => Fin.ext h
  have hshort : ∀ {e u : Char}, unescape e = some u → u.toNat = c.val →
      scanUnits (['\\', e] ++ t) = (scanUnits t).map fun p => (c :: p.1, p.2) := by
    intro e u hu hval
    rw [List.cons_append, List.singleton_append, scanUnits_unescape hu, hpoint hval]
  unfold escapeUnit
  split
  · next h => exact hshort (u := '\\') rfl h.symm
  split
  · next h => exact hshort (u := '"') rfl h.symm
  split
  · next h => exact hshort (u := '\x08') rfl h.symm
  split
  · next h => exact hshort (u := '\x0c') rfl h.symm
  split
  · next h => exact hshort (u := '\n') rfl h.symm
  split
  · next h => exact hshort (u := '\r') rfl h.symm
  split
  · next h => exact hshort (u := '\t') rfl h.symm
  split
  · next hbs hquote _ _ _ _ _ hascii =>
    have hval : (Char.ofNat c.val).toNat = c.val := by
      rw [Char.ofNat, dif_pos (Or.inl (by omega))]
      rfl
    rw [List.singleton_append, scanUnits_plain, hpoint hval]
    · intro heq
      rw [heq] at hval
      exact hquote hval.symm
    · intro heq
      rw [heq] at hval
      exact hbs hval.symm
    · omega
  · rw [escapeHex, List.cons_append, List.cons_append, List.cons_append, List.cons_append,
      List.cons_append, List.cons_append, List.nil_append, scanUnits, hex4_escape hc]
    cases scanUnits t <;> rfl

theorem scanUnits_units {us : List CodePoint} (h : ∀ u ∈ us, u.val < 0x10000) (t : List Char) :
    scanUnits (us.flatMap escapeUnit ++ '"' :: t) = some (us, t) := by
  induction us with
  | nil => rfl
  | cons u us ih =>
    rw [List.flatMap_cons, List.append_assoc, scanUnits_escapeUnit (h u (by simp)),
      ih fun v hv => h v (List.mem_cons_of_mem u hv)]
    rfl

/-- A written string is read back, from behind its opening quote. -/
theorem scanUnits_strText (s : Str) (t : List Char) :
    ∃ body, strText s = '"' :: body ∧
      scanUnits (body ++ t) = some (s.points.flatMap CodePoint.units, t) := by
  refine ⟨(s.points.flatMap CodePoint.units).flatMap escapeUnit ++ ['"'], rfl, ?_⟩
  rw [List.append_assoc, List.singleton_append]
  refine scanUnits_units (fun u hu => ?_) t
  obtain ⟨c, -, hc⟩ := List.mem_flatMap.mp hu
  exact CodePoint.units_lt hc

/-! ## Section 5: Values -/

variable [FloatFormat F]

/-- The text reads as the value, whatever follows it, and starts like a value. -/
structure Reads (t : List Char) (v : Val F) : Prop where
  scan : ∀ fuel rest, t.length ≤ fuel → EndsNumber rest →
    scanOnce fuel (t ++ rest) = some (v, rest)
  start : ∃ c u, t = c :: u ∧ isSpace c = false ∧ c ≠ ']'

theorem endsNumber_newline (level : ℕ) (t : List Char) : EndsNumber (newline level ++ t) := by
  simp [EndsNumber, newline]

theorem endsNumber_comma (t : List Char) : EndsNumber (',' :: t) := by
  simp [EndsNumber]

/-- Numbers and constants are read by `scanAtom`. -/
theorem reads_atom {t : List Char} {v : Val F} (hatom : ∀ rest, EndsNumber rest →
    scanAtom (t ++ rest) = some (v, rest)) (hstart : ∃ c u, t = c :: u ∧ isSpace c = false ∧
      c ≠ ']' ∧ c ≠ '"' ∧ c ≠ '{' ∧ c ≠ '[') : Reads t v := by
  obtain ⟨c, u, rfl, hspace, hclose, hquote, hbrace, hbracket⟩ := hstart
  refine ⟨?_, c, u, rfl, hspace, hclose⟩
  intro fuel rest hfuel hrest
  obtain ⟨fuel, rfl⟩ : ∃ n, fuel = n + 1 := ⟨fuel - 1, by simp at hfuel; omega⟩
  rw [← hatom rest hrest, List.cons_append, scanOnce.eq_def]
  simp only
  split
  · next heq => exact absurd (List.cons.inj heq).1 hquote
  · next heq => exact absurd (List.cons.inj heq).1 hbrace
  · next heq => exact absurd (List.cons.inj heq).1 hbracket
  · rfl

/-- A character that starts a number starts nothing else. -/
theorem number_start {c : Char} (h : c = '-' ∨ c.isDigit = true) :
    isSpace c = false ∧ c ≠ ']' ∧ c ≠ '"' ∧ c ≠ '{' ∧ c ≠ '[' := by
  rcases h with rfl | h
  · decide
  · refine ⟨?_, ?_, ?_, ?_, ?_⟩
    · by_contra hs
      simp only [isSpace, Bool.not_eq_false, decide_eq_true_eq] at hs
      rcases hs with rfl | rfl | rfl | rfl <;> exact absurd h (by decide)
    all_goals
      rintro rfl
      exact absurd h (by decide)

theorem reads_number {minus whole frac exp : List Char} (h : Lexeme minus whole frac exp)
    {v : Val F} (hv : numberValue (minus ++ whole) (frac ++ exp) = some v) :
    Reads (minus ++ whole ++ frac ++ exp) v := by
  refine reads_atom (fun rest hrest => ?_) ?_
  · unfold scanAtom
    rw [scanNumber_lexeme h hrest]
    simp [hv]
  · obtain ⟨c, u, heq, hc⟩ := h.head
    refine ⟨c, u ++ frac ++ exp, ?_, number_start hc⟩
    rw [heq, List.cons_append, List.cons_append]

theorem reads_int (z : ℤ) : Reads (intText z) (.int z : Val F) := by
  obtain ⟨minus, whole, hlex, heq⟩ := lexeme_intText z
  have := reads_number (F := F) hlex (v := .int z) (by
    rw [← heq, numberValue]
    simp [intValue_intText])
  simpa [heq] using this

theorem reads_float (x : PyFloat F) : Reads (floatText x) (.float x : Val F) := by
  match x with
  | .finite x =>
    obtain ⟨minus, whole, frac, exp, hlex, hne, heq⟩ := FloatFormat.isFloatText_repr x
    have hv : numberValue (minus ++ whole) (frac ++ exp) = some (.float (.finite x) : Val F) := by
      rw [numberValue, if_neg (by simpa using hne), ← List.append_assoc, ← heq,
        FloatFormat.float_repr]
      rfl
    rw [floatText, heq]
    exact reads_number hlex hv
  | .nan => exact reads_atom (fun rest _ => rfl) ⟨_, _, rfl, by decide⟩
  | .inf => exact reads_atom (fun rest _ => rfl) ⟨_, _, rfl, by decide⟩
  | .neginf => exact reads_atom (fun rest _ => rfl) ⟨_, _, rfl, by decide⟩

theorem reads_str (s : Str) : Reads (strText s) (.str s : Val F) := by
  refine ⟨fun fuel rest hfuel _ => ?_, '"', _, rfl, by decide⟩
  obtain ⟨body, heq, hscan⟩ := scanUnits_strText s rest
  obtain ⟨fuel, rfl⟩ : ∃ n, fuel = n + 1 := ⟨fuel - 1, by simp [heq] at hfuel; omega⟩
  rw [heq, List.cons_append, scanOnce]
  simp [hscan, Str.ofUnits_units]

/-- The text continues with something else than space. -/
def Starts (t : List Char) : Prop := ∃ c u, t = c :: u ∧ isSpace c = false

theorem Starts.skipSpace {t : List Char} (h : Starts t) : skipSpace t = t := by
  obtain ⟨c, u, rfl, hc⟩ := h
  exact skipSpace_cons hc u

theorem Starts.skipSpace_newline {t : List Char} (h : Starts t) (level : ℕ) :
    Json.skipSpace (newline level ++ t) = t := by
  obtain ⟨c, u, rfl, hc⟩ := h
  exact Json.skipSpace_newline level hc u

theorem Reads.starts {t : List Char} {v : Val F} (h : Reads t v) (rest : List Char) :
    Starts (t ++ rest) := by
  obtain ⟨c, u, rfl, hc, -⟩ := h.start
  exact ⟨c, u ++ rest, rfl, hc⟩

section elements

variable {t w rest : List Char} {v : Val F} {fuel : ℕ} (level : ℕ)

theorem scanElements_last (h : Reads t v) (hfuel : t.length ≤ fuel) :
    scanElements (fuel + 1) (t ++ (newline level ++ ']' :: rest)) = some ([v], rest) := by
  rw [scanElements, h.scan fuel _ hfuel (endsNumber_newline _ _)]
  have hskip : skipSpace (newline level ++ ']' :: rest) = ']' :: rest :=
    skipSpace_newline level (by decide) rest
  simp [hskip]

theorem scanElements_more {vs : List (Val F)} (h : Reads t v) (hfuel : t.length ≤ fuel)
    (hw : Starts w) (hrest : scanElements fuel w = some (vs, rest)) :
    scanElements (fuel + 1) (t ++ (',' :: (newline level ++ w))) = some (v :: vs, rest) := by
  rw [scanElements, h.scan fuel _ hfuel (endsNumber_comma _)]
  have hcomma : ∀ u, skipSpace (',' :: u) = ',' :: u := skipSpace_cons (by decide)
  simp [hcomma, hw.skipSpace_newline, hrest]

/-- The text of an item reads as its key and its value. -/
def ItemReads (p : List Char × (Key × Val F)) : Prop :=
  ∃ s u v, p.1 = strText s ++ (':' :: ' ' :: u) ∧ Reads u v ∧ p.2 = (.str s, v)

theorem ItemReads.starts {p : List Char × (Key × Val F)} (h : ItemReads p) (rest : List Char) :
    Starts (p.1 ++ rest) := by
  obtain ⟨s, u, v, heq, -⟩ := h
  rw [heq]
  exact ⟨'"', _, rfl, by decide⟩

/-- Reading an item up to what follows its value. -/
theorem scanItems_item {p : List Char × (Key × Val F)} (h : ItemReads p)
    (hfuel : p.1.length ≤ fuel + 1) (hw : EndsNumber w) :
    (skipSpace w = ',' :: rest → scanItems (fuel + 1) (p.1 ++ w) =
      (scanItems fuel (skipSpace rest)).map fun r => (p.2 :: r.1, r.2)) ∧
    (skipSpace w = '}' :: rest → scanItems (fuel + 1) (p.1 ++ w) = some ([p.2], rest)) := by
  obtain ⟨s, u, v, heq, hread, hp⟩ := h
  obtain ⟨body, hbody, hscan⟩ := scanUnits_strText s (':' :: ' ' :: (u ++ w))
  have hcolon : ∀ x, skipSpace (':' :: x) = ':' :: x := skipSpace_cons (by decide)
  have hblank : skipSpace (' ' :: (u ++ w)) = u ++ w := by
    have hstep : skipSpace (' ' :: (u ++ w)) = skipSpace (u ++ w) := rfl
    rw [hstep, (hread.starts w).skipSpace]
  rw [heq, hbody] at hfuel ⊢
  rw [List.append_assoc, List.cons_append, List.cons_append, List.cons_append, scanItems]
  simp only [hscan, Option.bind_eq_bind, Option.bind_some, hcolon, hblank, Str.ofUnits_units]
  rw [hread.scan fuel w (by simp at hfuel; omega) hw]
  refine ⟨fun hcomma => ?_, fun hbrace => ?_⟩
  · simp only [Option.bind_some, hp, hcomma]
    cases scanItems (F := F) fuel (skipSpace rest) <;> rfl
  · simp only [Option.bind_some, hp, hbrace]

theorem scanItems_last {p : List Char × (Key × Val F)} (h : ItemReads p)
    (hfuel : p.1.length ≤ fuel) :
    scanItems (fuel + 1) (p.1 ++ (newline level ++ '}' :: rest)) = some ([p.2], rest) := by
  exact (scanItems_item h (by omega) (endsNumber_newline _ _)).2
    (skipSpace_newline level (by decide) rest)

theorem scanItems_more {p : List Char × (Key × Val F)} {ps : List (Key × Val F)}
    (h : ItemReads p) (hfuel : p.1.length ≤ fuel) (hw : Starts w)
    (hrest : scanItems fuel w = some (ps, rest)) :
    scanItems (fuel + 1) (p.1 ++ (',' :: (newline level ++ w))) = some (p.2 :: ps, rest) := by
  rw [(scanItems_item h (by omega) (endsNumber_comma _)).1 (skipSpace_cons (by decide) _),
    hw.skipSpace_newline, hrest]
  rfl

end elements

/-- A scanner of a comma-separated sequence, from what it does with the last
    member and with one that others follow. -/
theorem scan_intercalate {α β : Type*} (scan : ℕ → List Char → Option (List β × List Char))
    (text : α → List Char) (value : α → β) (level : ℕ) (close rest : List Char)
    (items : List α) (hne : items ≠ [])
    (hstart : ∀ a ∈ items, ∀ w, Starts (text a ++ w))
    (hlast : ∀ a ∈ items, ∀ fuel, (text a).length ≤ fuel →
      scan (fuel + 1) (text a ++ close) = some ([value a], rest))
    (hmore : ∀ a ∈ items, ∀ fuel w vs, (text a).length ≤ fuel → Starts w →
      scan fuel w = some (vs, rest) →
      scan (fuel + 1) (text a ++ (',' :: (newline level ++ w))) = some (value a :: vs, rest))
    (fuel : ℕ)
    (hfuel : (List.intercalate (',' :: newline level) (items.map text)).length + 1 ≤ fuel) :
    scan fuel (List.intercalate (',' :: newline level) (items.map text) ++ close) =
      some (items.map value, rest) := by
  induction items generalizing fuel with
  | nil => exact absurd rfl hne
  | cons a items ih =>
    obtain ⟨fuel, rfl⟩ : ∃ n, fuel = n + 1 := ⟨fuel - 1, by omega⟩
    cases items with
    | nil =>
      simp only [List.map_cons, List.map_nil, List.intercalate_singleton] at hfuel ⊢
      exact hlast a (by simp) fuel (by omega)
    | cons b items =>
      have hcons : List.intercalate (',' :: newline level) ((a :: b :: items).map text) =
          text a ++ (',' :: (newline level ++
            List.intercalate (',' :: newline level) ((b :: items).map text))) := by
        simp [List.intercalate]
      rw [hcons] at hfuel ⊢
      simp only [List.length_append, List.length_cons] at hfuel
      have hrest := ih (by simp) (fun c hc => hstart c (List.mem_cons_of_mem a hc))
        (fun c hc => hlast c (List.mem_cons_of_mem a hc))
        (fun c hc => hmore c (List.mem_cons_of_mem a hc)) fuel (by omega)
      have hw : Starts (List.intercalate (',' :: newline level) ((b :: items).map text) ++
          close) := by
        obtain ⟨w, hw⟩ : ∃ w, List.intercalate (',' :: newline level) ((b :: items).map text) =
            text b ++ w := by
          cases items with
          | nil => exact ⟨[], by simp⟩
          | cons c items => exact ⟨_, by simp [List.intercalate]; rfl⟩
        rw [hw, List.append_assoc]
        exact hstart b (by simp) _
      have := hmore a (by simp) fuel _ _ (by omega) hw hrest
      simpa using this

/-- A nonempty sequence of texts starts as its first one does. -/
theorem intercalate_start (sep : List Char) {ts : List (List Char)} (hne : ts ≠ []) :
    ∃ t w, t ∈ ts ∧ List.intercalate sep ts = t ++ w := by
  match ts with
  | [] => exact absurd rfl hne
  | [t] => exact ⟨t, [], by simp, by simp⟩
  | t :: u :: ts =>
    exact ⟨t, sep ++ List.intercalate sep (u :: ts), by simp, by simp [List.intercalate]⟩

/-! ## Section 6: Round trip -/

section containers

variable (level : ℕ) {fuel : ℕ} {c : Char} {u rest : List Char}

theorem scanOnce_list {vs : List (Val F)} (hc : isSpace c = false) (hclose : c ≠ ']')
    (h : scanElements fuel (c :: u) = some (vs, rest)) :
    scanOnce (fuel + 1) ('[' :: (newline level ++ c :: u)) = some (.list vs, rest) := by
  rw [scanOnce]
  simp only [skipSpace_newline level hc]
  split
  · next heq => exact absurd (List.cons.inj heq).1 hclose
  · rw [h]; rfl

theorem scanOnce_dict {ps : List (Key × Val F)} (hc : isSpace c = false) (hclose : c ≠ '}')
    (h : scanItems fuel (c :: u) = some (ps, rest)) :
    scanOnce (fuel + 1) ('{' :: (newline level ++ c :: u)) =
      some (.dict (Dict.ofPairs ps), rest) := by
  rw [scanOnce]
  simp only [skipSpace_newline level hc]
  split
  · next heq => exact absurd (List.cons.inj heq).1 hclose
  · rw [h]; rfl

end containers

/-- A list in brackets. -/
theorem reads_list (level : ℕ) (items : List (List Char × Val F)) (hne : items ≠ [])
    (h : ∀ p ∈ items, Reads p.1 p.2) :
    Reads ('[' :: (newline (level + 1) ++ (List.intercalate (',' :: newline (level + 1))
      (items.map Prod.fst) ++ (newline level ++ [']'])))) (.list (items.map Prod.snd)) := by
  refine ⟨fun fuel rest hfuel _ => ?_, '[', _, rfl, by decide⟩
  obtain ⟨fuel, rfl⟩ : ∃ n, fuel = n + 1 := ⟨fuel - 1, by simp at hfuel; omega⟩
  have hscan := scan_intercalate scanElements Prod.fst Prod.snd (level + 1)
    (newline level ++ ']' :: rest) rest items hne
    (fun p hp w => (h p hp).starts w)
    (fun p hp fuel hf => scanElements_last level (h p hp) hf)
    (fun p hp fuel w vs hf hw hr => scanElements_more (level + 1) (h p hp) hf hw hr) fuel
    (by simp at hfuel; omega)
  obtain ⟨t, w, ht, heq⟩ := intercalate_start (',' :: newline (level + 1))
    (show items.map Prod.fst ≠ [] by simpa using hne)
  obtain ⟨p, hp, rfl⟩ := List.mem_map.mp ht
  obtain ⟨c, u, hcu, hc, hclose⟩ := (h p hp).start
  rw [heq, hcu, List.append_assoc, List.cons_append] at hscan
  simpa [heq, hcu] using scanOnce_list (level + 1) hc hclose hscan

/-- A dictionary in braces. -/
theorem reads_dict (level : ℕ) (items : List (List Char × (Key × Val F))) (hne : items ≠ [])
    (h : ∀ p ∈ items, ItemReads p) :
    Reads ('{' :: (newline (level + 1) ++ (List.intercalate (',' :: newline (level + 1))
      (items.map Prod.fst) ++ (newline level ++ ['}']))))
      (.dict (Dict.ofPairs (items.map Prod.snd))) := by
  refine ⟨fun fuel rest hfuel _ => ?_, '{', _, rfl, by decide⟩
  obtain ⟨fuel, rfl⟩ : ∃ n, fuel = n + 1 := ⟨fuel - 1, by simp at hfuel; omega⟩
  have hscan := scan_intercalate scanItems Prod.fst Prod.snd (level + 1)
    (newline level ++ '}' :: rest) rest items hne
    (fun p hp w => (h p hp).starts w)
    (fun p hp fuel hf => scanItems_last level (h p hp) hf)
    (fun p hp fuel w vs hf hw hr => scanItems_more (level + 1) (h p hp) hf hw hr) fuel
    (by simp at hfuel; omega)
  obtain ⟨t, w, ht, heq⟩ := intercalate_start (',' :: newline (level + 1))
    (show items.map Prod.fst ≠ [] by simpa using hne)
  obtain ⟨p, hp, rfl⟩ := List.mem_map.mp ht
  obtain ⟨s, u, v, hcu, -⟩ := h p hp
  rw [heq, hcu, strText, List.append_assoc, List.append_assoc, List.cons_append] at hscan
  simpa [heq, hcu, strText] using scanOnce_dict (level + 1) (by decide) (by decide) hscan

theorem encode_list_done {level : ℕ} {x : Val F} {xs : List (Val F)}
    (h : (encode level (.list (x :: xs))).done = true) :
    (∀ y ∈ x :: xs, (encode (level + 1) y).done = true) ∧
      (encode level (.list (x :: xs))).text = '[' :: (newline (level + 1) ++
        (List.intercalate (',' :: newline (level + 1))
          ((x :: xs).map fun y => (encode (level + 1) y).text) ++ (newline level ++ [']']))) := by
  rw [encode] at h ⊢
  simp only [Out.andThen_done, Out.write, Bool.true_and, Bool.and_true, Out.sepBy_done,
    encodeList_eq_map, List.all_map, List.all_eq_true, Function.comp] at h
  have hdone : (Out.sepBy (',' :: newline (level + 1))
      (encodeList (level + 1) (x :: xs))).done = true := by
    rw [Out.sepBy_done, encodeList_eq_map]
    simpa using h
  refine ⟨h, ?_⟩
  rw [Out.andThen_text rfl, Out.andThen_text hdone, Out.sepBy_text, encodeList_eq_map,
    List.map_map]
  · rfl
  · rw [encodeList_eq_map]
    simpa using h

/-- The text of one item. -/
def itemOut (level : ℕ) (p : Key × Val F) : Out :=
  (Out.write (strText p.1.text ++ [':', ' '])).andThen (encode level p.2)

theorem encode_dict_done {level : ℕ} {p : Key × Val F} {d : List (Key × Val F)}
    (h : (encode level (.dict (p :: d))).done = true) :
    (∀ q ∈ p :: d, (encode (level + 1) q.2).done = true) ∧
      (encode level (.dict (p :: d))).text = '{' :: (newline (level + 1) ++
        (List.intercalate (',' :: newline (level + 1))
          ((sortItems (p :: d)).map fun q => (itemOut (level + 1) q).text) ++
            (newline level ++ ['}']))) := by
  have hitems : (sortItems (encodeItems (level + 1) (p :: d))).map Prod.snd =
      (sortItems (p :: d)).map (itemOut (level + 1)) := by
    rw [encodeItems_eq_map, sortItems_map, List.map_map]
    rfl
  rw [encode] at h ⊢
  by_cases hcmp : comparable (Dict.keys (p :: d)) = true
  · rw [if_pos hcmp, hitems] at h ⊢
    have hdone : (Out.sepBy (',' :: newline (level + 1))
        ((sortItems (p :: d)).map (itemOut (level + 1)))).done = true := by
      simpa [Out.andThen_done, Out.write] using h
    have hall : ∀ o ∈ (sortItems (p :: d)).map (itemOut (level + 1)), o.done = true := by
      rw [Out.sepBy_done, List.all_eq_true] at hdone
      exact hdone
    refine ⟨fun q hq => ?_, ?_⟩
    · have := hall (itemOut (level + 1) q)
        (List.mem_map_of_mem ((perm_sortItems (p :: d)).mem_iff.mpr hq))
      simpa [itemOut, Out.andThen_done, Out.write] using this
    · rw [Out.andThen_text rfl, Out.andThen_text hdone, Out.sepBy_text hall, List.map_map]
      rfl
  · rw [if_neg hcmp] at h
    simp [Out.andThen_done, Out.raise] at h

/-- What was written reads back. -/
theorem encode_reads (v : Val F) :
    ∀ level, (encode level v).done = true → Reads (encode level v).text (reload v) := by
  induction v using Val.induct with
  | null => exact fun _ _ => reads_atom (fun _ _ => rfl) ⟨_, _, rfl, by decide⟩
  | bool b =>
    intro _ _
    cases b
    · exact reads_atom (fun _ _ => rfl) ⟨_, _, rfl, by decide⟩
    · exact reads_atom (fun _ _ => rfl) ⟨_, _, rfl, by decide⟩
  | int z => exact fun _ _ => reads_int z
  | float x => exact fun _ _ => reads_float x
  | str s => exact fun _ _ => reads_str s
  | list xs ih =>
    intro level hdone
    cases xs with
    | nil =>
      refine ⟨fun fuel rest hfuel _ => ?_, '[', _, rfl, by decide⟩
      obtain ⟨fuel, rfl⟩ : ∃ n, fuel = n + 1 := ⟨fuel - 1, by simp [encode, Out.write] at hfuel; omega⟩
      rfl
    | cons x xs =>
      obtain ⟨hall, htext⟩ := encode_list_done hdone
      have := reads_list level
        ((x :: xs).map fun y => ((encode (level + 1) y).text, reload y)) (by simp)
        (fun p hp => by
          obtain ⟨y, hy, rfl⟩ := List.mem_map.mp hp
          exact ih y hy (level + 1) (hall y hy))
      rw [List.map_map, List.map_map] at this
      rw [htext, reload, reloadList_eq_map]
      exact this
  | dict d ih =>
    intro level hdone
    cases d with
    | nil =>
      refine ⟨fun fuel rest hfuel _ => ?_, '{', _, rfl, by decide⟩
      obtain ⟨fuel, rfl⟩ : ∃ n, fuel = n + 1 := ⟨fuel - 1, by simp [encode, Out.write] at hfuel; omega⟩
      rfl
    | cons p d =>
      obtain ⟨hall, htext⟩ := encode_dict_done hdone
      have := reads_dict level ((sortItems (p :: d)).map fun q =>
          ((itemOut (level + 1) q).text, (Key.str q.1.text, reload q.2)))
        (by
          intro hnil
          have := (perm_sortItems (p :: d)).length_eq
          rw [List.map_eq_nil_iff.mp hnil] at this
          simp at this)
        (fun r hr => by
          obtain ⟨q, hq, rfl⟩ := List.mem_map.mp hr
          have hq := (perm_sortItems (p :: d)).mem_iff.mp hq
          refine ⟨q.1.text, (encode (level + 1) q.2).text, reload q.2, ?_,
            ih q hq (level + 1) (hall q hq), rfl⟩
          simp [itemOut, Out.andThen, Out.write])
      rw [List.map_map, List.map_map] at this
      rw [htext, reload, reloadItems_eq_map, sortItems_map, List.map_map]
      exact this

/-- No value starts with a byte order mark. -/
theorem scanOnce_bom (fuel : ℕ) (t : List Char) :
    scanOnce (F := F) fuel ('\ufeff' :: t) = none := by
  have hnum : scanNumber ('\ufeff' :: t) = none := rfl
  cases fuel with
  | zero => rfl
  | succ fuel =>
    show scanAtom ('\ufeff' :: t) = none
    unfold scanAtom
    rw [hnum]
    rfl

/-- The line break that a caller adds does not matter. -/
theorem Reads.load {t : List Char} {v : Val F} (h : Reads t v) :
    Json.load (t ++ ['\n']) = some v := by
  have hscan := h.scan ((t ++ ['\n']).length + 1) ['\n'] (by simp; omega) (by simp [EndsNumber])
  have hbom : (t ++ ['\n']).head? ≠ some '\ufeff' := by
    obtain ⟨c, u, heq, -⟩ := h.start
    rw [heq] at hscan ⊢
    intro hc
    obtain rfl : c = '\ufeff' := by simpa using hc
    rw [List.cons_append, scanOnce_bom] at hscan
    cases hscan
  rw [Json.load, if_neg hbom, (h.starts _).skipSpace, hscan]
  rfl

/-- `load` inverts `dump`, up to the order of items and the type of keys. -/
theorem load_dump {v : Val F} (h : (dump v).done = true) :
    load ((dump v).text ++ ['\n']) = some (reload v) :=
  (encode_reads v 0 h).load

end Json
