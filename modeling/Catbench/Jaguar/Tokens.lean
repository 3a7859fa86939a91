import Catbench.Jaguar.Lookup

/-! # Tokens

    `splitAt` cuts a text at its separators and forgets which ones they were.
    The pieces have no separator in them, and the last one is what follows the
    last separator (`getLast?_splitAt`).
-/

namespace Jaguar

variable {sep : Char → Bool} {t u : Text}

/-! ## Section 1: Pieces -/

theorem splitAt_cons_of_sep {c : Char} (hc : sep c = true) (t : Text) :
    splitAt sep (c :: t) = [] :: splitAt sep t := by
  rw [splitAt, if_pos hc]

/-- Without a separator there is one piece. -/
theorem splitAt_eq_singleton (h : ∀ c ∈ t, sep c = false) : splitAt sep t = [t] := by
  induction t with
  | nil => rfl
  | cons c t ih =>
    rw [splitAt, h c (by simp), ih fun c' hc' => h c' (by simp [hc'])]
    rfl

/-- What comes before the first separator is the first piece. -/
theorem splitAt_append {c : Char} (hu : ∀ c ∈ u, sep c = false) (hc : sep c = true) (t : Text) :
    splitAt sep (u ++ c :: t) = u :: splitAt sep t := by
  induction u with
  | nil => exact splitAt_cons_of_sep hc t
  | cons d u ih =>
    rw [List.cons_append, splitAt, hu d (by simp), ih fun c' hc' => hu c' (by simp [hc'])]
    rfl

/-- A separator cuts the text around it. -/
theorem splitAt_append_sep {c : Char} (hc : sep c = true) (p t : Text) :
    splitAt sep (p ++ c :: t) = splitAt sep p ++ splitAt sep t := by
  induction p with
  | nil => exact splitAt_cons_of_sep hc t
  | cons d p ih =>
    rw [List.cons_append]
    cases hd : sep d with
    | true => rw [splitAt_cons_of_sep hd, splitAt_cons_of_sep hd, ih, List.cons_append]
    | false =>
      rw [splitAt, splitAt, hd, ih]
      cases hp : splitAt sep p with
      | nil => exact absurd hp (splitAt_ne_nil sep p)
      | cons v vs => rfl

/-- A text has no separator in it, or a first one. -/
theorem first_separator (sep : Char → Bool) (t : Text) :
    (∀ c ∈ t, sep c = false) ∨
    ∃ u c t', t = u ++ c :: t' ∧ (∀ c ∈ u, sep c = false) ∧ sep c = true := by
  induction t with
  | nil => exact .inl (by simp)
  | cons d t ih =>
    cases hd : sep d with
    | true => exact .inr ⟨[], d, t, rfl, by simp, hd⟩
    | false =>
      rcases ih with hall | ⟨u, c, t', rfl, hu, hc⟩
      · exact .inl (by simpa [hd] using hall)
      · exact .inr ⟨d :: u, c, t', rfl, by simpa [hd] using hu, hc⟩

/-- The pieces of a text, one after the other. -/
theorem splitAt_induction {P : Text → List Text → Prop}
    (last : ∀ t, (∀ c ∈ t, sep c = false) → P t [t])
    (piece : ∀ u c t, (∀ c ∈ u, sep c = false) → sep c = true → P t (splitAt sep t) →
      P (u ++ c :: t) (u :: splitAt sep t)) (t : Text) : P t (splitAt sep t) := by
  rcases first_separator sep t with hall | ⟨u, c, t', heq, hu, hc⟩
  · rw [splitAt_eq_singleton hall]
    exact last t hall
  · rw [heq, splitAt_append hu hc]
    exact piece u c t' hu hc (splitAt_induction last piece t')
termination_by t.length
decreasing_by
  rw [heq, List.length_append, List.length_cons]
  omega

/-- The last piece is what follows the last separator. -/
theorem getLast?_splitAt (hu : ∀ c ∈ u, sep c = false) :
    (splitAt sep t).getLast? = some u ↔ t = u ∨ ∃ c, sep c = true ∧ c :: u <:+ t := by
  refine splitAt_induction (P := fun t us => us.getLast? = some u ↔
    t = u ∨ ∃ c, sep c = true ∧ c :: u <:+ t) ?_ ?_ t
  · intro t ht
    rw [List.getLast?_singleton, Option.some.injEq]
    refine ⟨.inl, ?_⟩
    rintro (heq | ⟨c, hc, hsuffix⟩)
    · exact heq
    · rw [ht c (hsuffix.subset (by simp))] at hc
      cases hc
  · intro v c t _ hc ih
    have hlast : (v :: splitAt sep t).getLast? = (splitAt sep t).getLast? := by
      rw [List.getLast?_cons, List.getLast?_eq_some_getLast (splitAt_ne_nil sep t),
        Option.getD_some]
    rw [hlast, ih]
    have hcu : c ∉ u := fun hmem => by
      rw [hu c hmem] at hc
      cases hc
    constructor
    · rintro (rfl | ⟨d, hd, hsuffix⟩)
      · exact .inr ⟨c, hc, List.suffix_append v _⟩
      · refine .inr ⟨d, hd, hsuffix.trans ?_⟩
        exact (List.suffix_cons c t).trans (List.suffix_append v _)
    · rintro (heq | ⟨d, hd, hsuffix⟩)
      · exact absurd (heq ▸ by simp) hcu
      -- The last separator is `c`, or comes after it.
      · rcases List.suffix_or_suffix_of_suffix hsuffix (List.suffix_append v (c :: t)) with h | h
        · rcases List.suffix_cons_iff.mp h with heq | h
          · exact .inl (List.cons.inj heq).2.symm
          · exact .inr ⟨d, hd, h⟩
        · rcases List.suffix_cons_iff.mp h with heq | h
          · exact .inl (List.cons.inj heq).2
          · exact absurd (h.subset (by simp)) hcu

/-! ## Section 2: Stripping -/

theorem dropWhile_eq_self {space : Char → Bool} {t : Text} :
    t.dropWhile space = t ↔ ∀ c ∈ t.head?, space c = false := by
  cases t with
  | nil => simp
  | cons c t =>
    cases hc : space c with
    | false => simp [hc]
    | true =>
      have hlen := (List.dropWhile_suffix space (l := t)).length_le
      rw [List.dropWhile_cons_of_pos hc]
      constructor
      · intro heq
        rw [heq, List.length_cons] at hlen
        omega
      · intro hhead
        rw [hhead c rfl] at hc
        cases hc

/-- A text is not stripped if it does not start and end with space. -/
theorem strip_eq_self_iff {space : Char → Bool} {t : Text} :
    strip space t = t ↔
      (∀ c ∈ t.head?, space c = false) ∧ ∀ c ∈ t.getLast?, space c = false := by
  have hself : ∀ t : Text, t.dropWhile space = t ↔ ∀ c ∈ t.head?, space c = false :=
    fun t => dropWhile_eq_self
  have hfront := hself t
  have hback := hself t.reverse
  rw [List.head?_reverse] at hback
  rw [← hfront, ← hback]
  unfold strip
  constructor
  · intro h
    -- Neither step shortens the text.
    have hsuffix := List.dropWhile_suffix space (l := t)
    have hlen := (List.dropWhile_suffix space (l := (t.dropWhile space).reverse)).length_le
    rw [← List.length_reverse, h, List.length_reverse] at hlen
    have hdrop : t.dropWhile space = t := hsuffix.eq_of_length_le hlen
    rw [hdrop] at h
    exact ⟨hdrop, List.reverse_eq_iff.mp h⟩
  · rintro ⟨hdrop, hreverse⟩
    rw [hdrop, hreverse, List.reverse_reverse]

/-! ## Section 3: Paths -/

/-- A path ends in the append token after either separator, or is that token. -/
theorem append_token_iff {path : Text} :
    (subscriptsfrompath path).getLast? = some [']'] ↔
      path = [']'] ∨ ['.', ']'] <:+ path ∨ ['[', ']'] <:+ path := by
  unfold subscriptsfrompath
  rw [getLast?_splitAt (by simp)]
  constructor
  · rintro (h | ⟨c, hc, hsuffix⟩)
    · exact .inl h
    · rw [Bool.or_eq_true, decide_eq_true_iff, decide_eq_true_iff] at hc
      rcases hc with rfl | rfl
      · exact .inr (.inl hsuffix)
      · exact .inr (.inr hsuffix)
  · rintro (h | h | h)
    · exact .inl h
    · exact .inr ⟨'.', rfl, h⟩
    · exact .inr ⟨'[', rfl, h⟩

end Jaguar
