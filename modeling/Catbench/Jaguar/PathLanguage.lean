import Catbench.Jaguar.Frame
import Catbench.Jaguar.PathGrammar

/-! # Which paths the commands take

    `get` and `rem` take the paths whose tokens are all subscripts; `set` takes
    the append token at the end as well, after a dot or an opening bracket.
    Each of these is taken by some document, so a text is treated as the grammar
    has it exactly if it is a path of the grammar, or one with `[]` after it, or
    has an empty index in it (`path_language_iff`).
-/

open Json

namespace Jaguar

variable {F : Type}

/-! ## Section 1: A document for a path -/

/-- A document in which the path leads to the value. -/
def docOf (leaf : Val F) : List Key → Val F
  | [] => leaf
  | .str s :: ks => .dict [(.str s, docOf leaf ks)]
  | .int i :: ks =>
    if 0 ≤ i then .list (List.replicate i.toNat .null ++ [docOf leaf ks])
    else .list (docOf leaf ks :: List.replicate (i.natAbs - 1) .null)

theorem resolve_docOf (leaf : Val F) (ks : List Key) : resolve (docOf leaf ks) ks = some leaf := by
  induction ks with
  | nil => rfl
  | cons k ks ih =>
    apply resolve_cons.mpr
    refine ⟨docOf leaf ks, ?_, ih⟩
    cases k with
    | str s => exact getitem_dict.mpr (by simp)
    | int i =>
      rw [docOf]
      split
      · refine getitem_list.mpr ⟨i.toNat, ?_, ?_⟩
        · rw [position_eq_some, List.length_append, List.length_replicate]
          simp
          omega
        · rw [List.getElem?_append_right (by simp)]
          simp
      · refine getitem_list.mpr ⟨0, ?_, rfl⟩
        rw [position_eq_some, List.length_cons, List.length_replicate]
        omega

theorem plain_docOf {leaf : Val F} (h : Plain leaf) (ks : List Key) : Plain (docOf leaf ks) := by
  induction ks with
  | nil => exact h
  | cons k ks ih =>
    cases k with
    | str s =>
      refine .dict (by simp [Key.isStr]) (by simp) fun p hp => ?_
      rw [List.mem_singleton.mp hp]
      exact ih
    | int i =>
      unfold docOf
      split
      · refine .list fun x hx => ?_
        rcases List.mem_append.mp hx with hx | hx
        · rw [List.eq_of_mem_replicate hx]
          exact .null
        · rw [List.mem_singleton.mp hx]
          exact ih
      · refine .list fun x hx => ?_
        rcases List.mem_cons.mp hx with rfl | hx
        · exact ih
        · rw [List.eq_of_mem_replicate hx]
          exact .null

/-! ## Section 2: Tokens that are taken -/

/-- `rem` takes a path whose tokens are subscripts. -/
theorem subscripts_of_delete_levels {ref ref' : Val F} {levels : List Text}
    (h : delete_levels ref levels = .ok ref') : ∃ ks, subscripts levels = some ks := by
  induction levels generalizing ref ref' with
  | nil => exact ⟨[], rfl⟩
  | cons level levels ih =>
    cases hk : indexfromsubscript level with
    | error e => cases levels <;> simp [delete_levels, hk] at h
    | ok k =>
      cases levels with
      | nil => exact ⟨[k], subscripts_cons.mpr ⟨k, [], hk, rfl, rfl⟩⟩
      | cons next levels =>
        rw [delete_levels, hk] at h
        dsimp only at h
        cases hv : getitem ref k with
        | error e =>
          rw [hv] at h
          cases h
        | ok v =>
          rw [hv] at h
          dsimp only at h
          cases hdel : delete_levels v (next :: levels) with
          | error e =>
            rw [hdel] at h
            cases h
          | ok v' =>
            obtain ⟨ks, hks⟩ := ih hdel
            exact ⟨k :: ks, subscripts_cons.mpr ⟨k, ks, hk, hks, rfl⟩⟩

section replace

variable [FloatFormat F] {files : Text → File} {replace : Text}

/-- `set` takes them too, and the append token after them. -/
theorem tokens_of_replace_levels {first : Bool} {typ : Option Typ} {ref ref' : Val F}
    {levels : List Text} {s s' : Text}
    (h : replace_levels files replace first typ ref levels s = (.ok ref', s')) :
    ∀ ts token us, levels = ts ++ token :: us → EmptyIndex token → us = [] ∧ token = [']'] := by
  induction levels generalizing first ref ref' with
  | nil => simp
  | cons level levels ih =>
    intro ts token us heq hempty
    obtain ⟨e, he⟩ := indexfromsubscript_error_iff.mpr hempty
    cases ts with
    | nil =>
      obtain ⟨rfl, rfl⟩ := List.cons.inj heq
      cases levels with
      | nil =>
        rw [replace_levels, he] at h
        dsimp only at h
        split_ifs at h with htoken
        · exact ⟨rfl, htoken⟩
        · exact absurd h Py.raise_ne_ok
      | cons next levels =>
        rw [replace_levels, he] at h
        exact absurd h Py.raise_ne_ok
    | cons t ts =>
      obtain ⟨rfl, hlevels⟩ := List.cons.inj heq
      -- A level before another one goes on with the rest.
      obtain ⟨next, rest, rfl⟩ : ∃ next rest, levels = next :: rest :=
        List.exists_cons_of_ne_nil (by rw [hlevels]; simp)
      cases hk : indexfromsubscript level with
      | error e' =>
        rw [replace_levels, hk] at h
        exact absurd h Py.raise_ne_ok
      | ok k =>
        obtain ⟨ref₁, inner, inner', -, -, hinner, -⟩ := (replace_levels_level hk).mp h
        exact ih hinner ts token us hlevels hempty

end replace

theorem subscripts_eq_none_iff {levels : List Text} :
    subscripts levels = none ↔ ∃ token ∈ levels, EmptyIndex token := by
  induction levels with
  | nil => simp [subscripts]
  | cons level levels ih =>
    rw [subscripts]
    cases hk : indexfromsubscript level with
    | error e =>
      have hempty := indexfromsubscript_error_iff.mp ⟨e, hk⟩
      simp [hempty]
    | ok k =>
      have hempty : ¬EmptyIndex level := fun hempty => by
        obtain ⟨e, he⟩ := indexfromsubscript_error_iff.mpr hempty
        rw [hk] at he
        cases he
      simp [ih, hempty]

/-! ## Section 3: The language -/

/-- A token that makes every command fail: an empty index, other than the append
    token at the end. -/
def IllFormed (s : Text) : Prop :=
  ∃ ts token us, subscriptsfrompath s = ts ++ token :: us ∧ EmptyIndex token ∧
    ¬(us = [] ∧ token = [']'])

/-- The text is treated as the grammar has it: as a path of the grammar, or
    rejected by every command and for every document; `set` may take `[]` after a
    path. -/
structure Obeys (F : Type) [FloatFormat F] (s : Text) : Prop where
  interpreted : ∀ ks, Denotes s ks → pathsubscripts s = some ks
  get_rejects : (¬∃ ks, Denotes s ks) → ∀ doc v : Val F, Plain doc → get doc s ≠ .ok v
  rem_rejects : (¬∃ ks, Denotes s ks) → ∀ doc doc' : Val F, Plain doc → rem doc s ≠ .ok doc'
  set_rejects : (¬∃ ks, Denotes s ks) → (¬∃ p ks, s = p ++ ['[', ']'] ∧ Denotes p ks) →
    ∀ (files : Text → File) (doc doc' : Val F) (args : List Text) (stdin stdin' : Text),
      Plain doc → set files doc (s :: args) stdin ≠ (.ok doc', stdin')

theorem IllFormed.pathsubscripts_eq {s : Text} (h : IllFormed s) : pathsubscripts s = none := by
  obtain ⟨ts, token, us, htokens, hempty, -⟩ := h
  apply subscripts_eq_none_iff.mpr
  exact ⟨token, by rw [htokens]; simp, hempty⟩

theorem pathsubscripts_append_form (p : Text) : pathsubscripts (p ++ ['[', ']']) = none :=
  subscripts_of_append (append_token_iff.mpr (.inr (.inr (List.suffix_append p _))))

/-- Without a token that makes every command fail, only the last can be none. -/
theorem append_form_of_not_illFormed {s : Text} (h : pathsubscripts s = none)
    (hill : ¬IllFormed s) :
    ∃ ts ks, subscriptsfrompath s = ts ++ [[']']] ∧ subscripts ts = some ks := by
  obtain ⟨token, hmem, hempty⟩ := subscripts_eq_none_iff.mp h
  obtain ⟨ts, us, htokens⟩ := List.append_of_mem hmem
  by_cases hlast : us = [] ∧ token = [']']
  · obtain ⟨rfl, rfl⟩ := hlast
    cases hks : subscripts ts with
    | some ks => exact ⟨ts, ks, htokens, hks⟩
    | none =>
      -- An empty index before it.
      obtain ⟨token, hmem, hempty⟩ := subscripts_eq_none_iff.mp hks
      obtain ⟨ts₁, ts₂, rfl⟩ := List.append_of_mem hmem
      refine absurd ⟨ts₁, token, ts₂ ++ [[']']], ?_, hempty, by simp⟩ hill
      rw [htokens, List.append_assoc, List.cons_append]
  · exact absurd ⟨ts, token, us, htokens, hempty, hlast⟩ hill

section main

variable [FloatFormat F]

/-- A CSV file without data lines. -/
def headerFile : Text → File := fun _ => .text "integer\nk\n".toList

/-- Where the tokens are subscripts but for the append token, `set` appends to
    some document. -/
theorem set_takes_append_token {s : Text} {ts : List Text} {ks : List Key}
    (htokens : subscriptsfrompath s = ts ++ [[']']]) (hks : subscripts ts = some ks) :
    ∃ (doc doc' : Val F) (stdin' : Text), Plain doc ∧
      set headerFile doc [s, ['f']] [] = (.ok doc', stdin') := by
  have hlast : ∀ first, replace_levels headerFile ['f'] first none (.list [] : Val F) [[']']] [] =
      (.ok (.list []), []) := fun _ => rfl
  obtain ⟨doc', hset, -⟩ : ∃ doc' : Val F, replace_levels headerFile ['f'] true none
      (docOf (.list []) ks) (ts ++ [[']']]) [] = (.ok doc', []) ∧ _ :=
    replace_levels_last hks (resolve_docOf (.list []) ks) rfl hlast
  refine ⟨docOf (.list []) ks, doc', [], plain_docOf (.list (by simp)) ks, ?_⟩
  rw [set, htokens]
  exact hset

theorem obeys_of_pathsubscripts {s : Text} (hnone : pathsubscripts s = none)
    (hset : IllFormed s ∨ ∃ p ks, s = p ++ ['[', ']'] ∧ Denotes p ks) : Obeys F s where
  interpreted _ h := h.pathsubscripts_eq
  get_rejects _ doc v _ h := by
    obtain ⟨ks, hks, -⟩ := get_eq_ok.mp h
    rw [hnone] at hks
    cases hks
  rem_rejects _ doc doc' _ h := by
    obtain ⟨ks, hks⟩ := subscripts_of_delete_levels h
    rw [pathsubscripts, hks] at hnone
    cases hnone
  set_rejects _ happend files doc doc' args stdin stdin' _ h := by
    obtain ⟨ts, token, us, htokens, hempty, hlast⟩ := hset.resolve_right happend
    obtain ⟨val, typ, hreplace⟩ := set_replaces files h
    exact hlast (tokens_of_replace_levels hreplace ts token us htokens hempty)

theorem obeys_iff {s : Text} :
    Obeys F s ↔ (∃ ks, Denotes s ks) ∨ (∃ p ks, s = p ++ ['[', ']'] ∧ Denotes p ks) ∨
      IllFormed s := by
  constructor
  · intro hobeys
    by_cases hdenotes : ∃ ks, Denotes s ks
    · exact .inl hdenotes
    · -- A text with subscripts would be taken by `get`.
      have hnone : pathsubscripts s = none := by
        cases hks : pathsubscripts s with
        | none => rfl
        | some ks =>
          have hget : get (docOf (.null : Val F) ks) s = .ok .null :=
            get_eq_ok.mpr ⟨ks, hks, resolve_docOf .null ks⟩
          exact absurd hget (hobeys.get_rejects hdenotes _ _ (plain_docOf .null ks))
      by_cases hill : IllFormed s
      · exact .inr (.inr hill)
      · obtain ⟨ts, ks, htokens, hks⟩ := append_form_of_not_illFormed hnone hill
        obtain ⟨doc, doc', stdin', hplain, hset⟩ := set_takes_append_token (F := F) htokens hks
        by_contra hcond
        refine hobeys.set_rejects hdenotes (fun happend => ?_) headerFile doc doc' _ _ _ hplain hset
        exact hcond (.inr (.inl happend))
  · rintro (⟨ks, h⟩ | ⟨p, ks, rfl, h⟩ | h)
    · exact ⟨fun _ h => h.pathsubscripts_eq, fun hno => absurd ⟨ks, h⟩ hno,
        fun hno => absurd ⟨ks, h⟩ hno, fun hno => absurd ⟨ks, h⟩ hno⟩
    · exact obeys_of_pathsubscripts (pathsubscripts_append_form p) (.inr ⟨p, ks, rfl, h⟩)
    · exact obeys_of_pathsubscripts h.pathsubscripts_eq (.inl h)

/-- What is treated as the grammar has it and has subscripts is a path. -/
theorem Obeys.denotes {s : Text} {ks : List Key} (h : Obeys F s)
    (hks : pathsubscripts s = some ks) : Denotes s ks := by
  rcases obeys_iff.mp h with ⟨ks', h'⟩ | ⟨p, ks', rfl, -⟩ | h'
  · rw [h'.pathsubscripts_eq, Option.some.injEq] at hks
    rwa [← hks]
  · rw [pathsubscripts_append_form] at hks
    cases hks
  · rw [h'.pathsubscripts_eq] at hks
    cases hks

/-- **The path language.**  A text is treated as the grammar has it exactly if it
    is a path, or `[]` follows a path, or a token makes every command fail; and
    such texts denote the same subscripts only if they are similar. -/
theorem path_language_iff (F : Type) [FloatFormat F] (s : Text) :
    (Obeys F s ↔ (∃ ks, Denotes s ks) ∨ (∃ p ks, s = p ++ ['[', ']'] ∧ Denotes p ks) ∨
      IllFormed s) ∧
    ∀ t ks, Obeys F s → Obeys F t → pathsubscripts s = some ks → pathsubscripts t = some ks →
      Similar s t :=
  ⟨obeys_iff, fun _ _ hs ht hsks htks => (hs.denotes hsks).similar (ht.denotes htks)⟩

end main

/-- Each bracket of a path is closed. -/
theorem Denotes.count_eq {s : Text} {ks : List Key} (h : Denotes s ks) :
    s.count '[' = s.count ']' := by
  have hfree : ∀ {k : Text}, FreeKey k → k.count '[' = 0 ∧ k.count ']' = 0 := fun hk =>
    ⟨List.count_eq_zero.mpr fun hmem => (hk _ hmem).2.1 rfl,
      List.count_eq_zero.mpr fun hmem => (hk _ hmem).2.2 rfl⟩
  induction h with
  | key hk => rw [(hfree hk).1, (hfree hk).2]
  | dot _ hk ih => simp [ih, (hfree hk).1, (hfree hk).2]
  | @index p t ks _ ht ih =>
    obtain ⟨ds, -, hds, hform⟩ := ht
    have hcount : t.count '[' = 0 ∧ t.count ']' = 0 := by
      have hds' : ∀ c, c.isDigit = false → c ∉ ds := fun c hc hmem => by
        rw [hds c hmem] at hc
        cases hc
      rcases hform with rfl | rfl <;>
        simp [List.count_eq_zero, hds' '[' rfl, hds' ']' rfl]
    simp [List.count_append, ih, hcount.1, hcount.2]

/-- A bracket that is not closed makes the index a key. -/
theorem path_language_unclosed :
    ¬Obeys Whole "a[0".toList ∧ pathsubscripts "a[0".toList = pathsubscripts "a.0".toList := by
  refine ⟨fun hobeys => ?_, by decide⟩
  have hks : pathsubscripts "a[0".toList =
      some [.str (Str.ofText ['a']), .str (Str.ofText ['0'])] := by decide
  have hcount := (hobeys.denotes hks).count_eq
  revert hcount
  decide

end Jaguar
