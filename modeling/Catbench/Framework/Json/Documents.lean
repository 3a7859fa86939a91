import Catbench.Framework.Json.RoundTrip

/-! # Documents

    * **Read documents**: what `load` returns has string keys only, each of them
      once in its dictionary (`Plain`).
    * **Written documents**: `dump` finishes exactly on values whose dictionaries
      can be sorted (`Sorts`); what it leaves off is not accepted by `load`.
    * **Equality**: a read document equals the one it was written from
      (`Plain.same_reload`), lookup by lookup.
-/

namespace Json

variable {F : Type}

/-! ## Section 1: Read documents -/

/-- Dictionaries have string keys, without repetition. -/
inductive Plain : Val F → Prop where
  | null : Plain .null
  | bool (b : Bool) : Plain (.bool b)
  | int (z : ℤ) : Plain (.int z)
  | float (x : PyFloat F) : Plain (.float x)
  | str (s : Str) : Plain (.str s)
  | list {xs : List (Val F)} (h : ∀ x ∈ xs, Plain x) : Plain (.list xs)
  | dict {d : List (Key × Val F)} (hkeys : ∀ k ∈ Dict.keys d, k.isStr = true)
      (hnodup : (Dict.keys d).Nodup) (h : ∀ p ∈ d, Plain p.2) : Plain (.dict d)

/-- The keys of the value itself, if it is a dictionary, are strings without
    repetition. -/
def PlainKeys : Val F → Prop
  | .dict d => (∀ k ∈ Dict.keys d, k.isStr = true) ∧ (Dict.keys d).Nodup
  | _ => True

/-- The values in a container. -/
def Val.children : Val F → List (Val F)
  | .list xs => xs
  | .dict d => d.map Prod.snd
  | _ => []

theorem plain_iff {v : Val F} : Plain v ↔ PlainKeys v ∧ ∀ x ∈ v.children, Plain x := by
  constructor
  · intro h
    cases h with
    | list hall => exact ⟨trivial, hall⟩
    | dict hkeys hnodup hall =>
      refine ⟨⟨hkeys, hnodup⟩, fun x hx => ?_⟩
      obtain ⟨p, hp, rfl⟩ := List.mem_map.mp hx
      exact hall p hp
    | null | bool | int | float | str => exact ⟨trivial, nofun⟩
  · intro h
    cases v with
    | list xs => exact .list h.2
    | dict d => exact .dict h.1.1 h.1.2 fun p hp => h.2 p.2 (List.mem_map_of_mem hp)
    | null => exact .null
    | bool b => exact .bool b
    | int z => exact .int z
    | float x => exact .float x
    | str s => exact .str s

theorem Plain.plainKeys {v : Val F} (h : Plain v) : PlainKeys v := (plain_iff.mp h).1

/-- The dictionary of a sequence of items with string keys. -/
theorem Plain.ofPairs {items : List (Key × Val F)}
    (h : ∀ p ∈ items, p.1.isStr = true ∧ Plain p.2) : Plain (.dict (Dict.ofPairs items)) := by
  refine .dict ?_ (Dict.nodup_ofPairs items) fun p hp => (h p (Dict.mem_ofPairs hp)).2
  intro k hk
  obtain ⟨p, hp, rfl⟩ := List.mem_map.mp hk
  exact (h p (Dict.mem_ofPairs hp)).1

/-! ## Section 2: What the reader takes -/

/-- `rest` follows a character of `t` that closes something. -/
def Ends (t rest : List Char) : Prop :=
  ∃ front c, t = front ++ c :: rest ∧ c ≠ '{' ∧ isSpace c = false

theorem Ends.suffix {t rest : List Char} (h : Ends t rest) : rest <:+ t := by
  obtain ⟨front, c, rfl, -⟩ := h
  exact ⟨front ++ [c], by simp⟩

theorem Ends.of_suffix {t u rest : List Char} (h : Ends u rest) (hu : u <:+ t) : Ends t rest := by
  obtain ⟨front, c, rfl, hc⟩ := h
  obtain ⟨more, rfl⟩ := hu
  exact ⟨more ++ front, c, by simp, hc⟩

theorem ends_cons {c : Char} (rest : List Char) (hc : c ≠ '{' ∧ isSpace c = false) :
    Ends (c :: rest) rest := ⟨[], c, rfl, hc⟩

theorem skipSpace_suffix (t : List Char) : skipSpace t <:+ t := List.dropWhile_suffix isSpace

/-- The closing character that follows some space. -/
theorem ends_of_skipSpace {t rest : List Char} {c : Char} (h : skipSpace t = c :: rest)
    (hc : c ≠ '{' ∧ isSpace c = false) : Ends t rest :=
  (ends_cons rest hc).of_suffix (h ▸ skipSpace_suffix t)

theorem suffix_of_skipSpace {t rest : List Char} {c : Char} (h : skipSpace t = c :: rest) :
    rest <:+ t := (List.suffix_cons c rest).trans (h ▸ skipSpace_suffix t)

theorem ends_scanUnits {t rest : List Char} {us : List CodePoint}
    (h : scanUnits t = some (us, rest)) : Ends t rest := by
  induction t using scanUnits.induct generalizing us with
  | case1 => simp [scanUnits] at h
  | case2 tail =>
    rw [scanUnits] at h
    obtain ⟨-, rfl⟩ := Prod.mk.inj (Option.some.inj h)
    exact ends_cons _ (by decide)
  | case3 a b c d tail ih =>
    rw [scanUnits] at h
    obtain ⟨u, -, h⟩ := Option.bind_eq_some_iff.mp h
    obtain ⟨⟨us', rest'⟩, htail, heq⟩ := Option.bind_eq_some_iff.mp h
    obtain ⟨-, rfl⟩ := Prod.mk.inj (Option.some.inj heq)
    exact (ih htail).of_suffix ⟨['\\', 'u', a, b, c, d], rfl⟩
  | case4 c tail hne ih =>
    rw [scanUnits.eq_4 c tail hne] at h
    obtain ⟨u, -, h⟩ := Option.bind_eq_some_iff.mp h
    obtain ⟨⟨us', rest'⟩, htail, heq⟩ := Option.bind_eq_some_iff.mp h
    obtain ⟨-, rfl⟩ := Prod.mk.inj (Option.some.inj heq)
    exact (ih htail).of_suffix ⟨['\\', c], rfl⟩
  | case5 c tail hq hu hb hc =>
    rw [scanUnits.eq_5 c tail hq hu hb, if_pos hc] at h
    cases h
  | case6 c tail hq hu hb hc ih =>
    rw [scanUnits.eq_5 c tail hq hu hb, if_neg hc] at h
    obtain ⟨⟨us', rest'⟩, htail, heq⟩ := Option.bind_eq_some_iff.mp h
    obtain ⟨-, rfl⟩ := Prod.mk.inj (Option.some.inj heq)
    exact (ih htail).of_suffix ⟨[c], rfl⟩

/-- The characters of a number. -/
def IsNumberChar (c : Char) : Prop :=
  c.isDigit = true ∨ c = '-' ∨ c = '+' ∨ c = '.' ∨ c = 'e' ∨ c = 'E'

theorem IsNumberChar.closes {c : Char} (h : IsNumberChar c) : c ≠ '{' ∧ isSpace c = false := by
  rcases h with h | rfl | rfl | rfl | rfl | rfl
  · have := number_start (.inr h)
    exact ⟨this.2.2.2.1, this.1⟩
  all_goals decide

theorem Lexeme.isNumberChar {minus whole frac exp : List Char} (h : Lexeme minus whole frac exp) :
    ∀ c ∈ minus ++ whole ++ frac ++ exp, IsNumberChar c := by
  have hdigits : ∀ {ds : List Char}, IsDigits ds → ∀ c ∈ ds, IsNumberChar c :=
    fun hds c hc => .inl (hds c hc)
  have hfrac : ∀ c ∈ frac, IsNumberChar c := by
    rcases h.frac with rfl | ⟨ds, rfl, -, hds⟩
    · simp
    · exact List.forall_mem_cons.mpr ⟨by simp [IsNumberChar], hdigits hds⟩
  have hexp : ∀ c ∈ exp, IsNumberChar c := by
    rcases h.exp with rfl | ⟨e, sign, ds, rfl, he, hsign, -, hds⟩
    · simp
    · rw [List.cons_append, List.forall_mem_cons, List.forall_mem_append]
      refine ⟨?_, ?_, hdigits hds⟩
      · rcases he with rfl | rfl <;> simp [IsNumberChar]
      · rcases hsign with rfl | rfl | rfl <;> simp [IsNumberChar]
  simp only [List.forall_mem_append]
  refine ⟨⟨⟨?_, hdigits h.isDigits_whole.1⟩, hfrac⟩, hexp⟩
  rcases h.minus with rfl | rfl <;> simp [IsNumberChar]

/-- A split of a text whose first part consists of such characters. -/
def SplitsNumber (t : List Char) (p : List Char × List Char) : Prop :=
  t = p.1 ++ p.2 ∧ ∀ c ∈ p.1, IsNumberChar c

theorem splitsNumber_nil (t : List Char) : SplitsNumber t ([], t) := ⟨rfl, by simp⟩

theorem splitsNumber_digits (t : List Char) :
    SplitsNumber t (t.takeWhile Char.isDigit, t.dropWhile Char.isDigit) :=
  ⟨List.takeWhile_append_dropWhile.symm, fun _ hc => .inl (List.mem_takeWhile_imp hc)⟩

theorem SplitsNumber.cons {c : Char} {t : List Char} {p : List Char × List Char}
    (hc : IsNumberChar c) (h : SplitsNumber t p) : SplitsNumber (c :: t) (c :: p.1, p.2) := by
  refine ⟨by rw [h.1]; rfl, fun d hd => ?_⟩
  rcases List.mem_cons.mp hd with rfl | hd
  · exact hc
  · exact h.2 d hd

theorem SplitsNumber.append {t : List Char} {p q : List Char × List Char} (hp : SplitsNumber t p)
    (hq : SplitsNumber p.2 q) : SplitsNumber t (p.1 ++ q.1, q.2) := by
  refine ⟨by rw [hp.1, hq.1]; simp, fun c hc => ?_⟩
  rcases List.mem_append.mp hc with hc | hc
  · exact hp.2 c hc
  · exact hq.2 c hc

theorem splits_scanMinus (t : List Char) : SplitsNumber t (scanMinus t) := by
  unfold scanMinus
  split
  · exact (splitsNumber_nil _).cons (.inr (.inl rfl))
  · exact splitsNumber_nil t

theorem splits_scanWhole {t : List Char} {p : List Char × List Char} (h : scanWhole t = some p) :
    SplitsNumber t p ∧ p.1 ≠ [] := by
  unfold scanWhole at h
  split at h
  · cases h
  · next c rest =>
    split at h
    · next hc =>
      obtain rfl := Option.some.inj h
      subst hc
      exact ⟨(splitsNumber_nil rest).cons (.inl isDigit_zero), by simp⟩
    · split at h
      · next hd =>
        obtain rfl := Option.some.inj h
        refine ⟨splitsNumber_digits _, ?_⟩
        simp [hd]
      · cases h

theorem splits_scanFrac (t : List Char) : SplitsNumber t (scanFrac t) := by
  unfold scanFrac
  split
  · split
    · exact splitsNumber_nil _
    · exact (splitsNumber_digits _).cons (by simp [IsNumberChar])
  · exact splitsNumber_nil t

theorem splits_scanSign (t : List Char) : SplitsNumber t (scanSign t) := by
  unfold scanSign
  split
  · exact (splitsNumber_nil _).cons (by simp [IsNumberChar])
  · exact (splitsNumber_nil _).cons (by simp [IsNumberChar])
  · exact splitsNumber_nil t

theorem splits_scanExp (t : List Char) : SplitsNumber t (scanExp t) := by
  unfold scanExp
  split
  · exact splitsNumber_nil []
  · next c rest =>
    split
    · next hc =>
      split
      · exact splitsNumber_nil _
      · have hsign := (splits_scanSign rest).append (splitsNumber_digits (scanSign rest).2)
        exact hsign.cons (by rcases hc with rfl | rfl <;> simp [IsNumberChar])
    · exact splitsNumber_nil _

theorem SplitsNumber.ends {t : List Char} {p : List Char × List Char} (h : SplitsNumber t p)
    (hne : p.1 ≠ []) : Ends t p.2 := by
  have hlast := List.dropLast_append_getLast hne
  refine ⟨p.1.dropLast, p.1.getLast hne, ?_, (h.2 _ (List.getLast_mem hne)).closes⟩
  rw [List.append_cons, hlast]
  exact h.1

/-- The reader takes a nonempty run of such characters. -/
theorem splits_scanNumber {t whole frac rest : List Char}
    (h : scanNumber t = some (whole, frac, rest)) : ∃ ds, SplitsNumber t (ds, rest) ∧ ds ≠ [] := by
  unfold scanNumber at h
  obtain ⟨⟨w, t₁⟩, hw, h⟩ := Option.bind_eq_some_iff.mp h
  obtain ⟨hsplit, hne⟩ := splits_scanWhole hw
  have hall := (((splits_scanMinus t).append hsplit).append (splits_scanFrac t₁)).append
    (splits_scanExp (scanFrac t₁).2)
  have hrest : (scanExp (scanFrac t₁).2).2 = rest :=
    congrArg (fun x => x.2.2) (Option.some.inj h)
  rw [← hrest]
  exact ⟨_, hall, by simp [hne]⟩

theorem ends_scanNumber {t whole frac rest : List Char}
    (h : scanNumber t = some (whole, frac, rest)) : Ends t rest := by
  obtain ⟨ds, hsplit, hne⟩ := splits_scanNumber h
  exact hsplit.ends hne

section load

variable [FloatFormat F]

/-- What the reader returns is plain, and it stops after a closing character. -/
structure Took (t : List Char) (v : Val F) (rest : List Char) : Prop where
  plain : Plain v
  ends : Ends t rest

theorem took_scanAtom {t rest : List Char} {v : Val F} (h : scanAtom t = some (v, rest)) :
    Took t v rest := by
  have hconst : ∀ {u : List Char} {w : Val F}, Plain w → Ends t u →
      some (w, u) = some (v, rest) → Took t v rest := by
    intro u w hplain hends heq
    obtain ⟨rfl, rfl⟩ := Prod.mk.inj (Option.some.inj heq)
    exact ⟨hplain, hends⟩
  unfold scanAtom at h
  split at h
  · next whole frac u hnum =>
    obtain ⟨w, hw, heq⟩ := Option.map_eq_some_iff.mp h
    refine hconst ?_ (ends_scanNumber hnum) (congrArg some heq)
    unfold numberValue at hw
    split at hw
    · obtain rfl := Option.some.inj hw
      exact .int _
    · obtain ⟨x, -, rfl⟩ := Option.map_eq_some_iff.mp hw
      exact .float x
  · split at h
    · exact hconst .null ⟨['n', 'u', 'l'], 'l', rfl, by decide⟩ h
    · exact hconst (.bool true) ⟨['t', 'r', 'u'], 'e', rfl, by decide⟩ h
    · exact hconst (.bool false) ⟨['f', 'a', 'l', 's'], 'e', rfl, by decide⟩ h
    · exact hconst (.float .nan) ⟨['N', 'a'], 'N', rfl, by decide⟩ h
    · exact hconst (.float .inf) ⟨['I', 'n', 'f', 'i', 'n', 'i', 't'], 'y', rfl, by decide⟩ h
    · exact hconst (.float .neginf)
        ⟨['-', 'I', 'n', 'f', 'i', 'n', 'i', 't'], 'y', rfl, by decide⟩ h
    · cases h

/-- The three scanners at one fuel. -/
structure ScansPlain (F : Type) [FloatFormat F] (fuel : ℕ) : Prop where
  once : ∀ t v rest, scanOnce (F := F) fuel t = some (v, rest) → Took t v rest
  items : ∀ t items rest, scanItems (F := F) fuel t = some (items, rest) →
    (∀ p ∈ items, p.1.isStr = true ∧ Plain p.2) ∧ Ends t rest
  elements : ∀ t xs rest, scanElements (F := F) fuel t = some (xs, rest) →
    (∀ x ∈ xs, Plain x) ∧ Ends t rest

theorem scansPlain_once {fuel : ℕ} (ih : ScansPlain F fuel) {t rest : List Char} {v : Val F}
    (h : scanOnce (fuel + 1) t = some (v, rest)) : Took t v rest := by
  rw [scanOnce.eq_def] at h
  dsimp only at h
  split at h
  · next tail =>
    obtain ⟨⟨us, u⟩, hus, heq⟩ := Option.bind_eq_some_iff.mp h
    obtain ⟨rfl, rfl⟩ := Prod.mk.inj (Option.some.inj heq)
    exact ⟨.str _, (ends_scanUnits hus).of_suffix (List.suffix_cons _ _)⟩
  · next tail =>
    split at h
    · next hskip =>
      obtain ⟨rfl, rfl⟩ := Prod.mk.inj (Option.some.inj h)
      exact ⟨.dict (by simp) (by simp) (by simp),
        (ends_of_skipSpace hskip (by decide)).of_suffix (List.suffix_cons _ _)⟩
    · next hskip =>
      obtain ⟨⟨items, u⟩, hitems, heq⟩ := Option.bind_eq_some_iff.mp h
      obtain ⟨rfl, rfl⟩ := Prod.mk.inj (Option.some.inj heq)
      obtain ⟨hplain, hends⟩ := ih.items _ _ _ hitems
      exact ⟨.ofPairs hplain,
        hends.of_suffix ((skipSpace_suffix tail).trans (List.suffix_cons _ _))⟩
  · next tail =>
    split at h
    · next hskip =>
      obtain ⟨rfl, rfl⟩ := Prod.mk.inj (Option.some.inj h)
      exact ⟨.list (by simp),
        (ends_of_skipSpace hskip (by decide)).of_suffix (List.suffix_cons _ _)⟩
    · next hskip =>
      obtain ⟨⟨xs, u⟩, hxs, heq⟩ := Option.bind_eq_some_iff.mp h
      obtain ⟨rfl, rfl⟩ := Prod.mk.inj (Option.some.inj heq)
      obtain ⟨hplain, hends⟩ := ih.elements _ _ _ hxs
      exact ⟨.list hplain,
        hends.of_suffix ((skipSpace_suffix tail).trans (List.suffix_cons _ _))⟩
  · exact took_scanAtom h

theorem scansPlain_items {fuel : ℕ} (ih : ScansPlain F fuel) {t rest : List Char}
    {items : List (Key × Val F)} (h : scanItems (fuel + 1) t = some (items, rest)) :
    (∀ p ∈ items, p.1.isStr = true ∧ Plain p.2) ∧ Ends t rest := by
  rw [scanItems.eq_def] at h
  dsimp only at h
  split at h
  · next tail =>
    obtain ⟨⟨us, u⟩, hus, h⟩ := Option.bind_eq_some_iff.mp h
    dsimp only at h
    have hu : u <:+ '"' :: tail := (ends_scanUnits hus).suffix.trans (List.suffix_cons _ _)
    split at h
    · next w hw =>
      obtain ⟨⟨v, x⟩, hv, h⟩ := Option.bind_eq_some_iff.mp h
      dsimp only at h
      have htook := ih.once _ _ _ hv
      have hx : x <:+ '"' :: tail := (htook.ends.suffix.trans (skipSpace_suffix w)).trans
        ((suffix_of_skipSpace hw).trans hu)
      split at h
      · next y hy =>
        obtain ⟨⟨more, z⟩, hmore, heq⟩ := Option.bind_eq_some_iff.mp h
        obtain ⟨rfl, rfl⟩ := Prod.mk.inj (Option.some.inj heq)
        obtain ⟨hplain, hends⟩ := ih.items _ _ _ hmore
        refine ⟨fun p hp => ?_, hends.of_suffix ((skipSpace_suffix y).trans
          ((suffix_of_skipSpace hy).trans hx))⟩
        rcases List.mem_cons.mp hp with rfl | hp
        · exact ⟨rfl, htook.plain⟩
        · exact hplain p hp
      · next y hy =>
        obtain ⟨rfl, rfl⟩ := Prod.mk.inj (Option.some.inj h)
        refine ⟨fun p hp => ?_, (ends_of_skipSpace hy (by decide)).of_suffix hx⟩
        rw [List.mem_singleton.mp hp]
        exact ⟨rfl, htook.plain⟩
      · cases h
    · cases h
  · cases h

theorem scansPlain_elements {fuel : ℕ} (ih : ScansPlain F fuel) {t rest : List Char}
    {xs : List (Val F)} (h : scanElements (fuel + 1) t = some (xs, rest)) :
    (∀ x ∈ xs, Plain x) ∧ Ends t rest := by
  rw [scanElements] at h
  obtain ⟨⟨v, x⟩, hv, h⟩ := Option.bind_eq_some_iff.mp h
  dsimp only at h
  have htook := ih.once _ _ _ hv
  split at h
  · next y hy =>
    obtain ⟨⟨more, z⟩, hmore, heq⟩ := Option.bind_eq_some_iff.mp h
    obtain ⟨rfl, rfl⟩ := Prod.mk.inj (Option.some.inj heq)
    obtain ⟨hplain, hends⟩ := ih.elements _ _ _ hmore
    refine ⟨fun w hw => ?_, hends.of_suffix ((skipSpace_suffix y).trans
      ((suffix_of_skipSpace hy).trans htook.ends.suffix))⟩
    rcases List.mem_cons.mp hw with rfl | hw
    · exact htook.plain
    · exact hplain w hw
  · next y hy =>
    obtain ⟨rfl, rfl⟩ := Prod.mk.inj (Option.some.inj h)
    refine ⟨fun w hw => ?_, (ends_of_skipSpace hy (by decide)).of_suffix htook.ends.suffix⟩
    rw [List.mem_singleton.mp hw]
    exact htook.plain
  · cases h

theorem scansPlain (fuel : ℕ) : ScansPlain F fuel := by
  induction fuel with
  | zero =>
    exact ⟨fun _ _ _ h => by simp [scanOnce] at h, fun _ _ _ h => by simp [scanItems] at h,
      fun _ _ _ h => by simp [scanElements] at h⟩
  | succ fuel ih =>
    exact ⟨fun _ _ _ h => scansPlain_once ih h, fun _ _ _ h => scansPlain_items ih h,
      fun _ _ _ h => scansPlain_elements ih h⟩

theorem load_eq_some {t : List Char} {v : Val F} (h : load t = some v) :
    ∃ rest, Took t v rest ∧ skipSpace rest = [] := by
  unfold load at h
  split at h
  · cases h
  · obtain ⟨⟨w, rest⟩, hscan, h⟩ := Option.bind_eq_some_iff.mp h
    have htook := (scansPlain _).once _ _ _ hscan
    obtain ⟨hempty, heq⟩ := Option.ite_none_right_eq_some.mp h
    obtain rfl := Option.some.inj heq
    exact ⟨rest, ⟨htook.plain, htook.ends.of_suffix (skipSpace_suffix t)⟩,
      List.isEmpty_iff.mp hempty⟩

/-- A document that was read is plain. -/
theorem plain_of_load {t : List Char} {v : Val F} (h : load t = some v) : Plain v := by
  obtain ⟨rest, htook, -⟩ := load_eq_some h
  exact htook.plain

end load

/-! ## Section 3: Written documents -/

/-- The keys of each dictionary can be compared. -/
inductive Sorts : Val F → Prop where
  | null : Sorts .null
  | bool (b : Bool) : Sorts (.bool b)
  | int (z : ℤ) : Sorts (.int z)
  | float (x : PyFloat F) : Sorts (.float x)
  | str (s : Str) : Sorts (.str s)
  | list {xs : List (Val F)} (h : ∀ x ∈ xs, Sorts x) : Sorts (.list xs)
  | dict {d : List (Key × Val F)} (hkeys : comparable (Dict.keys d) = true)
      (h : ∀ p ∈ d, Sorts p.2) : Sorts (.dict d)

/-- The keys of the value itself can be compared. -/
def SortsKeys : Val F → Prop
  | .dict d => comparable (Dict.keys d) = true
  | _ => True

theorem sorts_iff {v : Val F} : Sorts v ↔ SortsKeys v ∧ ∀ x ∈ v.children, Sorts x := by
  constructor
  · intro h
    cases h with
    | list hall => exact ⟨trivial, hall⟩
    | dict hkeys hall =>
      refine ⟨hkeys, fun x hx => ?_⟩
      obtain ⟨p, hp, rfl⟩ := List.mem_map.mp hx
      exact hall p hp
    | null | bool | int | float | str => exact ⟨trivial, nofun⟩
  · intro h
    cases v with
    | list xs => exact .list h.2
    | dict d => exact .dict h.1 fun p hp => h.2 p.2 (List.mem_map_of_mem hp)
    | null => exact .null
    | bool b => exact .bool b
    | int z => exact .int z
    | float x => exact .float x
    | str s => exact .str s

theorem PlainKeys.sortsKeys {v : Val F} (h : PlainKeys v) : SortsKeys v := by
  cases v with
  | dict d =>
    show comparable (Dict.keys d) = true
    simp only [comparable, Bool.or_eq_true, List.all_eq_true]
    exact .inl h.1
  | null | bool | int | float | str | list => trivial

theorem Plain.sorts {v : Val F} (h : Plain v) : Sorts v := by
  induction h with
  | null => exact .null
  | bool b => exact .bool b
  | int z => exact .int z
  | float x => exact .float x
  | str s => exact .str s
  | list _ ih => exact .list ih
  | @dict d hkeys hnodup _ ih =>
    have hplain : PlainKeys (.dict d) := ⟨hkeys, hnodup⟩
    exact .dict hplain.sortsKeys ih

section dump

variable [FloatFormat F]

theorem encode_list_cons (level : ℕ) (x : Val F) (xs : List (Val F)) :
    (encode level (.list (x :: xs))).done =
      (x :: xs).all fun y => (encode (level + 1) y).done := by
  rw [encode]
  simp [Out.andThen_done, Out.write, Out.sepBy_done, encodeList_eq_map, Function.comp_def]

theorem encode_dict_cons (level : ℕ) (p : Key × Val F) (d : List (Key × Val F)) :
    (encode level (.dict (p :: d))).done = (comparable (Dict.keys (p :: d)) &&
      (sortItems (p :: d)).all fun q => (encode (level + 1) q.2).done) := by
  rw [encode]
  by_cases hcmp : comparable (Dict.keys (p :: d)) = true
  · rw [if_pos hcmp, hcmp, encodeItems_eq_map, sortItems_map]
    simp [Out.andThen_done, Out.write, Out.sepBy_done, Function.comp_def]
  · rw [if_neg hcmp, eq_false_of_ne_true hcmp, Bool.false_and, Out.andThen_done]
    simp [Out.raise]

/-- The writer finishes exactly on what can be sorted. -/
theorem encode_done_iff (v : Val F) : ∀ level, (encode level v).done = true ↔ Sorts v := by
  induction v using Val.induct with
  | null => exact fun _ => ⟨fun _ => .null, fun _ => rfl⟩
  | bool b => exact fun _ => ⟨fun _ => .bool b, fun _ => by cases b <;> rfl⟩
  | int z => exact fun _ => ⟨fun _ => .int z, fun _ => rfl⟩
  | float x => exact fun _ => ⟨fun _ => .float x, fun _ => rfl⟩
  | str s => exact fun _ => ⟨fun _ => .str s, fun _ => rfl⟩
  | list xs ih =>
    intro level
    cases xs with
    | nil => exact ⟨fun _ => .list (by simp), fun _ => rfl⟩
    | cons x xs =>
      rw [encode_list_cons, List.all_eq_true]
      constructor
      · intro h
        exact .list fun y hy => (ih y hy (level + 1)).mp (h y hy)
      · intro h y hy
        cases h with
        | list h => exact (ih y hy (level + 1)).mpr (h y hy)
  | dict d ih =>
    intro level
    cases d with
    | nil => exact ⟨fun _ => .dict rfl (by simp), fun _ => rfl⟩
    | cons p d =>
      have hmem : ∀ q, q ∈ sortItems (p :: d) ↔ q ∈ p :: d := fun q =>
        (perm_sortItems (p :: d)).mem_iff
      rw [encode_dict_cons, Bool.and_eq_true, List.all_eq_true]
      constructor
      · rintro ⟨hcmp, h⟩
        exact .dict hcmp fun q hq => (ih q hq (level + 1)).mp (h q ((hmem q).mpr hq))
      · intro h
        cases h with
        | dict hcmp h =>
          exact ⟨hcmp, fun q hq => (ih q ((hmem q).mp hq) (level + 1)).mpr (h q ((hmem q).mp hq))⟩

theorem dump_done_iff (v : Val F) : (dump v).done = true ↔ Sorts v := encode_done_iff v 0

/-- A text that was left off right after a brace was opened. -/
def LeftOpen (t : List Char) : Prop := ∃ front level, t = front ++ '{' :: newline level

theorem LeftOpen.prepend {t : List Char} (h : LeftOpen t) (u : List Char) : LeftOpen (u ++ t) := by
  obtain ⟨front, level, rfl⟩ := h
  exact ⟨u ++ front, level, by simp⟩

theorem leftOpen_andThen {a b : Out} (ha : a.done = false → LeftOpen a.text)
    (hb : b.done = false → LeftOpen b.text) (h : (a.andThen b).done = false) :
    LeftOpen (a.andThen b).text := by
  by_cases hdone : a.done = true
  · rw [Out.andThen_text hdone]
    rw [Out.andThen_done, hdone, Bool.true_and] at h
    exact (hb h).prepend _
  · rw [Out.andThen, if_neg hdone]
    exact ha (by simpa using hdone)

theorem leftOpen_write {t : List Char} (h : (Out.write t).done = false) :
    LeftOpen (Out.write t).text := by
  simp [Out.write] at h

theorem leftOpen_sepBy {sep : List Char} {outs : List Out}
    (hall : ∀ o ∈ outs, o.done = false → LeftOpen o.text)
    (h : (Out.sepBy sep outs).done = false) : LeftOpen (Out.sepBy sep outs).text := by
  induction outs using Out.sepBy.induct with
  | case1 => simp [Out.sepBy, Out.write] at h
  | case2 a => exact hall a (by simp) h
  | case3 a b rest ih =>
    refine leftOpen_andThen (hall a (by simp)) (fun h => ?_) h
    refine leftOpen_andThen leftOpen_write (fun h => ?_) h
    exact ih (fun o ho => hall o (List.mem_cons_of_mem a ho)) h

/-- The writer only stops there. -/
theorem leftOpen_encode (v : Val F) :
    ∀ level, (encode level v).done = false → LeftOpen (encode level v).text := by
  induction v using Val.induct with
  | null | int | float | str => exact fun _ h => leftOpen_write h
  | bool b => intro _ h; cases b <;> exact leftOpen_write h
  | list xs ih =>
    intro level h
    cases xs with
    | nil => exact leftOpen_write h
    | cons x xs =>
      rw [encode] at h ⊢
      refine leftOpen_andThen leftOpen_write (fun h => ?_) h
      refine leftOpen_andThen (fun h => leftOpen_sepBy (fun o ho hdone => ?_) h) leftOpen_write h
      rw [encodeList_eq_map] at ho
      obtain ⟨y, hy, rfl⟩ := List.mem_map.mp ho
      exact ih y hy _ hdone
  | dict d ih =>
    intro level h
    cases d with
    | nil => exact leftOpen_write h
    | cons p d =>
      rw [encode] at h ⊢
      by_cases hcmp : comparable (Dict.keys (p :: d)) = true
      · rw [if_pos hcmp] at h ⊢
        refine leftOpen_andThen leftOpen_write (fun h => ?_) h
        refine leftOpen_andThen (fun h => leftOpen_sepBy (fun o ho hdone => ?_) h) leftOpen_write h
        obtain ⟨q, hq, rfl⟩ := List.mem_map.mp ho
        rw [encodeItems_eq_map, sortItems_map] at hq
        obtain ⟨r, hr, rfl⟩ := List.mem_map.mp hq
        refine leftOpen_andThen leftOpen_write (ih r ?_ _) hdone
        exact (perm_sortItems (p :: d)).mem_iff.mp hr
      · rw [if_neg hcmp]
        exact ⟨[], level + 1, by simp [Out.andThen, Out.write, Out.raise]⟩

theorem newline_space (level : ℕ) : ∀ c ∈ newline level, isSpace c = true := by
  intro c hc
  rcases List.mem_cons.mp hc with rfl | hc
  · decide
  · rw [(List.mem_replicate.mp hc).2]
    decide

/-- What the writer left off is not a JSON text. -/
theorem load_leftOpen {t : List Char} (h : LeftOpen t) : (load t : Option (Val F)) = none := by
  by_contra hsome
  obtain ⟨v, hv⟩ := Option.ne_none_iff_exists'.mp hsome
  obtain ⟨rest, htook, hrest⟩ := load_eq_some hv
  obtain ⟨front', c, heq, hbrace, hspace⟩ := htook.ends
  obtain ⟨front, level, rfl⟩ := h
  -- The last character that is no space would have to be both.
  have hlast : ∀ {f w : List Char} {d : Char}, isSpace d = false → (∀ e ∈ w, isSpace e = true) →
      ((f ++ d :: w).reverse.dropWhile isSpace).head? = some d := by
    intro f w d hd hw
    rw [List.reverse_append, List.reverse_cons, List.append_assoc,
      List.dropWhile_append_of_pos (by simpa using hw)]
    simp [hd]
  have hrestSpace : ∀ e ∈ rest, isSpace e = true := List.dropWhile_eq_nil_iff.mp hrest
  have h₁ := hlast (f := front) (d := '{') (by decide) (newline_space level)
  rw [heq, hlast hspace hrestSpace] at h₁
  exact hbrace (Option.some.inj h₁)

end dump

/-! ## Section 4: Equality -/

/-- Equality of values, in which the order of a dictionary's items does not
    matter; a float is equal to itself. -/
inductive Same : Val F → Val F → Prop where
  | null : Same .null .null
  | bool (b : Bool) : Same (.bool b) (.bool b)
  | int (z : ℤ) : Same (.int z) (.int z)
  | float (x : PyFloat F) : Same (.float x) (.float x)
  | str (s : Str) : Same (.str s) (.str s)
  | list {xs ys : List (Val F)} (hlen : xs.length = ys.length)
      (h : ∀ (i : ℕ) (x y : Val F), xs[i]? = some x → ys[i]? = some y → Same x y) :
      Same (.list xs) (.list ys)
  | dict {d e : List (Key × Val F)} (hkeys : ∀ k, k ∈ Dict.keys d ↔ k ∈ Dict.keys e)
      (h : ∀ (k : Key) (v w : Val F), d.lookup k = some v → e.lookup k = some w → Same v w) :
      Same (.dict d) (.dict e)

/-- Two dictionaries are compared key by key. -/
theorem Same.of_lookup {d e : List (Key × Val F)}
    (h : ∀ k, d.lookup k = none ∧ e.lookup k = none ∨
      ∃ v w, d.lookup k = some v ∧ e.lookup k = some w ∧ Same v w) : Same (.dict d) (.dict e) := by
  refine .dict (fun k => ?_) fun k v w hv hw => ?_
  · rw [← not_iff_not, ← Dict.lookup_eq_none, ← Dict.lookup_eq_none]
    rcases h k with ⟨hd, he⟩ | ⟨v, w, hd, he, -⟩
    · rw [hd, he]
    · rw [hd, he]
      simp
  · rcases h k with ⟨hd, -⟩ | ⟨v', w', hd, he, hsame⟩
    · rw [hd] at hv
      cases hv
    · rw [hd] at hv
      rw [he] at hw
      rwa [← Option.some.inj hv, ← Option.some.inj hw]

theorem Same.trans {u v w : Val F} (huv : Same u v) (hvw : Same v w) : Same u w := by
  induction huv generalizing w with
  | null | bool b | int z | float x | str s => exact hvw
  | @list xs ys hlen _ ih =>
    cases hvw with
    | @list _ zs hlen' h' =>
      refine .list (hlen.trans hlen') fun i x z hx hz => ?_
      -- The element between them.
      obtain ⟨y, hy⟩ : ∃ y, ys[i]? = some y := by
        have hlt := (List.getElem?_eq_some_iff.mp hx).1
        exact ⟨ys[i], List.getElem?_eq_getElem (hlen ▸ hlt)⟩
      exact ih i x y hx hy (h' i y z hy hz)
  | @dict d e hkeys _ ih =>
    cases hvw with
    | @dict _ f hkeys' h' =>
      refine .dict (fun k => (hkeys k).trans (hkeys' k)) fun k x z hx hz => ?_
      obtain ⟨y, hy⟩ : ∃ y, e.lookup k = some y := by
        have hmem := (hkeys k).mp (Dict.mem_keys_of_mem (Dict.mem_of_lookup hx))
        rw [← Option.ne_none_iff_exists', Ne, Dict.lookup_eq_none]
        exact not_not_intro hmem
      exact ih k x y hx hy (h' k y z hy hz)

theorem Same.refl (v : Val F) : Same v v := by
  induction v using Val.induct with
  | null => exact .null
  | bool b => exact .bool b
  | int z => exact .int z
  | float x => exact .float x
  | str s => exact .str s
  | list xs ih =>
    refine .list rfl fun i x y hx hy => ?_
    rw [hx, Option.some.injEq] at hy
    exact hy ▸ ih x (List.mem_of_getElem? hx)
  | dict d ih =>
    refine .dict (fun _ => Iff.rfl) fun k x y hx hy => ?_
    rw [hx, Option.some.injEq] at hy
    exact hy ▸ ih (k, x) (Dict.mem_of_lookup hx)

theorem Same.symm {v w : Val F} (h : Same v w) : Same w v := by
  induction h with
  | null => exact .null
  | bool b => exact .bool b
  | int z => exact .int z
  | float x => exact .float x
  | str s => exact .str s
  | list hlen _ ih => exact .list hlen.symm fun i x y hx hy => ih i y x hy hx
  | dict hkeys _ ih => exact .dict (fun k => (hkeys k).symm) fun k x y hx hy => ih k y x hy hx

/-- A dictionary with string keys reads back with its items sorted. -/
theorem reload_dict_eq {d : List (Key × Val F)} (h : PlainKeys (.dict d)) :
    reload (.dict d) = .dict ((sortItems d).map fun p => (p.1, reload p.2)) := by
  have hperm := perm_sortItems d
  -- The keys are written as they are.
  have hid : (sortItems d).map (fun p => (Key.str p.1.text, reload p.2)) =
      (sortItems d).map fun p => (p.1, reload p.2) := by
    refine List.map_congr_left fun p hp => ?_
    have hstr := h.1 p.1 (Dict.mem_keys_of_mem (hperm.mem_iff.mp hp))
    obtain ⟨k, v⟩ := p
    cases k with
    | str s => rfl
    | int i => cases hstr
  have hnodup : (Dict.keys ((sortItems d).map fun p => (p.1, reload p.2))).Nodup := by
    rw [Dict.keys, List.map_map]
    exact (Dict.keys_perm hperm).nodup_iff.mpr h.2
  rw [reload, reloadItems_eq_map, sortItems_map, List.map_map]
  exact congrArg Val.dict ((congrArg Dict.ofPairs hid).trans (Dict.ofPairs_of_nodup hnodup))

theorem reload_dict {d : List (Key × Val F)} (h : PlainKeys (.dict d)) :
    ∃ e, reload (.dict d) = .dict e ∧ ∀ k, e.lookup k = (d.lookup k).map reload := by
  refine ⟨_, reload_dict_eq h, fun k => ?_⟩
  rw [Dict.lookup_map_snd, Dict.lookup_perm h.2 (perm_sortItems d).symm]

theorem Plain.same_reload {v : Val F} (h : Plain v) : Same (reload v) v := by
  induction h with
  | null => exact .null
  | bool b => exact .bool b
  | int z => exact .int z
  | float x => exact .float x
  | str s => exact .str s
  | @list xs _ ih =>
    rw [reload, reloadList_eq_map]
    refine .list (List.length_map reload) fun i x y hx hy => ?_
    rw [List.getElem?_map, hy, Option.map_some, Option.some.injEq] at hx
    exact hx ▸ ih y (List.mem_of_getElem? hy)
  | @dict d hkeys hnodup _ ih =>
    obtain ⟨e, he, hlookup⟩ := reload_dict (d := d) ⟨hkeys, hnodup⟩
    rw [he]
    refine .dict (fun k => ?_) fun k x y hx hy => ?_
    · rw [← not_iff_not, ← Dict.lookup_eq_none, ← Dict.lookup_eq_none, hlookup,
        Option.map_eq_none_iff]
    · rw [hlookup, hy, Option.map_some, Option.some.injEq] at hx
      exact hx ▸ ih (k, y) (Dict.mem_of_lookup hy)

/-- What is read back is plain. -/
theorem plain_reload (v : Val F) : Plain (reload v) := by
  induction v using Val.induct with
  | null => exact .null
  | bool b => exact .bool b
  | int z => exact .int z
  | float x => exact .float x
  | str s => exact .str s
  | list xs ih =>
    rw [reload, reloadList_eq_map]
    exact .list (by simpa using ih)
  | dict d ih =>
    rw [reload]
    refine Plain.ofPairs fun p hp => ?_
    obtain ⟨q, hq, rfl⟩ := List.mem_map.mp hp
    rw [(perm_sortItems _).mem_iff, reloadItems_eq_map] at hq
    obtain ⟨r, hr, rfl⟩ := List.mem_map.mp hq
    exact ⟨rfl, ih r hr⟩

end Json
