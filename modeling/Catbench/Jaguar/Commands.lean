import Catbench.Jaguar.Replace

/-! # Commands

    What the commands make of a document that was read from the file, and what
    is in the file afterwards.  `rem` and the append form of `set` keep a
    document plain; `set` with a misplaced index goes through (`misplaced_ok`);
    after a successful `set`, the file reads as the new document
    (`main_set_success`).
-/

open Json

namespace Jaguar

variable {F : Type}

/-! ## Section 1: Removing -/

theorem delitem_cases {ref ref' : Val F} {k : Key} (h : delitem ref k = .ok ref') :
    (∃ d, ref = .dict d ∧ ref' = .dict (Dict.erase k d)) ∨
    (∃ xs i n, ref = .list xs ∧ k = .int i ∧ position xs.length i = some n ∧
      ref' = .list (xs.eraseIdx n)) := by
  cases ref with
  | dict d =>
    rw [delitem] at h
    split_ifs at h
    exact .inl ⟨d, rfl, (Except.ok.inj h).symm⟩
  | list xs =>
    cases k with
    | str s => cases h
    | int i =>
      rw [delitem] at h
      cases hn : position xs.length i with
      | none =>
        rw [hn] at h
        cases h
      | some n =>
        rw [hn] at h
        exact .inr ⟨xs, i, n, rfl, rfl, hn, (Except.ok.inj h).symm⟩
  | null | bool b | int z | float x | str s => cases h

theorem plain_delitem {ref ref' : Val F} {k : Key} (hplain : Plain ref)
    (h : delitem ref k = .ok ref') : Plain ref' := by
  rcases delitem_cases h with ⟨d, rfl, rfl⟩ | ⟨xs, i, n, rfl, -, -, rfl⟩
  -- What is left over was there before.
  · cases hplain with
    | dict hkeys hnodup hall =>
      refine .dict (fun k' hk' => ?_) (Dict.nodup_erase hnodup)
        fun p hp => hall p (Dict.mem_erase hp)
      obtain ⟨p, hp, rfl⟩ := List.mem_map.mp hk'
      exact hkeys p.1 (Dict.mem_keys_of_mem (Dict.mem_erase hp))
  · cases hplain with
    | list hall => exact .list fun x hx => hall x (List.mem_of_mem_eraseIdx hx)

/-- An element that is there can be replaced by a plain one. -/
theorem plain_setitem {ref old v ref' : Val F} {k : Key} (hplain : Plain ref) (hv : Plain v)
    (hold : getitem ref k = .ok old) (h : setitem ref k v = .ok ref') : Plain ref' :=
  plain_assign hplain hv (Puts.isStr_of_kind hplain.plainKeys (.inl ⟨old, hold⟩))
    (assign_of_setitem h)

theorem plain_delete_levels {ref ref' : Val F} {levels : List Text} (hplain : Plain ref)
    (h : delete_levels ref levels = .ok ref') : Plain ref' := by
  induction levels generalizing ref ref' with
  | nil =>
    obtain rfl := Except.ok.inj h
    exact hplain
  | cons level levels ih =>
    cases hk : indexfromsubscript level with
    -- An ill-formed token, last or not.
    | error e => cases levels <;> simp [delete_levels, hk] at h
    | ok k =>
      cases levels with
      | nil =>
        rw [delete_levels, hk] at h
        exact plain_delitem hplain h
      | cons next levels =>
        rw [delete_levels, hk] at h
        dsimp only at h
        cases hv : getitem ref k with
        | error e =>
          rw [hv] at h
          cases h
        | ok v =>
          rw [hv] at h
          dsimp only at h
          cases hdel : delete_levels v (next :: levels) with
          | error e =>
            rw [hdel] at h
            cases h
          | ok v' =>
            rw [hdel] at h
            exact plain_setitem hplain (ih (plain_getitem hplain hv) hdel) hv h

/-! ## Section 2: The append form -/

/-- The append token is not a subscript. -/
theorem subscripts_of_append {levels : List Text} (h : levels.getLast? = some [']']) :
    subscripts levels = none := by
  induction levels with
  | nil => cases h
  | cons level levels ih =>
    cases levels with
    | nil =>
      obtain rfl : level = [']'] := by simpa using h
      rfl
    | cons next levels =>
      rw [List.getLast?_cons_cons] at h
      rw [subscripts, ih h]
      cases indexfromsubscript level with
      | error e => rfl
      | ok k => rfl

theorem plain_ensure_container {first : Bool} {typ : Option Typ} {ref ref₁ : Val F} {k : Key}
    {next : Text} (hplain : Plain ref) (h : ensure_container first typ ref k next = .ok ref₁) :
    Plain ref₁ := by
  have hadd : add_container first typ ref k next = .ok ref₁ → Plain ref₁ := by
    intro hadd
    -- A new container needs a next subscript that is well-formed.
    cases hnext : indexfromsubscript next with
    | error e =>
      unfold add_container at hadd
      rw [hnext] at hadd
      split_ifs at hadd
    | ok knext =>
      obtain ⟨hsuits, -, hassign⟩ := add_container_eq_ok hnext hadd
      exact plain_assign hplain (plain_fresh knext) (isStr_of_suits hsuits) hassign
  unfold ensure_container at h
  cases hget : getitem ref k with
  | error e =>
    rw [hget] at h
    cases e with
    | type_error => cases h
    | value_error | lookup_error | exit => exact hadd h
  | ok v =>
    rw [hget] at h
    dsimp only at h
    split_ifs at h with hv
    · obtain rfl := Except.ok.inj h
      exact hplain
    · exact hadd h

section replace

variable [FloatFormat F] {files : Text → File} {replace : Text}

theorem plain_append_last {ref ref' : Val F} {s s' : Text} (hplain : Plain ref)
    (h : append_last files replace ref s = (.ok ref', s')) : Plain ref' := by
  cases ref with
  | list xs =>
    obtain ⟨res, s₁, hres, h⟩ := Py.bind_eq_ok.mp h
    rw [Py.attempt_eq_ok] at hres
    cases res with
    | error e => cases e <;> exact absurd h Py.raise_ne_ok
    | ok ys =>
      obtain ⟨rfl, -⟩ := Py.pure_eq_ok.mp h
      cases hplain with
      | list hall =>
        refine .list fun x hx => ?_
        rcases List.mem_append.mp hx with hx | hx
        · exact hall x hx
        · exact plain_arrayfromcsv hres x hx
  | null | bool b | int z | float x | str s | dict d => exact absurd h Py.raise_ne_ok

/-- Without a list of subscripts, only the append form succeeds. -/
theorem append_of_subscripts {first : Bool} {typ : Option Typ} {ref ref' : Val F}
    {levels : List Text} {s s' : Text} (hks : subscripts levels = none)
    (h : replace_levels files replace first typ ref levels s = (.ok ref', s')) :
    levels.getLast? = some [']'] ∧ (Plain ref → Plain ref') := by
  induction levels generalizing first ref ref' with
  | nil => cases hks
  | cons level levels ih =>
    cases hk : indexfromsubscript level with
    | error e =>
      cases levels with
      | nil =>
        rw [replace_levels, hk] at h
        -- Of the ill-formed tokens only `]` is taken, and only at the end.
        dsimp only at h
        split_ifs at h with hlevel
        · exact ⟨by rw [hlevel]; rfl, fun hplain => plain_append_last hplain h⟩
        · exact absurd h Py.raise_ne_ok
      | cons next levels =>
        rw [replace_levels, hk] at h
        exact absurd h Py.raise_ne_ok
    | ok k =>
      rw [subscripts, hk, Option.map_eq_none_iff] at hks
      cases levels with
      | nil => cases hks
      | cons next levels =>
        obtain ⟨ref₁, inner, inner', hensure, hget, hinner, hset⟩ := (replace_levels_level hk).mp h
        obtain ⟨hlast, hplain'⟩ := ih hks hinner
        refine ⟨by rwa [List.getLast?_cons_cons], fun hplain => ?_⟩
        have hplain₁ := plain_ensure_container hplain hensure
        exact plain_setitem hplain₁ (hplain' (plain_getitem hplain₁ hget)) hget hset

/-! ## Section 3: A misplaced index -/

/-- The path ends in an index, and leads to the object `d` before it. -/
def MisplacedIndex (doc : Val F) (path : Text) (d : List (Key × Val F)) : Prop :=
  ∃ ks, pathsubscripts path = some ks ∧ Misplaced doc ks d

/-- What the last token makes of a container that is there: the levels on the way
    are left as they are. -/
theorem replace_levels_last {first : Bool} {typ : Option Typ} {ref c c' : Val F}
    {levels : List Text} {last : Text} {pre : List Key} {s s' : Text}
    (hks : subscripts levels = some pre) (hc : resolve ref pre = some c) (hcont : Container c)
    (hlast : ∀ first, replace_levels files replace first typ c [last] s = (.ok c', s')) :
    ∃ ref', replace_levels files replace first typ ref (levels ++ [last]) s = (.ok ref', s') ∧
      resolve ref' pre = some c' := by
  induction levels generalizing first ref pre with
  | nil =>
    obtain rfl := Option.some.inj hks
    obtain rfl := Option.some.inj hc
    exact ⟨c', hlast first, rfl⟩
  | cons level levels ih =>
    obtain ⟨k, ks, hk, hks', rfl⟩ := subscripts_cons.mp hks
    obtain ⟨u, hu, hc⟩ := resolve_cons.mp hc
    have hcontu : Container u := container_of_resolve hc hcont
    obtain ⟨inner, hinner, hres⟩ : ∃ inner, replace_levels files replace false typ u
        (levels ++ [last]) s = (.ok inner, s') ∧ _ := ih hks' hc
    obtain ⟨ref', hset⟩ := setitem_of_getitem hu (by rintro t rfl; cases hcontu) inner
    obtain ⟨next, rest, heq⟩ : ∃ next rest, levels ++ [last] = next :: rest :=
      List.exists_cons_of_ne_nil (by simp)
    have hensure : ensure_container first typ ref k next = .ok ref := by
      rw [ensure_container, hu]
      exact if_pos hcontu
    rw [heq] at hinner
    rw [List.cons_append, heq]
    refine ⟨ref', (replace_levels_level hk).mpr ⟨ref, u, inner, hensure, hu, hinner, hset⟩, ?_⟩
    exact resolve_cons.mpr ⟨inner, getitem_setitem hset, hres⟩

/-- A conversion that succeeds, an assignment, and the element that is found. -/
theorem replace_levels_assign {first : Bool} {t : Typ} {ref c c' v w : Val F} {levels : List Text}
    {pre : List Key} {k : Key} {s s' : Text} (hks : subscripts levels = some (pre ++ [k]))
    (hc : resolve ref pre = some c) (hcont : Container c)
    (hcall : t.call files replace s = (.ok v, s'))
    (hassign : elementassignormaybeappend c k v = .ok c') (hget : getitem c' k = .ok w) :
    ∃ ref', replace_levels files replace first (some t) ref levels s = (.ok ref', s') ∧
      resolve ref' pre = some c' := by
  obtain ⟨levels, last, rfl, hpre, hk⟩ := subscripts_eq_append hks
  refine replace_levels_last hpre hc hcont fun first => ?_
  rw [replace_levels, hk]
  show convert_last files replace first t c k s = _
  rw [convert_last, Py.bind_ok (Py.attempt_eq_ok.mpr hcall)]
  dsimp only
  rw [hassign]
  dsimp only
  rw [hget]
  rfl

/-- Nothing keeps `pathlookup` from adding an index to an object. -/
theorem misplaced_ok {first : Bool} {t : Typ} {ref v : Val F} {levels : List Text}
    {ks : List Key} {d : List (Key × Val F)} {s s' : Text} (hks : subscripts levels = some ks)
    (hmis : Misplaced ref ks d) (hcall : t.call files replace s = (.ok v, s')) :
    ∃ ref', replace_levels files replace first (some t) ref levels s = (.ok ref', s') := by
  obtain ⟨pre, i, rfl, hpre⟩ := hmis
  -- The assignment to a dictionary does not raise, so no handler runs.
  have hget : getitem (.dict (Dict.insert (.int i) v d)) (.int i) = .ok v :=
    getitem_dict.mpr (Dict.lookup_insert_self (.int i) v d)
  obtain ⟨ref', h, -⟩ : ∃ ref', replace_levels files replace first (some t) ref levels s =
      (.ok ref', s') ∧ _ := replace_levels_assign hks hpre rfl hcall rfl hget
  exact ⟨ref', h⟩

/-- A replacement gives a plain document, or it was made with a type at a
    misplaced index; then it can be written only if the object was empty. -/
theorem replace_levels_plain {typ : Option Typ} {doc save : Val F} {path s s' : Text}
    (hplain : Plain doc)
    (h : replace_levels files replace true typ doc (subscriptsfrompath path) s = (.ok save, s')) :
    Plain save ∨ ∃ t d, typ = some t ∧ MisplacedIndex doc path d ∧
      (∃ v : Val F, (t.call files replace s).1 = .ok v) ∧ (Sorts save ↔ d = []) := by
  cases hks : pathsubscripts path with
  | none => exact .inl ((append_of_subscripts hks h).2 hplain)
  | some ks =>
    obtain ⟨t, v, ⟨s₁, s₂, hcall, hfirst⟩, htyp, hputs⟩ :=
      replace_levels_eq_ok hks (splitAt_ne_nil _ _) h
    by_cases hmis : ∃ d, Misplaced doc ks d
    · obtain ⟨d, hd⟩ := hmis
      refine .inr ⟨t, d, ?_, ⟨ks, hks, hd⟩, ⟨v, ?_⟩, ?_⟩
      -- An inferred type needs an element, and there is none.
      · rcases htyp with htyp | ⟨-, old, hold, -⟩
        · exact htyp
        · exact absurd hold (hd.resolve_ne hplain old)
      · rw [← hfirst d hd, hcall]
      · constructor
        · intro hsorts
          by_contra hne
          exact hputs.not_sorts hplain hd hne hsorts
        · rintro rfl
          exact hputs.sorts hplain (plain_call hcall).sorts hd
    · exact .inl (hputs.plain hplain (plain_call hcall) fun d hd => hmis ⟨d, hd⟩)

end replace

/-! ## Section 4: `main` -/

section main

variable [FloatFormat F] (files : Text → File)

/-- There is one file, in which a document was written. -/
def fileOf (fname : Text) (doc : Val F) : Text → File := fun n =>
  if n = fname then .text ((dump doc).text ++ ['\n']) else .missing

theorem plain_of_read {file : File} {doc : Val F} (h : read_document file = some doc) :
    Plain doc := by
  cases file with
  | missing | undecodable => cases h
  | text t => exact plain_of_load h

theorem write_document_success (fname : Text) (save : Val F) :
    (write_document files fname save).success = true ↔ Sorts save := dump_done_iff save

/-- A document that can be written is read back. -/
theorem read_written (fname : Text) {save : Val F} (h : Sorts save) :
    read_document ((write_document files fname save).files fname) = some (reload save) := by
  have hdone := (dump_done_iff save).mpr h
  simp only [write_document, Function.update_self, hdone, if_true, read_document]
  exact load_dump hdone

/-- What is left of one that cannot be written is no document. -/
theorem read_left_off (fname : Text) {save : Val F} (h : ¬Sorts save) :
    (read_document ((write_document files fname save).files fname) : Option (Val F)) = none := by
  have hdone : (dump save).done = false := by
    rw [← Bool.not_eq_true, dump_done_iff]
    exact h
  simp only [write_document, Function.update_self, hdone, read_document]
  exact load_leftOpen (leftOpen_encode save 0 hdone)

/-- `set` replaces, with a type word or without. -/
theorem set_cases {doc save : Val F} {args : List Text} {stdin s' : Text}
    (h : set files doc args stdin = (.ok save, s')) :
    (∃ key val, args = [key, val] ∧
      replace_levels files val true none doc (subscriptsfrompath key) stdin = (.ok save, s')) ∨
    (∃ key word val typ, args = [key, word, val] ∧ parse_type word = .ok typ ∧
      replace_levels files val true (some typ) doc (subscriptsfrompath key) stdin =
        (.ok save, s')) := by
  unfold set at h
  split at h
  · next key val => exact .inl ⟨key, val, rfl, h⟩
  · next key word val =>
    obtain ⟨typ, s₁, htyp, h⟩ := Py.bind_eq_ok.mp h
    obtain ⟨hword, rfl⟩ := Py.ofExcept_eq_ok.mp htyp
    exact .inr ⟨key, word, val, typ, rfl, hword, h⟩
  · exact absurd h Py.raise_ne_ok

/-- The path is the first argument of `set`. -/
theorem set_replaces {doc save : Val F} {path : Text} {args : List Text} {stdin s' : Text}
    (h : set files doc (path :: args) stdin = (.ok save, s')) :
    ∃ val typ, replace_levels files val true typ doc (subscriptsfrompath path) stdin =
      (.ok save, s') := by
  rcases set_cases files h with ⟨key, val, hargs, h'⟩ | ⟨key, word, val, typ, hargs, -, h'⟩
  · cases hargs
    exact ⟨val, none, h'⟩
  · cases hargs
    exact ⟨val, some typ, h'⟩

theorem main_get (stdin fname path : Text) {doc : Val F}
    (hdoc : read_document (files fname) = some doc) :
    main files stdin ["get".toList, fname, path] = print_result files (get doc path) := by
  have haction : action "get".toList = .get := by decide
  generalize "get".toList = name at haction ⊢
  simp only [main, haction, hdoc, Action.minargs, Action.maxargs]
  exact if_neg (by simp)

theorem main_rem (stdin fname path : Text) {doc : Val F}
    (hdoc : read_document (files fname) = some doc) :
    main files stdin ["rem".toList, fname, path] = save_result files fname (rem doc path) := by
  have haction : action "rem".toList = .rem := by decide
  generalize "rem".toList = name at haction ⊢
  simp only [main, haction, hdoc, Action.minargs, Action.maxargs]
  exact if_neg (by simp)

/-- `get` on the file that holds a document. -/
theorem get_prints {stdin fname path : Text} {doc v : Val F}
    (hdoc : read_document (files fname) = some doc) :
    main files stdin ["get".toList, fname, path] =
        { success := true, files, printed := some v } ↔
      ∃ ks, pathsubscripts path = some ks ∧ resolve doc ks = some v := by
  rw [main_get files stdin fname path hdoc, ← get_eq_ok]
  cases get doc path with
  | error e => simp [print_result, Outcome.fail]
  | ok w => simp [print_result]

theorem main_set (stdin fname : Text) (args : List Text) {doc : Val F}
    (hdoc : read_document (files fname) = some doc) :
    main files stdin ("set".toList :: fname :: args) =
      save_result files fname (set files doc args stdin).1 := by
  have haction : action "set".toList = .set := by decide
  generalize "set".toList = name at haction ⊢
  simp only [main, haction, hdoc, Action.minargs, Action.maxargs]
  -- `set` would not accept another number of arguments either.
  by_cases hlen : args.length < 2 ∨ 3 < args.length
  · have hset : (set files doc args stdin).1 = .error .exit := by
      unfold set
      split
      · simp at hlen
      · simp at hlen
      · rfl
    rw [hset]
    exact if_pos (.inr hlen)
  · exact if_neg (not_or.mpr ⟨nofun, hlen⟩)

/-- After a successful `set` the file holds the new document. -/
theorem main_set_success {stdin fname : Text} {args : List Text} {doc : Val F}
    (hdoc : read_document (files fname) = some doc)
    (h : (main (F := F) files stdin ("set".toList :: fname :: args)).success = true) :
    ∃ doc' s', set files doc args stdin = (.ok doc', s') ∧ Sorts doc' ∧
      read_document ((main (F := F) files stdin ("set".toList :: fname :: args)).files fname) =
        some (reload doc') := by
  rw [main_set files stdin fname args hdoc] at h ⊢
  cases hset : set files doc args stdin with
  | mk res s' =>
    cases res with
    | error e =>
      rw [hset] at h
      cases h
    | ok doc' =>
      rw [hset] at h
      have hsorts := (write_document_success files fname doc').mp h
      exact ⟨doc', s', rfl, hsorts, read_written files fname hsorts⟩

end main

end Jaguar
