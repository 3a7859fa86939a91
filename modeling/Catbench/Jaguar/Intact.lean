import Catbench.Jaguar.Commands

/-! # What a failing command leaves in the file

    A command that ends with an error before it opens the file for writing
    leaves the file as it was.  After that, only `dump` can fail: on a document
    with an integer among the string keys of an object.  `set` makes such a
    document from a misplaced index, and the file is then cut off at the object;
    nothing else does (`fails_intact_iff`).
-/

open Json

namespace Jaguar

variable {F : Type} [FloatFormat F] (files : Text → File)

/-- `set` with a type, where the path ends in an index, which meets an object
    with members, and where the conversion succeeds. -/
def Clashes (F : Type) [FloatFormat F] (files : Text → File) (stdin name fname : Text)
    (args : List Text) : Prop :=
  name = "set".toList ∧ ∃ key word val, args = [key, word, val] ∧
    ∃ typ, parse_type word = .ok typ ∧ (∃ v : Val F, (typ.call files val stdin).1 = .ok v) ∧
    ∃ doc : Val F, read_document (files fname) = some doc ∧
    ∃ d, d ≠ [] ∧ MisplacedIndex doc key d

/-- `set` gives a plain document, or meets such an object, perhaps without
    members. -/
theorem set_eq_ok {doc save : Val F} {args : List Text} {stdin s' : Text} (hplain : Plain doc)
    (h : set files doc args stdin = (.ok save, s')) :
    Plain save ∨ ∃ key word val, args = [key, word, val] ∧
      ∃ typ, parse_type word = .ok typ ∧ (∃ v : Val F, (typ.call files val stdin).1 = .ok v) ∧
      ∃ d, MisplacedIndex doc key d ∧ (Sorts save ↔ d = []) := by
  rcases set_cases files h with ⟨key, val, -, h⟩ | ⟨key, word, val, typ, hargs, hword, h⟩
  -- Without a type word no index is misplaced.
  · rcases replace_levels_plain hplain h with hsave | ⟨t, d, htyp, -⟩
    · exact .inl hsave
    · cases htyp
  · rcases replace_levels_plain hplain h with hsave | ⟨t, d, ht, hmis, hcall, hsorts⟩
    · exact .inl hsave
    · obtain rfl := Option.some.inj ht
      exact .inr ⟨key, word, val, hargs, typ, hword, hcall, d, hmis, hsorts⟩

theorem action_eq_set {name : Text} (h : action name = .set) : name = "set".toList := by
  unfold action at h
  split_ifs at h with hget hinit hrem hset
  exact hset

theorem success_of_plain (fname : Text) {save : Val F} (h : Plain save) :
    (write_document files fname save).success = true :=
  (write_document_success files fname save).mpr h.sorts

/-- `set` leaves the files alone, or succeeds, or clashes. -/
theorem save_set_cases {stdin fname : Text} {args : List Text} {doc : Val F}
    (hdoc : read_document (files fname) = some doc) :
    (save_result files fname (set files doc args stdin).1).files = files ∨
    (save_result files fname (set files doc args stdin).1).success = true ∨
    Clashes F files stdin "set".toList fname args := by
  cases hset : set files doc args stdin with
  | mk res s' =>
    cases res with
    | error e => exact .inl rfl
    | ok save =>
      rcases set_eq_ok files (plain_of_read hdoc) hset with
        hsave | ⟨key, word, val, hargs, typ, hword, hcall, d, hmis, hsorts⟩
      · exact .inr (.inl (success_of_plain files fname hsave))
      -- A lone integer key can be written, as a string.
      · by_cases hd : d = []
        · exact .inr (.inl ((write_document_success files fname save).mpr (hsorts.mpr hd)))
        · exact .inr (.inr ⟨rfl, key, word, val, hargs, typ, hword, hcall, doc, hdoc, d, hd, hmis⟩)

/-- A command leaves the files alone, or succeeds, or is a `set` that clashes. -/
theorem main_cases (stdin name fname : Text) (args : List Text) :
    (main (F := F) files stdin (name :: fname :: args)).files = files ∨
    (main (F := F) files stdin (name :: fname :: args)).success = true ∨
    Clashes F files stdin name fname args := by
  unfold main
  dsimp only
  split_ifs with husage
  · exact .inl rfl
  split
  · -- `init` writes an empty object.
    exact .inr (.inl (success_of_plain files fname (.dict (by simp) (by simp) (by simp))))
  · next parsed path haction hread =>
    cases get parsed path with
    | ok v => exact .inl rfl
    | error e => exact .inl rfl
  · next parsed path haction hread =>
    cases hrem : rem parsed path with
    | ok save =>
      exact .inr (.inl (success_of_plain files fname
        (plain_delete_levels (plain_of_read hread) hrem)))
    | error e => exact .inl rfl
  · next parsed haction hread =>
    rw [action_eq_set haction]
    exact save_set_cases files hread
  · exact .inl rfl

/-- A clash fails after the file was opened, and leaves no document in it. -/
theorem Clashes.fails {stdin name fname : Text} {args : List Text}
    (h : Clashes F files stdin name fname args) :
    (main (F := F) files stdin (name :: fname :: args)).success = false ∧
      (main (F := F) files stdin (name :: fname :: args)).files fname ≠ files fname := by
  obtain ⟨rfl, key, word, val, rfl, typ, hword, ⟨v, hcall⟩, doc, hdoc, d, hd, ks, hks, hmis⟩ := h
  have hplain := plain_of_read hdoc
  obtain ⟨save, hsave⟩ : ∃ save, replace_levels files val true (some typ) doc
      (subscriptsfrompath key) stdin = (.ok save, (typ.call files val stdin).2) :=
    misplaced_ok hks hmis (Prod.ext hcall rfl)
  obtain ⟨t, w, hreplaced⟩ := replace_levels_eq_ok hks (splitAt_ne_nil _ _) hsave
  -- The command reaches `dump`, which cannot finish.
  have hsorts := hreplaced.puts.not_sorts hplain hmis hd
  have hset : (set files doc [key, word, val] stdin).1 = .ok save := by
    rw [set, hword]
    exact congrArg Prod.fst hsave
  rw [main_set files stdin fname _ hdoc, hset]
  refine ⟨?_, fun heq => ?_⟩
  · rw [← Bool.not_eq_true]
    exact fun hsuccess => hsorts ((write_document_success files fname save).mp hsuccess)
  · have hread := read_left_off files fname hsorts
    have hsame : (write_document files fname save).files fname = files fname := heq
    rw [hsame, hdoc] at hread
    cases hread

end Jaguar
