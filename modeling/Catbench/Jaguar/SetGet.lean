import Catbench.Jaguar.Commands

/-! # `set`, then `get`

    After a successful `set` with a type word, `get` on the same path prints the
    value that was set, unless

    * the path ends in the token `]`, which appends a CSV file instead, or
    * it ends in an index that met an empty object: the object gets an integer
      key, which the file has as a string.
-/

open Json

namespace Jaguar

variable {F : Type} [FloatFormat F]

/-- A scalar that is given as an argument is converted without a look at standard
    input. -/
theorem call_scalar {typ : Typ} {val : Text} (htyp : typ ≠ .array) (hval : val ≠ ['-'])
    (files : Text → File) (s s' : Text) :
    ((typ.call files val s).1 : Except Exn (Val F)) = (typ.call files val s').1 := by
  cases typ with
  -- Only `-` would be read from there.
  | string =>
    have hpure : (stringorstdin val : Py Text) = pure val := if_pos hval
    show ((stringorstdin val >>= fun t => pure (.str (Str.ofText t)) : Py (Val F)) s).1 =
      ((stringorstdin val >>= fun t => pure (.str (Str.ofText t)) : Py (Val F)) s').1
    rw [hpure]
    rfl
  | integer =>
    simp only [Typ.call, Typ.scalar]
    cases int val <;> rfl
  | fraction =>
    simp only [Typ.call, Typ.scalar]
    cases (FloatFormat.float val : Option (PyFloat F)) <;> rfl
  | boolean =>
    simp only [Typ.call, Typ.scalar]
    split_ifs <;> rfl
  | dict =>
    simp only [Typ.call, Typ.scalar]
    split_ifs <;> rfl
  | array => exact absurd rfl htyp
  | none_type => rfl

theorem reload_scalar {typ : Typ} {val s s' : Text} {v : Val F} {files : Text → File}
    (htyp : typ ≠ .array) (h : typ.call files val s = (.ok v, s')) : reload v = v := by
  unfold Typ.call at h
  split at h
  · exact absurd rfl htyp
  · exact (scalar_eq_ok h).2

/-- **Set, then get.**  After a successful `set` with a type word of a scalar and
    a value other than `-`, `get` prints the value exactly if the path does not
    end in the token `]` and in no index that met an empty object. -/
theorem set_get_iff (files : Text → File) (stdin stdin' fname key word val : Text) (typ : Typ)
    (doc : Val F) (hdoc : read_document (files fname) = some doc)
    (hword : parse_type word = .ok typ) (htyp : typ ≠ .array) (hval : val ≠ ['-'])
    (hset : (main (F := F) files stdin ["set".toList, fname, key, word, val]).success = true) :
    (∃ v : Val F, (typ.call files val stdin).1 = .ok v ∧
      main (main (F := F) files stdin ["set".toList, fname, key, word, val]).files stdin'
          ["get".toList, fname, key] =
        { success := true
          files := (main (F := F) files stdin ["set".toList, fname, key, word, val]).files
          printed := some v }) ↔
      (subscriptsfrompath key).getLast? ≠ some [']'] ∧ ¬MisplacedIndex doc key [] := by
  obtain ⟨doc', s', hset', hsorts, hread⟩ := main_set_success files hdoc hset
  have hplain := plain_of_read hdoc
  simp only [get_prints _ hread]
  -- `set` with three arguments is a replacement of the given type.
  have hreplace : replace_levels files val true (some typ) doc (subscriptsfrompath key) stdin =
      (.ok doc', s') := by
    rw [set, hword] at hset'
    exact hset'
  constructor
  · rintro ⟨v, -, ks, hks, hv⟩
    refine ⟨fun hlast => ?_, ?_⟩
    · rw [pathsubscripts, subscripts_of_append hlast] at hks
      cases hks
    · rintro ⟨ks', hks', hmis⟩
      obtain rfl := Option.some.inj (hks.symm.trans hks')
      obtain ⟨t, w, hreplaced⟩ := replace_levels_eq_ok hks (splitAt_ne_nil _ _) hreplace
      rw [hreplaced.puts.resolve_reload_misplaced hplain hmis] at hv
      cases hv
  · rintro ⟨hlast, hmis⟩
    cases hks : pathsubscripts key with
    | none => exact absurd (append_of_subscripts hks hreplace).1 hlast
    | some ks =>
      obtain ⟨t, v, hreplaced⟩ := replace_levels_eq_ok hks (splitAt_ne_nil _ _) hreplace
      obtain ⟨s₁, s₂, hcall, -⟩ := hreplaced.call
      obtain rfl : typ = t := by
        rcases hreplaced.inferred with htyp | ⟨hnone, -⟩
        · exact Option.some.inj htyp
        · cases hnone
      -- An object with members would have kept the file from being written.
      have hmis' : ∀ d, ¬Misplaced doc ks d := by
        intro d hd
        by_cases hne : d = []
        · exact hmis ⟨ks, hks, hne ▸ hd⟩
        · exact hreplaced.puts.not_sorts hplain hd hne hsorts
      have hplain' := hreplaced.puts.plain hplain (plain_call hcall) hmis'
      refine ⟨v, ?_, ks, rfl, ?_⟩
      · rw [call_scalar htyp hval files stdin s₁, hcall]
      · rw [resolve_reload hplain', hreplaced.puts.resolve_eq, Option.map_some,
          reload_scalar htyp hcall]

/-- An object with one member, an empty object. -/
def emptyMember : Val Whole := .dict [(.str (Str.ofText ['a']), .dict [])]

theorem set_get_iff_member :
    ∃ v : Val Whole, (Typ.string.call (fileOf ['f'] emptyMember) ['x'] []).1 = .ok v ∧
      main (main (F := Whole) (fileOf ['f'] emptyMember) []
          ["set".toList, ['f'], "a.b".toList, "string".toList, ['x']]).files []
          ["get".toList, ['f'], "a.b".toList] =
        { success := true
          files := (main (F := Whole) (fileOf ['f'] emptyMember) []
            ["set".toList, ['f'], "a.b".toList, "string".toList, ['x']]).files
          printed := some v } := by
  have hdone : (dump emptyMember).done = true := by decide
  have hdoc : read_document (fileOf ['f'] emptyMember ['f']) = some emptyMember := load_dump hdone
  refine (set_get_iff _ [] [] ['f'] "a.b".toList "string".toList ['x'] .string emptyMember hdoc rfl
    (by decide) (by decide) (by decide)).mpr ⟨by decide, ?_⟩
  rintro ⟨ks, hks, pre, i, rfl, -⟩
  have hsub : pathsubscripts "a.b".toList =
      some [.str (Str.ofText ['a']), .str (Str.ofText ['b'])] := by decide
  have hlast := congrArg List.getLast? (Option.some.inj (hsub.symm.trans hks))
  simp at hlast

/-- What was set as `[0]` of the empty object is not found. -/
theorem set_get_empty_object :
    (main (F := Whole) (fileOf ['f'] emptyMember) []
        ["set".toList, ['f'], "a[0]".toList, "string".toList, ['x']]).success = true ∧
    (main (F := Whole) (main (F := Whole) (fileOf ['f'] emptyMember) []
        ["set".toList, ['f'], "a[0]".toList, "string".toList, ['x']]).files []
        ["get".toList, ['f'], "a[0]".toList]).success = false := by
  decide

end Jaguar
