import Catbench.Jaguar.Csv

/-! # Converting twice

    When an assignment raises `LookupError`, or the conversion itself does,
    `pathlookup` converts the text a second time, with what is left of standard
    input.  A conversion that fails leaves all of it or nothing (`Drains`), and
    whether one succeeds does not depend on it (`Steady`), so one that failed
    fails again (`call_fails_again`).
-/

open Json

namespace Jaguar

variable {F : Type}

/-! ## Section 1: What is left of standard input -/

/-- A computation reads all of standard input, or nothing. -/
def Drains {α : Type} (x : Py α) : Prop := ∀ s, (x s).2 = s ∨ (x s).2 = []

theorem drains_raise {α : Type} (e : Exn) : Drains (Py.raise e : Py α) := fun _ => .inl rfl

theorem drains_pure {α : Type} (a : α) : Drains (pure a : Py α) := fun _ => .inl rfl

theorem drains_bind {α β : Type} {x : Py α} {f : α → Py β} (hx : Drains x)
    (hf : ∀ a, Drains (f a)) : Drains (x >>= f) := by
  intro s
  have hxs := hx s
  cases hres : x s with
  | mk res s' =>
    rw [hres] at hxs
    cases res with
    | error e =>
      rw [Py.bind_error hres]
      exact hxs
    | ok a =>
      rw [Py.bind_ok hres]
      rcases hxs with rfl | rfl
      · exact hf a _
      · exact .inr ((hf a []).elim (fun h => h) (fun h => h))

theorem drains_parse_types (words : List Text) : Drains (parse_types words) := by
  induction words with
  | nil => exact drains_pure _
  | cons word words ih =>
    rw [parse_types]
    exact drains_bind (fun _ => .inl rfl) fun typ => drains_bind ih fun types => drains_pure _

theorem drains_line (lines : List Text) (i : ℕ) : Drains (line lines i) := by
  unfold line
  cases lines[i]? with
  | none => exact drains_raise _
  | some t => exact drains_pure _

/-- Both ways of packing leave standard input alone. -/
theorem drains_pack (unstructured : Prop) [Decidable unstructured] (keys : List Text)
    (vs : List (Val F)) :
    Drains ((if unstructured then dontpackunstructured keys else actuallypackstructured keys) vs) := by
  split
  · unfold dontpackunstructured
    split
    · exact drains_raise _
    · exact drains_pure _
    · exact drains_raise _
  · exact drains_pure _

section cells

variable [FloatFormat F]

theorem drains_scalar (typ : Typ) (t : Text) : Drains (typ.scalar t : Py (Val F)) := by
  intro s
  by_cases hreads : Reads typ t
  · rw [scalar_of_reads hreads]
    exact .inr rfl
  · rw [scalar_of_not_reads hreads]
    exact .inl rfl

theorem drains_convertcells (types : List Typ) (xs : List Text) :
    Drains (convertcells types xs : Py (List (Val F))) := by
  induction types, xs using convertcells.induct with
  | case1 types =>
    rw [convertcells]
    exact drains_pure _
  | case2 x xs => exact drains_raise _
  | case3 typ types x xs ih =>
    rw [convertcells]
    exact drains_bind (drains_scalar typ x) fun v => drains_bind ih fun vs => drains_pure _

theorem drains_packlines {pack : List (Val F) → Py (Val F)} (hpack : ∀ vs, Drains (pack vs))
    (types : List Typ) (lines : List Text) : Drains (packlines pack types lines) := by
  induction lines with
  | nil => exact drains_pure _
  | cons line lines ih =>
    rw [packlines]
    exact drains_bind (drains_convertcells types _) fun values =>
      drains_bind (hpack values) fun v => drains_bind ih fun vs => drains_pure _

/-- The steps after the lines were read. -/
def decodelines (lines : List Text) : Py (List (Val F)) := do
  let first ← line lines 0
  let unstructured := strip isspace first = "unstructured".toList
  let lines := if unstructured then lines.drop 1 else lines
  let firstvalueline := if unstructured then 1 else 2
  let header ← line lines 0
  let types ← parse_types (cells header)
  if .array ∈ types then Py.raise .exit
  else do
    let keys ← line lines 1
    let pack := if unstructured then dontpackunstructured (cells keys)
      else actuallypackstructured (cells keys)
    packlines pack types (lines.drop firstvalueline)

theorem arrayfromcsv_eq_decodelines (files : Text → File) (fname : Text) :
    (arrayfromcsv files fname : Py (List (Val F))) = csvlines files fname >>= decodelines := rfl

theorem drains_decodelines (lines : List Text) : Drains (decodelines lines : Py (List (Val F))) := by
  refine drains_bind (drains_line _ _) fun first => drains_bind (drains_line _ _) fun header =>
    drains_bind (drains_parse_types _) fun types => ?_
  split
  · exact drains_raise _
  · exact drains_bind (drains_line _ _) fun keys => drains_packlines (drains_pack _ _) _ _

end cells

/-! ## Section 2: Success -/

/-- Where `x` succeeds, `y` does with any standard input, with a related result. -/
def Steady {α : Type} (rel : α → α → Prop) (x y : Py α) : Prop :=
  ∀ s r a s', x s = (.ok a, s') → ∃ b r', y r = (.ok b, r') ∧ rel a b

theorem steady_pure {α : Type} {rel : α → α → Prop} {a b : α} (h : rel a b) :
    Steady rel (pure a) (pure b) := by
  intro s r a' s' hok
  obtain ⟨rfl, -⟩ := Py.pure_eq_ok.mp hok
  exact ⟨b, r, rfl, h⟩

theorem steady_raise {α : Type} (rel : α → α → Prop) (e : Exn) (y : Py α) :
    Steady rel (Py.raise e) y := fun _ _ _ _ h => absurd h Py.raise_ne_ok

theorem steady_bind {α β : Type} {rel : α → α → Prop} {rel' : β → β → Prop} {x y : Py α}
    {f g : α → Py β} (hxy : Steady rel x y) (hfg : ∀ a b, rel a b → Steady rel' (f a) (g b)) :
    Steady rel' (x >>= f) (y >>= g) := by
  intro s r c s' h
  obtain ⟨a, s₁, hx, hf⟩ := Py.bind_eq_ok.mp h
  obtain ⟨b, r₁, hy, hab⟩ := hxy s r a s₁ hx
  obtain ⟨d, r₂, hg, hcd⟩ := hfg a b hab s₁ r₁ c s' hf
  exact ⟨d, r₂, (Py.bind_ok hy).trans hg, hcd⟩

/-- Some result or other. -/
def Any {α : Type} (_ _ : α) : Prop := True

def SameLength {α : Type} (xs ys : List α) : Prop := xs.length = ys.length

/-- Whether a record is made only depends on the number of its values. -/
theorem steady_pack (unstructured : Prop) [Decidable unstructured] (keys : List Text)
    {vs ws : List (Val F)} (hlen : SameLength vs ws) :
    Steady Any ((if unstructured then dontpackunstructured keys else actuallypackstructured keys) vs)
      ((if unstructured then dontpackunstructured keys else actuallypackstructured keys) ws) := by
  split
  · match vs, ws, hlen with
    | [], _, _ => exact steady_raise _ _ _
    | [_], [_], _ => exact steady_pure trivial
    | _ :: _ :: _, _, _ => exact steady_raise _ _ _
  · exact steady_pure trivial

variable [FloatFormat F]

theorem steady_scalar (typ : Typ) (t : Text) :
    Steady Any (typ.scalar t : Py (Val F)) (typ.scalar t) := by
  intro s r v s' h
  by_cases hreads : Reads typ t
  · exact ⟨_, _, scalar_of_reads hreads r, trivial⟩
  · rw [scalar_of_not_reads hreads, Prod.mk.injEq] at h
    exact ⟨v, r, (scalar_of_not_reads hreads r).trans (Prod.ext h.1 rfl), trivial⟩

theorem steady_convertcells (types : List Typ) (xs : List Text) :
    Steady SameLength (convertcells types xs : Py (List (Val F))) (convertcells types xs) := by
  induction types, xs using convertcells.induct with
  | case1 types =>
    rw [convertcells]
    exact steady_pure rfl
  | case2 x xs => exact steady_raise _ _ _
  | case3 typ types x xs ih =>
    rw [convertcells]
    refine steady_bind (steady_scalar typ x) fun v w _ => steady_bind ih fun vs ws hlen => ?_
    exact steady_pure (congrArg (· + 1) hlen)

theorem steady_packlines {pack : List (Val F) → Py (Val F)}
    (hpack : ∀ vs ws, SameLength vs ws → Steady Any (pack vs) (pack ws)) (types : List Typ)
    (lines : List Text) : Steady Any (packlines pack types lines) (packlines pack types lines) := by
  induction lines with
  | nil => exact steady_pure trivial
  | cons line lines ih =>
    rw [packlines]
    refine steady_bind (steady_convertcells types _) fun values values' hlen => ?_
    refine steady_bind (hpack values values' hlen) fun v w _ => ?_
    exact steady_bind ih fun vs ws _ => steady_pure trivial

/-- A computation that does not read standard input. -/
theorem steady_of_eq {α : Type} {x : Py α} {res : Except Exn α} (h : ∀ s, x s = (res, s)) :
    Steady Eq x x := by
  intro s r a s' hok
  rw [h, Prod.mk.injEq] at hok
  exact ⟨a, r, by rw [h, hok.1], rfl⟩

theorem steady_parse_types (words : List Text) : Steady Eq (parse_types words) (parse_types words) := by
  induction words with
  | nil => exact steady_pure rfl
  | cons word words ih =>
    rw [parse_types]
    refine steady_bind (steady_of_eq fun _ => rfl) fun typ typ' htyp => ?_
    refine steady_bind ih fun types types' htypes => ?_
    exact steady_pure (by rw [htyp, htypes])

theorem steady_line (lines : List Text) (i : ℕ) : Steady Eq (line lines i) (line lines i) := by
  unfold line
  cases lines[i]? with
  | none => exact steady_raise _ _ _
  | some t => exact steady_pure rfl

theorem steady_decodelines (lines : List Text) :
    Steady Any (decodelines lines : Py (List (Val F))) (decodelines lines) := by
  refine steady_bind (steady_line _ _) fun first first' hfirst => ?_
  subst hfirst
  refine steady_bind (steady_line _ _) fun header header' hheader => ?_
  subst hheader
  refine steady_bind (steady_parse_types _) fun types types' htypes => ?_
  subst htypes
  split
  · exact steady_raise _ _ _
  · refine steady_bind (steady_line _ _) fun keys keys' hkeys => ?_
    subst hkeys
    exact steady_packlines (fun _ _ hlen => steady_pack _ _ hlen) _ _

/-- A file is read without a look at standard input. -/
theorem steady_arrayfromcsv (files : Text → File) {fname : Text} (hne : fname ≠ ['-']) :
    Steady Any (arrayfromcsv files fname : Py (List (Val F))) (arrayfromcsv files fname) := by
  have hlines : Steady Eq (csvlines files fname) (csvlines files fname) := by
    unfold csvlines
    rw [if_pos hne]
    cases files fname with
    | missing | undecodable => exact steady_raise _ _ _
    | text t => exact steady_pure rfl
  rw [arrayfromcsv_eq_decodelines]
  refine steady_bind hlines fun lines lines' heq => ?_
  subst heq
  exact steady_decodelines lines

/-! ## Section 3: Failing again -/

/-- Standard input is empty after it was read for its lines, and has none then. -/
theorem arrayfromcsv_stdin_fails_again {files : Text → File} {s s₁ s₂ : Text} {e : Exn}
    {vs : List (Val F)} (h : arrayfromcsv (F := F) files ['-'] s = (.error e, s₁)) :
    arrayfromcsv files ['-'] s₁ ≠ (.ok vs, s₂) := by
  have hread : ∀ s, csvlines files ['-'] s = (.ok (readlines s), []) := fun s => rfl
  rw [arrayfromcsv_eq_decodelines, Py.bind_ok (hread s)] at h
  have hempty : s₁ = [] := by
    have hdrains := drains_decodelines (F := F) (readlines s) []
    rw [h] at hdrains
    exact hdrains.elim (fun h => h) (fun h => h)
  subst hempty
  rw [arrayfromcsv_eq_decodelines, Py.bind_ok (hread [])]
  intro hok
  obtain ⟨first, s₃, hfirst, -⟩ := Py.bind_eq_ok.mp hok
  exact absurd hfirst Py.raise_ne_ok

theorem call_fails_again {files : Text → File} {typ : Typ} {val s s₁ s₂ : Text} {e : Exn}
    {v : Val F} (h : (typ.call files val : Py (Val F)) s = (.error e, s₁)) :
    typ.call files val s₁ ≠ (.ok v, s₂) := by
  -- Where it could succeed now, it would have.
  have hsteady : Steady Any (typ.call files val : Py (Val F)) (typ.call files val) →
      typ.call files val s₁ ≠ (.ok v, s₂) := by
    intro hsteady hok
    obtain ⟨w, r, hw, -⟩ := hsteady s₁ s v s₂ hok
    rw [h] at hw
    cases hw
  by_cases harray : typ = .array
  · subst harray
    by_cases hval : val = ['-']
    · subst hval
      intro hok
      obtain ⟨xs, s₃, hxs, -⟩ := Py.bind_eq_ok.mp hok
      cases hres : arrayfromcsv (F := F) files ['-'] s with
      | mk res s' =>
        cases res with
        | ok ys =>
          rw [Typ.call, Py.bind_ok hres] at h
          cases h
        | error e' =>
          rw [Typ.call, Py.bind_error hres] at h
          obtain ⟨-, rfl⟩ := Prod.mk.inj h
          exact arrayfromcsv_stdin_fails_again hres hxs
    · exact hsteady (steady_bind (steady_arrayfromcsv files hval) fun _ _ _ => steady_pure trivial)
  · have hscalar : (typ.call files val : Py (Val F)) = typ.scalar val := by
      cases typ with
      | array => exact absurd rfl harray
      | string | integer | fraction | boolean | dict | none_type => rfl
    rw [hscalar] at hsteady
    rw [hscalar]
    exact hsteady (steady_scalar typ val)

end Jaguar
