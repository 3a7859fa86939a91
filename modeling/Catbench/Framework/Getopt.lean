import Mathlib.Data.List.Basic
import Mathlib.Tactic.Common

/-! # Command line options

    The short options of `getopt`, for argument vectors that hold nothing else:
    an option stands behind a dash, alone or after options without a value; its
    value is the rest of the word, or else the next word if it needs one.

    * **Words**: `cluster` reads the options of one word, and `cluster_cases`
      says what they can be.
    * **Vectors**: `reports` reads all words, and `reports_cases` says how a
      vector begins.
-/

namespace Getopt

abbrev Text := List Char

/-- What an option string says of an option. -/
inductive Arity where
  | no_value
  | required
  | optional
  deriving DecidableEq, Repr

/-- The value of an option, with the place it was found in. -/
inductive Optarg where
  | none
  | attached (text : Text)
  | detached (text : Text)
  deriving DecidableEq, Repr

def Optarg.text : Optarg → Option Text
  | .none => Option.none
  | .attached text => some text
  | .detached text => some text

/-- One return of `getopt`. -/
structure Report where
  flag : Char
  optarg : Optarg
  deriving DecidableEq, Repr

/-- Colons behind an option say that it has a value. -/
def arity : Text → Char → Option Arity
  | [], _ => none
  | o :: rest, c =>
    if o = c ∧ c ≠ ':' then
      match rest with
      | ':' :: ':' :: _ => some .optional
      | ':' :: _ => some .required
      | _ => some .no_value
    else arity rest c

/-- The options of a word, and the one whose value is the next word, if any;
    `none` if an option is unknown. -/
def cluster (optstring : Text) : Text → Option (List Report × Option Char)
  | [] => some ([], none)
  | c :: cs =>
    match arity optstring c with
    | none => none
    | some .no_value =>
      (cluster optstring cs).map fun p => (⟨c, .none⟩ :: p.1, p.2)
    | some .required =>
      if cs = [] then some ([], some c) else some ([⟨c, .attached cs⟩], none)
    | some .optional => some ([⟨c, if cs = [] then .none else .attached cs⟩], none)

/-- The options of a vector; `none` if one is unknown or lacks its value, or if
    there is a word that is no option. -/
def reports (optstring : Text) : List Text → Option (List Report)
  | [] => some []
  | ('-' :: c :: cs) :: words =>
    match cluster optstring (c :: cs), words with
    | some (front, none), words => (reports optstring words).map (front ++ ·)
    | some (front, some flag), value :: words =>
      (reports optstring words).map (front ++ ⟨flag, .detached value⟩ :: ·)
    | _, _ => none
  | _ :: _ => none

variable {optstring : Text}

/-- Only options of the option string are known. -/
theorem mem_of_arity {os : Text} {c : Char} {a : Arity} (h : arity os c = some a) : c ∈ os := by
  induction os with
  | nil => cases h
  | cons o os ih =>
    unfold arity at h
    by_cases ho : o = c ∧ c ≠ ':'
    · rw [ho.1]
      exact List.mem_cons_self
    · rw [if_neg ho] at h
      exact List.mem_cons_of_mem _ (ih h)

/-- How a word ends, after its options without a value. -/
inductive Tail (optstring : Text) : Text → List Report → Option Char → Prop where
  | nothing : Tail optstring [] [] none
  | next {c : Char} (h : arity optstring c = some .required) : Tail optstring [c] [] (some c)
  | attached {c : Char} {value : Text} (h : arity optstring c = some .required)
    (hne : value ≠ []) : Tail optstring (c :: value) [⟨c, .attached value⟩] none
  | optional {c : Char} {value : Text} (h : arity optstring c = some .optional) :
    Tail optstring (c :: value) [⟨c, if value = [] then .none else .attached value⟩] none

/-- A word is a run of options without a value, and a tail. -/
theorem cluster_cases {cs : Text} {front : List Report} {pending : Option Char}
    (h : cluster optstring cs = some (front, pending)) :
    ∃ switches tail last, cs = switches ++ tail ∧
      (∀ c ∈ switches, arity optstring c = some .no_value) ∧
      front = switches.map (⟨·, .none⟩) ++ last ∧ Tail optstring tail last pending := by
  induction cs generalizing front with
  | nil =>
    obtain ⟨rfl, rfl⟩ := Prod.mk.inj (Option.some.inj h)
    exact ⟨[], [], [], rfl, by simp, rfl, Tail.nothing⟩
  | cons c cs ih =>
    rw [cluster] at h
    cases harity : arity optstring c with
    | none =>
      rw [harity] at h
      cases h
    | some a =>
      rw [harity] at h
      cases a with
      | no_value =>
        -- one more switch before the tail
        obtain ⟨⟨front', pending'⟩, hcluster, heq⟩ := Option.map_eq_some_iff.mp h
        obtain ⟨rfl, rfl⟩ := Prod.mk.inj heq
        obtain ⟨switches, tail, last, rfl, hswitches, rfl, htail⟩ := ih hcluster
        refine ⟨c :: switches, tail, last, rfl, ?_, rfl, htail⟩
        intro c' hc'
        rcases List.mem_cons.mp hc' with heq | hmem
        · rw [heq]
          exact harity
        · exact hswitches c' hmem
      | required =>
        -- the value is the rest of the word, or the next word if there is no rest
        by_cases hnil : cs = []
        · rw [hnil] at h ⊢
          obtain ⟨rfl, rfl⟩ := Prod.mk.inj (Option.some.inj h)
          exact ⟨[], [c], [], rfl, by simp, rfl, Tail.next harity⟩
        · simp only [if_neg hnil] at h
          obtain ⟨rfl, rfl⟩ := Prod.mk.inj (Option.some.inj h)
          exact ⟨[], c :: cs, _, rfl, by simp, rfl, Tail.attached harity hnil⟩
      | optional =>
        obtain ⟨rfl, rfl⟩ := Prod.mk.inj (Option.some.inj h)
        exact ⟨[], c :: cs, _, rfl, by simp, rfl, Tail.optional harity⟩

/-- An option stands behind a dash. -/
theorem dash_of_reports {word : Text} {words : List Text} {rs : List Report}
    (h : reports optstring (word :: words) = some rs) : ∃ c cs, word = '-' :: c :: cs := by
  cases word with
  | nil => cases h
  | cons d t =>
    by_cases hd : d = '-'
    · subst hd
      cases t with
      | nil => cases h
      | cons c cs => exact ⟨c, cs, rfl⟩
    · rw [reports] at h
      · cases h
      · intro c cs heq
        exact hd (List.cons.inj heq).1

/-- How a vector of options begins. -/
theorem reports_cases {word : Text} {words : List Text} {rs : List Report}
    (h : reports optstring (word :: words) = some rs) :
    ∃ c cs front pending, word = '-' :: c :: cs ∧
      cluster optstring (c :: cs) = some (front, pending) ∧
      ((pending = none ∧ ∃ rest, reports optstring words = some rest ∧ rs = front ++ rest) ∨
        ∃ flag value words' rest, pending = some flag ∧ words = value :: words' ∧
          reports optstring words' = some rest ∧ rs = front ++ ⟨flag, .detached value⟩ :: rest) := by
  obtain ⟨c, cs, rfl⟩ := dash_of_reports h
  unfold reports at h
  simp only at h
  cases hcluster : cluster optstring (c :: cs) with
  | none =>
    rw [hcluster] at h
    cases h
  | some p =>
    obtain ⟨front, pending⟩ := p
    rw [hcluster] at h
    refine ⟨c, cs, front, pending, rfl, hcluster, ?_⟩
    cases pending with
    | none =>
      obtain ⟨rest, hrest, hrs⟩ := Option.map_eq_some_iff.mp h
      exact Or.inl ⟨rfl, rest, hrest, hrs.symm⟩
    | some flag =>
      cases words with
      | nil => cases h
      | cons value words =>
        obtain ⟨rest, hrest, hrs⟩ := Option.map_eq_some_iff.mp h
        exact Or.inr ⟨flag, value, words, rest, rfl, rfl, hrest, hrs.symm⟩

/-- An option has a value if it needs one, and none if it takes none. -/
def Fits (optstring : Text) (r : Report) : Prop :=
  (arity optstring r.flag = some .no_value ∧ r.optarg = .none) ∨
    (arity optstring r.flag = some .required ∧ r.optarg ≠ .none) ∨
      arity optstring r.flag = some .optional

theorem fits_of_cluster {cs : Text} {front : List Report} {pending : Option Char}
    (h : cluster optstring cs = some (front, pending)) :
    (∀ r ∈ front, Fits optstring r) ∧ ∀ c ∈ pending, arity optstring c = some .required := by
  obtain ⟨switches, tail, last, -, harity, rfl, htail⟩ := cluster_cases h
  have hswitches : ∀ r ∈ switches.map (⟨·, .none⟩), Fits optstring r := by
    intro r hr
    obtain ⟨c, hc, rfl⟩ := List.mem_map.mp hr
    exact Or.inl ⟨harity c hc, rfl⟩
  rw [List.forall_mem_append]
  cases htail with
  | nothing => exact ⟨⟨hswitches, by simp⟩, by simp⟩
  | next ho => exact ⟨⟨hswitches, by simp⟩, by simpa using ho⟩
  | attached ho _ =>
    refine ⟨⟨hswitches, ?_⟩, by simp⟩
    rw [List.forall_mem_singleton]
    exact Or.inr (Or.inl ⟨ho, nofun⟩)
  | optional ho =>
    refine ⟨⟨hswitches, ?_⟩, by simp⟩
    rw [List.forall_mem_singleton]
    exact Or.inr (Or.inr ho)

/-- Reported options are those of the option string, with or without a value as
    it says. -/
theorem fits_of_reports {args : List Text} {rs : List Report}
    (h : reports optstring args = some rs) : ∀ r ∈ rs, Fits optstring r := by
  induction hn : args.length using Nat.strongRecOn generalizing args rs with
  | _ n ih =>
    subst hn
    cases args with
    | nil =>
      obtain rfl : rs = [] := (Option.some.inj h).symm
      simp
    | cons word words =>
      obtain ⟨c, cs, front, pending, -, hcluster, hcase⟩ := reports_cases h
      obtain ⟨hfront, hpending⟩ := fits_of_cluster hcluster
      rcases hcase with ⟨-, rest, hrest, rfl⟩ | ⟨flag, value, words', rest, rfl, rfl, hrest, rfl⟩
      · rw [List.forall_mem_append]
        exact ⟨hfront, ih _ (Nat.lt_succ_self _) hrest rfl⟩
      · -- the word and its value are gone
        have hlength : words'.length < (word :: value :: words').length := by
          simp only [List.length_cons]
          omega
        rw [List.forall_mem_append, List.forall_mem_cons]
        exact ⟨hfront, Or.inr (Or.inl ⟨hpending flag rfl, nofun⟩), ih _ hlength hrest rfl⟩

end Getopt
