import Catbench.Framework.Dict
import Mathlib.Algebra.Order.Field.Rat
import Mathlib.Tactic.Ring

/-! # Combining data files (`combine-json.py`)

    The series of a second file are copied into the data of a first one, and
    are then normalized against one of them.  A copy is not a new object: the
    entry of the first file is the series of the second one, so that what is
    done to that later is done to the copy too.

    Numbers are exact here.  A dictionary is the list of its items in the order
    in which Python iterates over it, whatever that order is.
-/

namespace CombineJson

/-! ## Section 1: Model -/

abbrev Sample := List (String × ℚ)

structure Series where
  description : String
  samples : List Sample
  deriving DecidableEq, Repr

/-- A value in `data1`: its own one, of which only the samples matter if it has
    any, or the object that `data2` has under a key. -/
inductive Entry where
  | own (samples : Option (List Sample))
  | shared (key : String)
  deriving DecidableEq, Repr

/-- The options; no `series` means all of them. -/
structure Args where
  suffix : String
  norm : String
  norm_suffix : String
  norm_x : String
  series : List String

structure State where
  data1 : List (String × Entry)
  data2 : List (String × Series)
  new_key : Option String

/-- A change of the object under a key. -/
def update (key : String) (f : Series → Series) (data : List (String × Series)) :
    List (String × Series) :=
  data.map fun p => if p.1 = key then (p.1, f p.2) else p

def add_description (text : String) (x : Series) : Series :=
  { x with description := x.description ++ text }

section combine
variable (a : Args)

/-- The series is left out. -/
def skipped (key : String) : Bool := a.series ≠ [] && key ∉ a.series

/-- The body of the loop that copies. -/
def copy (s : State) (key : String) : State :=
  if skipped a key then s
  else {
    data1 := Dict.insert (key ++ a.suffix) (.shared key) s.data1
    data2 := update key (add_description a.suffix) s.data2
    new_key := some (key ++ a.suffix) }

/-- The loop over `ylabel`; `none` is a `KeyError`. -/
def normalize_sample (base_sample : Sample) (sample : Sample) : Option Sample :=
  sample.mapM fun p =>
    (base_sample.lookup p.1).map fun base =>
      (p.1, if base ≠ 0 ∧ p.1 ≠ a.norm_x then p.2 / base else p.2)

/-- The loop over `index`, for the samples from there on. -/
def normalize_samples (base : ℕ → Option Sample) : ℕ → List Sample → Option (List Sample)
  | _, [] => some []
  | index, sample :: samples =>
    match base index with
    | none => none
    | some base_sample =>
      match normalize_sample a base_sample sample,
          normalize_samples base (index + 1) samples with
      | some sample, some samples => some (sample :: samples)
      | _, _ => none

/-- The body of the loop that normalizes. -/
def normalize (s : State) (key : String) : Option State :=
  if key = a.norm then some s
  else
    match s.data2.lookup key with
    | none => none
    | some x =>
      (normalize_samples a (fun index => (s.data2.lookup a.norm).bind (·.samples[index]?)) 0
        x.samples).map fun samples => { s with
          data2 := update key (fun x => { x with samples := samples }) s.data2
          new_key := some (key ++ a.suffix ++ a.norm_suffix) }

/-- What follows that loop, with its variables `key` and `new_key`. -/
def store (s : State) : Option State :=
  match (Dict.keys s.data2).getLast?, s.new_key with
  | some key, some new_key => some { s with
      data1 := Dict.insert new_key (.shared key) s.data1
      data2 := update key
        (add_description (a.suffix ++ " normalized to " ++ a.norm)) s.data2 }
  | _, _ => none

/-- The dictionaries at the end of `combine` without a median. -/
def combine (data1 : List (String × Option (List Sample))) (data2 : List (String × Series)) :
    Option State :=
  let s : State := ⟨data1.map fun p => (p.1, .own p.2), data2, none⟩
  let s := (Dict.keys data2).foldl (copy a) s
  if a.norm ≠ "" then ((Dict.keys s.data2).foldlM (normalize a) s).bind (store a)
  else some s

end combine

/-- The samples of a series, as they are written to the output file. -/
def State.samples (s : State) (name : String) : Option (List Sample) :=
  match s.data1.lookup name with
  | none => none
  | some (.own samples) => samples
  | some (.shared key) => (s.data2.lookup key).map Series.samples

/-! ## Section 2: Normalized samples -/

section divided
variable (a : Args) (data2 : List (String × Series))

def original (key : String) : List Sample := ((data2.lookup key).map Series.samples).getD []

/-- Every field but one is divided by its base value, unless that is 0. -/
def divide (base_sample sample : Sample) : Sample :=
  sample.map fun p =>
    (p.1, if p.1 ≠ a.norm_x ∧ (base_sample.lookup p.1).getD 0 ≠ 0
      then p.2 / (base_sample.lookup p.1).getD 0 else p.2)

def divided (key : String) : List Sample :=
  List.zipWith (divide a) (original data2 a.norm) (original data2 key)

/-- All fields of the series have a base value. -/
def Based (key : String) : Prop :=
  ∀ pair ∈ (original data2 a.norm).zip (original data2 key), ∀ p ∈ pair.2,
    (pair.1.lookup p.1).isSome

instance (key : String) : Decidable (Based a data2 key) :=
  inferInstanceAs (Decidable (∀ pair ∈ (original data2 a.norm).zip (original data2 key),
    ∀ p ∈ pair.2, (pair.1.lookup p.1).isSome))

/-- Dividing by the base values changes nothing: they are 0 or 1, or what is
    divided is 0. -/
def Unchanged (key : String) : Prop :=
  ∀ pair ∈ (original data2 a.norm).zip (original data2 key), ∀ p ∈ pair.2,
    p.1 = a.norm_x ∨ p.2 = 0 ∨ (pair.1.lookup p.1).getD 0 = 0 ∨
      (pair.1.lookup p.1).getD 0 = 1

/-- The options are given, `norm` is one of the series of the second file, and
    all of these have equally many samples. -/
structure Given : Prop where
  norm_ne_empty : a.norm ≠ ""
  norm_suffix_ne_empty : a.norm_suffix ≠ ""
  norm_x_ne_empty : a.norm_x ≠ ""
  nodup : (Dict.keys data2).Nodup
  norm_mem : a.norm ∈ Dict.keys data2
  lengths : ∀ p ∈ data2, ∀ q ∈ data2, p.2.samples.length = q.2.samples.length

end divided

section divided
variable {a : Args} {data2 : List (String × Series)} {key : String}

theorem lookup_original (hkey : key ∈ Dict.keys data2) :
    ∃ x, data2.lookup key = some x ∧ original data2 key = x.samples := by
  cases hx : data2.lookup key with
  | none => exact absurd hkey (Dict.lookup_eq_none.mp hx)
  | some x => exact ⟨x, rfl, by rw [original, hx]; rfl⟩

theorem Given.length_original (h : Given a data2) (hkey : key ∈ Dict.keys data2) :
    (original data2 key).length = (original data2 a.norm).length := by
  obtain ⟨x, hx, hxs⟩ := lookup_original hkey
  obtain ⟨y, hy, hys⟩ := lookup_original h.norm_mem
  rw [hxs, hys]
  exact h.lengths _ (Dict.mem_of_lookup hx) _ (Dict.mem_of_lookup hy)

theorem div_eq_left_iff {v b : ℚ} (hb : b ≠ 0) : v / b = v ↔ v = 0 ∨ b = 1 := by
  rw [div_eq_iff hb, eq_comm, mul_right_eq_self₀, or_comm]

theorem divide_eq_self_iff {base sample : Sample} : divide a base sample = sample ↔
    ∀ p ∈ sample, p.1 = a.norm_x ∨ p.2 = 0 ∨ (base.lookup p.1).getD 0 = 0 ∨
      (base.lookup p.1).getD 0 = 1 := by
  have hid : divide a base sample = sample ↔ divide a base sample = sample.map id := by
    rw [List.map_id]
  rw [hid, divide, List.map_inj_left]
  refine forall₂_congr fun p _ => ?_
  obtain ⟨ylabel, v⟩ := p
  dsimp only [id]
  generalize (base.lookup ylabel).getD 0 = b
  by_cases hx : ylabel = a.norm_x
  · simp [hx]
  by_cases hb : b = 0
  · simp [hb]
  simp [hx, hb, div_eq_left_iff hb]

theorem zipWith_divide_eq_iff {base samples : List Sample} (hlen : samples.length = base.length) :
    List.zipWith (divide a) base samples = samples ↔
      ∀ pair ∈ base.zip samples, divide a pair.1 pair.2 = pair.2 := by
  induction samples generalizing base with
  | nil => simp
  | cons s samples ih =>
    obtain ⟨b, base, rfl⟩ := List.exists_cons_of_length_pos (l := base) (by simp [← hlen])
    rw [List.zipWith_cons_cons, List.cons.injEq, ih (by simpa using hlen), List.zip_cons_cons,
      List.forall_mem_cons]

/-- Normalizing leaves a series as it is iff dividing changes nothing. -/
theorem Given.divided_eq_iff (h : Given a data2) (hkey : key ∈ Dict.keys data2) :
    divided a data2 key = original data2 key ↔ Unchanged a data2 key := by
  rw [divided, zipWith_divide_eq_iff (h.length_original hkey)]
  exact forall₂_congr fun pair _ => divide_eq_self_iff

/-! ## Section 3: Normalizing one series -/

theorem normalize_sample_eq {base sample : Sample} :
    normalize_sample a base sample =
      if ∀ p ∈ sample, (base.lookup p.1).isSome then some (divide a base sample) else none := by
  induction sample with
  | nil => rfl
  | cons p sample ih =>
    unfold normalize_sample at ih ⊢
    rw [List.mapM_cons, ih]
    cases hb : base.lookup p.1 with
    | none =>
      have hno : ¬∀ q ∈ p :: sample, (base.lookup q.1).isSome := by
        intro h
        simpa [hb] using (List.forall_mem_cons.mp h).1
      rw [if_neg hno]
      rfl
    | some b =>
      by_cases hrest : ∀ p ∈ sample, (base.lookup p.1).isSome
      · rw [if_pos hrest, if_pos (List.forall_mem_cons.mpr ⟨by simp [hb], hrest⟩)]
        simp [divide, hb, and_comm]
      · rw [if_neg hrest, if_neg fun h => hrest (List.forall_mem_cons.mp h).2]
        rfl

theorem normalize_samples_eq {base : ℕ → Option Sample} {index : ℕ} {bases samples : List Sample}
    (hbase : ∀ i, base (index + i) = bases[i]?) (hlen : samples.length = bases.length) :
    normalize_samples a base index samples =
      if ∀ pair ∈ bases.zip samples, ∀ p ∈ pair.2, (pair.1.lookup p.1).isSome
      then some (List.zipWith (divide a) bases samples) else none := by
  induction samples generalizing index bases with
  | nil =>
    rw [normalize_samples]
    simp
  | cons s samples ih =>
    obtain ⟨b, bases, rfl⟩ := List.exists_cons_of_length_pos (l := bases) (by simp [← hlen])
    have hfirst : base index = some b := hbase 0
    have hrest : ∀ i, base (index + 1 + i) = bases[i]? := by
      intro i
      rw [Nat.add_assoc, Nat.add_comm 1 i, hbase (i + 1), List.getElem?_cons_succ]
    rw [normalize_samples, hfirst]
    dsimp only
    rw [ih hrest (by simpa using hlen), normalize_sample_eq, List.zip_cons_cons,
      List.zipWith_cons_cons]
    by_cases h₁ : ∀ p ∈ s, (b.lookup p.1).isSome
    · by_cases h₂ : ∀ pair ∈ bases.zip samples, ∀ p ∈ pair.2, (pair.1.lookup p.1).isSome
      · rw [if_pos h₁, if_pos h₂, if_pos (List.forall_mem_cons.mpr ⟨h₁, h₂⟩)]
      · rw [if_pos h₁, if_neg h₂, if_neg fun h => h₂ (List.forall_mem_cons.mp h).2]
    · rw [if_neg h₁, if_neg fun h => h₁ (List.forall_mem_cons.mp h).1]

end divided

end CombineJson
