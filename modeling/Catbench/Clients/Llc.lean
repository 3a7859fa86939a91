import Catbench.Clients.SquareEvictions.Options
import Catbench.Framework.LTS

/-! # The geometry of the last-level cache (`llc.c`)

    The module keeps the directory of the last cache level in two variables,
    `basepath` and `basepath_len`.  An accessor appends the name of a file to a
    copy of the path; if there is no path, it makes one for itself and takes it
    down again.

    A step is one call, with what the system holds for it; allocations succeed,
    and lengths are exact.

    Theorem: in a run, the variables agree after every call, a call of `llc_init`
    that returns true leaves a path, and no accessor duplicates a null path, iff
    accessors are called only when there is no path, and the directory is not found
    empty when a path is needed.
-/

open LTS
open SquareEvictionsOptions (sscanf_d)

namespace Llc

abbrev Text := List Char

/-! ## Section 1: Model -/

def SYS_CACHE_PREFIX : Text := "/sys/devices/system/cpu/cpu0/cache/".toList
def SYS_CACHE_SUFFIX_line_size : Text := "/coherency_line_size".toList
def SYS_CACHE_SUFFIX_num_sets : Text := "/number_of_sets".toList
def SYS_CACHE_SUFFIX_assoc_ways : Text := "/ways_of_associativity".toList

def LLC_ERROR : ℤ := -1

/-- The names in the directory of the cache, in the order of `alphasort` and unless it
    cannot be read, and the contents of the files that can be opened. -/
structure Sysfs where
  names : Option (List Text)
  file : Text → Option Text

/-- The variables of the module. -/
structure Vars where
  basepath : Option Text
  basepath_len : ℕ
  deriving DecidableEq, Repr

/-- What the language does not define: `strdup` of a null pointer, and `strncat` to a
    buffer that is too small. -/
inductive Fault where
  | null_path
  | overrun
  deriving DecidableEq, Repr

def filter_prefix_index (name : Text) : Bool := "index".toList.isPrefixOf name

def Sysfs.scandir (sys : Sysfs) : Option (List Text) :=
  sys.names.map fun names => names.filter filter_prefix_index

/-- The text, and what `*n` is afterwards; the buffer has one byte more. -/
def strncat_expand (dest src : Text) (n : ℕ) : Except Fault (Text × ℕ) :=
  -- `realloc` to the sum, then `strncat` behind what is there
  if dest.length + src.length ≤ n + src.length then .ok (dest ++ src, n + src.length)
  else .error .overrun

def llc_init (sys : Sysfs) (v : Vars) : Except Fault (Vars × Bool) :=
  match sys.scandir with
  | none => .ok (v, false)
  | some subdirs =>
    match subdirs.getLast? with
    -- no cache level at all is reported, and not returned as a failure
    | none => .ok (v, true)
    | some llc_index =>
      (strncat_expand SYS_CACHE_PREFIX llc_index SYS_CACHE_PREFIX.length).map
        fun (path, len) => (⟨some path, len⟩, true)

def llc_cleanup (v : Vars) : Vars :=
  match v.basepath with
  | none => v
  | some _ => ⟨none, 0⟩

/-- `fopen` and `fscanf`. -/
def read_file (sys : Sysfs) (path : Text) : ℤ := ((sys.file path).bind sscanf_d).getD LLC_ERROR

/-- From the duplication of the path on: the length that is updated is the one of the
    module. -/
def read_property (suffix : Text) (sys : Sysfs) (v : Vars) : Except Fault (Vars × ℤ) :=
  match v.basepath with
  | none => .error .null_path
  | some basepath =>
    (strncat_expand basepath suffix v.basepath_len).map
      fun (path, len) => ({ v with basepath_len := len }, read_file sys path)

def llc_accessor_helper (suffix : Text) (sys : Sysfs) (v : Vars) : Except Fault (Vars × ℤ) :=
  match v.basepath with
  | some _ => read_property suffix sys v
  | none =>
    -- `nonreent`: the path is taken down again, however the call ends
    match llc_init sys v with
    | .error f => .error f
    | .ok (v, false) => .ok (llc_cleanup v, LLC_ERROR)
    | .ok (v, true) => (read_property suffix sys v).map fun (v, ret) => (llc_cleanup v, ret)

/-- The functions of the module. -/
inductive Call where
  | init
  | line_size
  | num_sets
  | assoc_ways
  | cleanup
  deriving DecidableEq, Repr

/-- How the last call has ended. -/
inductive Result where
  | none
  | init (ret : Bool)
  | value (ret : ℤ)
  | cleanup
  | fault (f : Fault)
  deriving DecidableEq, Repr

structure State where
  vars : Vars
  result : Result
  deriving DecidableEq, Repr

structure Label where
  call : Call
  sys : Sysfs

/-- The state after a call. -/
def ended {α : Type} (v : Vars) (result : α → Result) : Except Fault (Vars × α) → State
  | .error f => ⟨v, .fault f⟩
  | .ok (v', ret) => ⟨v', result ret⟩

def called (v : Vars) (sys : Sysfs) : Call → State
  | .init => ended v .init (llc_init sys v)
  | .line_size => ended v .value (llc_accessor_helper SYS_CACHE_SUFFIX_line_size sys v)
  | .num_sets => ended v .value (llc_accessor_helper SYS_CACHE_SUFFIX_num_sets sys v)
  | .assoc_ways => ended v .value (llc_accessor_helper SYS_CACHE_SUFFIX_assoc_ways sys v)
  | .cleanup => ⟨llc_cleanup v, .cleanup⟩

/-- After a fault there is no next call. -/
def step (s : State) (l : Label) : Option State :=
  match s.result with
  | .fault _ => none
  | _ => some (called s.vars l.sys l.call)

def initial : State := ⟨⟨none, 0⟩, .none⟩

def system : System State Label where
  init s := s = initial
  step := step

/-! ## Section 2: What is expected of a state -/

/-- There is no path and the length is 0, or the length is the one of the path. -/
def Agree (v : Vars) : Prop :=
  v.basepath = none ∧ v.basepath_len = 0 ∨
    ∃ path, v.basepath = some path ∧ path.length = v.basepath_len

structure Safe (s : State) : Prop where
  agree : Agree s.vars
  path : s.result = .init true → s.vars.basepath ≠ none
  not_null : s.result ≠ .fault .null_path

/-- The directory is not empty or there is a path already, for `llc_init`; for an
    accessor there is no path, and the directory is not empty. -/
def Allowed (s : State) (l : Label) : Prop :=
  match l.call with
  | .init => s.vars.basepath ≠ none ∨ l.sys.scandir ≠ some []
  | .line_size | .num_sets | .assoc_ways => s.vars.basepath = none ∧ l.sys.scandir ≠ some []
  | .cleanup => True

/-- Safe, and not faulty otherwise. -/
structure Inv (s : State) : Prop where
  safe : Safe s
  no_fault : ∀ f, s.result ≠ .fault f

/-! ## Section 3: The functions -/

variable {v : Vars} {sys : Sysfs} {suffix : Text}

/-- A buffer for a text of known length is large enough. -/
theorem strncat_expand_eq (dest src : Text) {n : ℕ} (hn : dest.length = n) :
    strncat_expand dest src n = .ok (dest ++ src, (dest ++ src).length) := by
  rw [strncat_expand, if_pos (by omega), List.length_append, hn]

theorem llc_init_unread (h : sys.scandir = none) (v : Vars) : llc_init sys v = .ok (v, false) := by
  rw [llc_init, h]

theorem llc_init_empty (h : sys.scandir = some []) (v : Vars) : llc_init sys v = .ok (v, true) := by
  rw [llc_init, h]
  rfl

/-- The path of the last cache level. -/
theorem llc_init_found {llc_index : Text} {subdirs : List Text}
    (h : sys.scandir = some (subdirs ++ [llc_index])) (v : Vars) :
    llc_init sys v = .ok
      (⟨some (SYS_CACHE_PREFIX ++ llc_index), (SYS_CACHE_PREFIX ++ llc_index).length⟩, true) := by
  rw [llc_init, h]
  simp only [List.getLast?_concat]
  rw [strncat_expand_eq _ _ rfl]
  rfl

/-- What `scandir` can find. -/
theorem scandir_cases (sys : Sysfs) :
    sys.scandir = none ∨ sys.scandir = some [] ∨
      ∃ subdirs llc_index, sys.scandir = some (subdirs ++ [llc_index]) := by
  cases sys.scandir with
  | none => exact .inl rfl
  | some subdirs =>
    rcases List.eq_nil_or_concat' subdirs with rfl | ⟨front, last, rfl⟩
    · exact .inr (.inl rfl)
    · exact .inr (.inr ⟨front, last, rfl⟩)

/-- The length of the module grows by the suffix, its path does not. -/
theorem read_property_eq {path : Text} {len : ℕ} (hlen : path.length = len) (suffix : Text)
    (sys : Sysfs) :
    read_property suffix sys ⟨some path, len⟩ =
      .ok (⟨some path, (path ++ suffix).length⟩, read_file sys (path ++ suffix)) := by
  unfold read_property
  simp only
  rw [strncat_expand_eq _ _ hlen]
  rfl

/-- With a path of the module's, the variables disagree afterwards. -/
theorem accessor_with_path {path : Text} {len : ℕ} (hlen : path.length = len) (suffix : Text)
    (sys : Sysfs) :
    llc_accessor_helper suffix sys ⟨some path, len⟩ =
      .ok (⟨some path, (path ++ suffix).length⟩, read_file sys (path ++ suffix)) :=
  read_property_eq hlen suffix sys

/-- Without a path, what the accessor has made is taken down again. -/
theorem accessor_without_path (hdir : sys.scandir ≠ some []) (suffix : Text) :
    ∃ ret, llc_accessor_helper suffix sys ⟨none, 0⟩ = .ok (⟨none, 0⟩, ret) := by
  unfold llc_accessor_helper
  simp only
  rcases scandir_cases sys with hnone | hempty | ⟨subdirs, llc_index, hfound⟩
  · rw [llc_init_unread hnone]
    exact ⟨LLC_ERROR, rfl⟩
  · exact absurd hempty hdir
  · rw [llc_init_found hfound]
    simp only
    rw [read_property_eq rfl]
    exact ⟨_, rfl⟩

theorem accessor_of_empty (hdir : sys.scandir = some []) (suffix : Text) :
    llc_accessor_helper suffix sys ⟨none, 0⟩ = .error .null_path := by
  unfold llc_accessor_helper
  simp only
  rw [llc_init_empty hdir]
  rfl

/-! ## Section 4: Steps -/

section steps
variable {s s' : State} {l : Label}

theorem Agree.eq_none (h : Agree v) (hpath : v.basepath = none) : v = ⟨none, 0⟩ := by
  obtain ⟨path, len⟩ := v
  subst hpath
  rcases h with ⟨-, hlen⟩ | ⟨path, hsome, -⟩
  · simp only at hlen
    rw [hlen]
  · cases hsome

theorem Agree.eq_some (h : Agree v) (hpath : v.basepath ≠ none) :
    ∃ path, v = ⟨some path, path.length⟩ := by
  obtain ⟨path, len⟩ := v
  rcases h with ⟨hnone, -⟩ | ⟨path, hsome, hlen⟩
  · exact absurd hnone hpath
  · cases hsome
    simp only at hlen
    exact ⟨_, by rw [hlen]⟩

theorem agree_path (path : Text) : Agree ⟨some path, path.length⟩ := .inr ⟨path, rfl, rfl⟩

theorem agree_cleanup (h : Agree v) : Agree (llc_cleanup v) := by
  unfold llc_cleanup
  split
  · exact h
  · exact .inl ⟨rfl, rfl⟩

/-- A call ends where there was no fault. -/
theorem step_eq (h : Inv s) : step s l = some (called s.vars l.sys l.call) := by
  unfold step
  split
  · next f hf => exact absurd hf (h.no_fault f)
  · rfl

theorem inv_ok {α : Type} {result : α → Result} {ret : α} {v v' : Vars}
    (hresult : ∀ f, result ret ≠ .fault f) (hagree : Agree v')
    (hpath : result ret = .init true → v'.basepath ≠ none) :
    Inv (ended v result (.ok (v', ret))) where
  safe := ⟨hagree, hpath, hresult _⟩
  no_fault := hresult

/-- The accessors, of which there is one for each suffix. -/
theorem inv_accessor (h : Agree v) (hpath : v.basepath = none) (hdir : sys.scandir ≠ some [])
    (suffix : Text) : Inv (ended v .value (llc_accessor_helper suffix sys v)) := by
  obtain rfl := h.eq_none hpath
  obtain ⟨ret, hret⟩ := accessor_without_path hdir suffix
  rw [hret]
  exact inv_ok nofun (.inl ⟨rfl, rfl⟩) nofun

theorem unsafe_accessor (h : Agree v) (hsuffix : suffix ≠ [])
    (hno : ¬(v.basepath = none ∧ sys.scandir ≠ some [])) :
    ¬Safe (ended v .value (llc_accessor_helper suffix sys v)) := by
  intro hsafe
  by_cases hpath : v.basepath = none
  · -- a null path is duplicated
    have hdir : sys.scandir = some [] := by
      by_contra hdir
      exact hno ⟨hpath, hdir⟩
    obtain rfl := h.eq_none hpath
    rw [accessor_of_empty hdir] at hsafe
    exact hsafe.not_null rfl
  · -- the length is not the one of the path any more
    obtain ⟨path, rfl⟩ := h.eq_some hpath
    rw [accessor_with_path rfl] at hsafe
    rcases hsafe.agree with ⟨hnone, -⟩ | ⟨path', hsome, hlen⟩
    · cases hnone
    · cases hsome
      have hpos := List.length_pos_of_ne_nil hsuffix
      have hgrown : path.length = (path ++ suffix).length := hlen
      rw [List.length_append] at hgrown
      omega

theorem inv_init (h : Agree v) (hallowed : v.basepath ≠ none ∨ sys.scandir ≠ some []) :
    Inv (ended v .init (llc_init sys v)) := by
  rcases scandir_cases sys with hnone | hempty | ⟨subdirs, llc_index, hfound⟩
  · rw [llc_init_unread hnone]
    exact inv_ok nofun h nofun
  · rw [llc_init_empty hempty]
    exact inv_ok nofun h fun _ => hallowed.resolve_right fun hdir => hdir hempty
  · rw [llc_init_found hfound]
    exact inv_ok nofun (agree_path _) fun _ => nofun

theorem unsafe_init (hno : ¬(v.basepath ≠ none ∨ sys.scandir ≠ some [])) :
    ¬Safe (ended v .init (llc_init sys v)) := by
  intro hsafe
  obtain ⟨hpath, hdir⟩ := not_or.mp hno
  rw [llc_init_empty (not_not.mp hdir)] at hsafe
  exact hsafe.path rfl (not_not.mp hpath)

theorem inv_step (h : Inv s) (hl : Allowed s l) (hstep : step s l = some s') : Inv s' := by
  rw [step_eq h] at hstep
  cases hstep
  have hagree := h.safe.agree
  unfold Allowed at hl
  cases hcall : l.call with
  | init =>
    rw [hcall] at hl
    exact inv_init hagree hl
  | line_size =>
    rw [hcall] at hl
    exact inv_accessor hagree hl.1 hl.2 _
  | num_sets =>
    rw [hcall] at hl
    exact inv_accessor hagree hl.1 hl.2 _
  | assoc_ways =>
    rw [hcall] at hl
    exact inv_accessor hagree hl.1 hl.2 _
  | cleanup => exact ⟨⟨agree_cleanup hagree, nofun, nofun⟩, nofun⟩

theorem unsafe_step (h : Inv s) (hl : ¬Allowed s l) (hstep : step s l = some s') : ¬Safe s' := by
  rw [step_eq h] at hstep
  cases hstep
  have hagree := h.safe.agree
  unfold Allowed at hl
  cases hcall : l.call with
  | init =>
    rw [hcall] at hl
    exact unsafe_init hl
  | line_size =>
    rw [hcall] at hl
    exact unsafe_accessor hagree (by decide) hl
  | num_sets =>
    rw [hcall] at hl
    exact unsafe_accessor hagree (by decide) hl
  | assoc_ways =>
    rw [hcall] at hl
    exact unsafe_accessor hagree (by decide) hl
  | cleanup =>
    rw [hcall] at hl
    exact absurd trivial hl

end steps

/-! ## Section 5: Runs -/

theorem inv_initial : Inv initial where
  safe := ⟨.inl ⟨rfl, rfl⟩, nofun, nofun⟩
  no_fault := nofun

/-- **State of the module**: a run is safe after every call, iff every call of it is
    allowed in the state before. -/
theorem llc_safe_iff {labels : List Label} {s : State} (hrun : system.run initial labels = some s) :
    (∀ front, front <+: labels → ∀ t, system.run initial front = some t → Safe t) ↔
      ∀ front l, front ++ [l] <+: labels → ∀ t, system.run initial front = some t → Allowed t l :=
  run_safe_iff_at (fun _ _ _ h hl hstep => inv_step h hl hstep) (fun _ h => h.safe)
    (fun _ _ _ h hl hstep => unsafe_step h hl hstep) inv_initial hrun

/-- Three levels of cache, and lines of 64 bytes. -/
def threeLevels : Sysfs where
  names := some ["index0".toList, "index1".toList, "index3".toList, "uevent".toList]
  file path :=
    if path = "/sys/devices/system/cpu/cpu0/cache/index3/coherency_line_size".toList then
      some "64\n".toList
    else none

/-- No cache at all. -/
def noLevel : Sysfs where
  names := some ["uevent".toList]
  file _ := none

/-- An accessor that is called alone. -/
theorem llc_safe_accessor :
    (system.run initial [⟨.line_size, threeLevels⟩]).isSome ∧
      ∀ front, front <+: [⟨.line_size, threeLevels⟩] → ∀ t, system.run initial front = some t →
        Safe t := by
  refine ⟨rfl, (llc_safe_iff rfl).mpr ?_⟩
  intro front l hpre t ht
  have hnil : front = [] := by
    have hle := hpre.length_le
    rw [List.length_append, List.length_singleton, List.length_singleton] at hle
    exact List.eq_nil_of_length_eq_zero (by omega)
  subst hnil
  obtain ⟨rfl, -⟩ := List.cons_prefix_cons.mp hpre
  obtain rfl := Option.some.inj ht
  exact ⟨rfl, by decide⟩

/-- The length after an accessor is the one of the file's path; an empty directory is no
    failure of `llc_init`; and then an accessor duplicates the null path. -/
theorem llc_unsafe :
    (∃ t, system.run initial [⟨.init, threeLevels⟩, ⟨.line_size, threeLevels⟩] = some t ∧
      t.vars = ⟨some (SYS_CACHE_PREFIX ++ "index3".toList), 61⟩ ∧ ¬Agree t.vars) ∧
    (∃ t, system.run initial [⟨.init, noLevel⟩] = some t ∧ t.result = .init true ∧
      t.vars.basepath = none) ∧
    ∃ t, system.run initial [⟨.line_size, noLevel⟩] = some t ∧ t.result = .fault .null_path := by
  refine ⟨⟨_, rfl, rfl, ?_⟩, ⟨_, rfl, rfl, rfl⟩, ⟨_, rfl, rfl⟩⟩
  intro hagree
  rcases hagree with ⟨hnone, -⟩ | ⟨path, hsome, hlen⟩
  · cases hnone
  · rw [← Option.some.inj hsome] at hlen
    exact absurd hlen (by decide)

end Llc
