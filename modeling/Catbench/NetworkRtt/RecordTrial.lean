import Mathlib.Data.List.Infix
import Mathlib.Tactic.Common

/-! # Recording a trial (`network_rtt`)

    `recordtrial` repeats `runtrial` until it completes, takes the results
    from the files that the run has left behind, and looks for a marker in the
    tail of the server's log.  A trial with the marker is announced as
    rejected; the countdown `redo` decides whether it is run again.  After the
    loop one row is appended to the series, from whatever the last run left.

    What a run does is a stream of outcomes.  The functions that read the
    client's log come from the plugin scripts under `networked/`; together
    with `sort` and `bc` they are a parameter.
-/

namespace NetworkRtt

/-! ## Section 1: Model -/

/-- The files that a run leaves behind, as lists of lines. -/
structure Files where
  rtt_server : List String
  rtt_client : List String
  rtt_perf : List String
  rtt_perf_duration : List String
  rtt_contender : List String
  rtt_bandwidth : List String
  deriving DecidableEq, Repr

/-- One call of `runtrial`: whether its exit status is 0, and its files. -/
structure Run where
  completed : Bool
  files : Files
  deriving DecidableEq, Repr

/-- The functions of the plugins, and the tools the script calls. -/
structure Impl where
  extracttput : Files → String
  extractavelatency : Files → String
  extractalllatencies : Files → List String
  /-- The arguments are the number of entries, the percentile and the input. -/
  extracttaillatency : ℕ → String → List String → String
  extractcontendertput : Files → String
  sort_n : List String → List String
  bc : String → String

/-- The constants of a run of the script. -/
structure Consts where
  /-- The name of the independent variable and its current value. -/
  independent : String
  value : String
  WARMUP : ℕ
  /-- `${MAIN_DURATION%?}`: the duration without its unit. -/
  MAIN_DURATION_COPY : ℕ

/-- The variables that one iteration of the loop sets. -/
structure Vars where
  tput : String
  avg : String
  rtt_999 : String
  rtt_99 : String
  rtt_95 : String
  rtt_50 : String
  contender_tput : String
  total_time : String
  deriving DecidableEq, Repr

/-- The four series. -/
inductive Series where
  | baseline
  | basealloc
  | contention
  | allocation
  deriving DecidableEq, Repr

/-- The variables that outlive the call.  A series is the list of its lines. -/
structure Shell where
  header : String
  series : Series → List String

/-- `paste -sd,`. -/
def paste (fields : List String) : String := ",".intercalate fields

/-- `cut -f2`: a line without the delimiter is kept whole. -/
def cut_f2 (delim : Char) (line : String) : String :=
  let fields := line.splitToList (· == delim)
  if fields.length ≤ 1 then line else fields.getD 1 ""

/-- `grep -F`, and `grep` of a pattern without special characters. -/
def grep (pattern : String) (lines : List String) : List String :=
  lines.filter fun line => decide (pattern.toList <:+: line.toList)

/-- `tail -n`. -/
def tail (n : ℕ) (lines : List String) : List String := lines.drop (lines.length - n)

/-- `tr -d ","`. -/
def tr_d_commas (s : String) : String := String.ofList (s.toList.filter (· ≠ ','))

/-- `tr -s " "`. -/
def tr_s_spaces : List Char → List Char
  | ' ' :: ' ' :: rest => tr_s_spaces (' ' :: rest)
  | ch :: rest => ch :: tr_s_spaces rest
  | [] => []

/-- `tr -s " " | cut -d" " -f2`. -/
def second_word (line : String) : String := cut_f2 ' ' (String.ofList (tr_s_spaces line.toList))

/-- The assignments in the body of the loop. -/
def measure (impl : Impl) (c : Consts) (files : Files) : Vars :=
  let all := impl.sort_n ((impl.extractalllatencies files).drop c.WARMUP)
  let ct := max 1 all.length
  { tput := impl.extracttput files
    avg := impl.extractavelatency files
    rtt_999 := impl.extracttaillatency ct "99.9" all
    rtt_99 := impl.extracttaillatency ct "99" all
    rtt_95 := impl.extracttaillatency ct "95" all
    rtt_50 := impl.extracttaillatency ct "50" all
    contender_tput := impl.extractcontendertput files
    total_time := "\n".intercalate
      ((grep "seconds time elapsed" files.rtt_perf_duration).map second_word) }

/-- The header line of the series, made from the counter names in `rtt_perf`. -/
def make_header (c : Consts) (files : Files) : String :=
  let names := files.rtt_perf.map fun line =>
    String.ofList ((((line.splitToList fun ch => ch == '\t' || ch == ' ').headD "").toList).map
      fun ch => if ch = '.' then '/' else ch)
  let fractions := files.rtt_perf.map fun _ => "fraction"
  -- `paste` gives one empty field where there is no line
  let names := if names.isEmpty then [""] else names
  let fractions := if fractions.isEmpty then [""] else fractions
  paste ([if c.independent = "cache_ways" then "string" else "fraction"]
      ++ List.replicate 7 "fraction" ++ fractions ++ fractions ++ ["fraction"])
    ++ "\\n" ++
  paste ([c.independent, "mite_throughput", "mean", "999tail-latency", "99tail-latency",
      "95tail-latency", "50tail-latency", "contender_tput"]
    ++ names ++ names.map ("contender-" ++ ·) ++ ["intel_cqm/local_bytes"])

/-- The first iteration of the first call starts all series with the header. -/
def Shell.ensure_header (sh : Shell) (c : Consts) (files : Files) : Shell :=
  if sh.header = "" then
    { header := make_header c files, series := fun _ => [make_header c files] }
  else sh

/-- The second column of a file of counters, per second. -/
def rates (impl : Impl) (total_time : String) (lines : List String) : String :=
  paste (lines.map fun line => impl.bc (tr_d_commas (cut_f2 '\t' line) ++ "/" ++ total_time))

/-- The row that is appended after the loop. -/
def row (impl : Impl) (c : Consts) (v : Vars) (files : Files) : String :=
  paste [c.value, v.tput, v.avg, v.rtt_999, v.rtt_99, v.rtt_95, v.rtt_50, v.contender_tput,
    rates impl v.total_time files.rtt_perf, rates impl v.total_time files.rtt_contender,
    impl.bc ("/".intercalate
      (((files.rtt_bandwidth.filter (· ≠ "")).drop 1).map fun l => second_word (tr_d_commas l)))]

/-- The condition under which a trial is rejected. -/
def marked (c : Consts) (files : Files) : Bool :=
  !(grep "32.00 ppb" (tail c.MAIN_DURATION_COPY files.rtt_server)).isEmpty

/-- `while ! runtrial "$@"; do :; done`: the files of the run that completed,
    and the number of runs made so far. -/
def await_run (runs : ℕ → Run) : ℕ → ℕ → Option (Files × ℕ)
  | 0, _ => none
  | fuel + 1, made =>
    if (runs made).completed then some ((runs made).files, made + 1)
    else await_run runs fuel (made + 1)

/-- The loop over `redo`.  `last` is what the previous iteration has left in
    the variables and files. -/
def redo_loop (impl : Impl) (c : Consts) (runs : ℕ → Run) (tries : ℕ) :
    ℕ → ℤ → ℕ → Shell → Vars × Files → Option (Shell × (Vars × Files) × ℕ)
  | 0, _, _, _, _ => none
  | fuel + 1, redo, made, sh, last =>
    if redo > 0 then
      match await_run runs tries made with
      | none => none
      | some (files, made) =>
        redo_loop impl c runs tries fuel (if marked c files then redo - 1 else 0) made
          (sh.ensure_header c files) (measure impl c files, files)
    else some (sh, last, made)

/-- `recordtrial`: the variables afterwards and the number of runs made.
    `left` is what earlier calls have left in the variables and files. -/
def recordtrial (impl : Impl) (c : Consts) (runs : ℕ → Run) (tries fuel : ℕ) (var : Series)
    (sh : Shell) (left : Vars × Files) : Option (Shell × ℕ) :=
  match redo_loop impl c runs tries fuel 1 0 sh left with
  | none => none
  | some (sh, last, made) =>
    some ({ sh with
      series := fun s => if s = var then sh.series s ++ [row impl c last.1 last.2]
        else sh.series s }, made)

/-! ## Section 2: The loops -/

section loops
variable {impl : Impl} {c : Consts} {runs : ℕ → Run}

/-- The first completed run. -/
def FirstCompleted (runs : ℕ → Run) (n : ℕ) : Prop :=
  (runs n).completed = true ∧ ∀ i, i < n → (runs i).completed = false

/-- Waiting for a completed run ends at the first one. -/
theorem await_run_eq_some {fuel made n : ℕ} {files : Files}
    (h : await_run runs fuel made = some (files, n)) :
    ∃ m, n = m + 1 ∧ files = (runs m).files ∧ (runs m).completed = true ∧ made ≤ m ∧
      ∀ i, made ≤ i → i < m → (runs i).completed = false := by
  induction fuel generalizing made with
  | zero => cases h
  | succ fuel ih =>
    unfold await_run at h
    by_cases hdone : (runs made).completed = true
    · rw [if_pos hdone] at h
      cases h
      exact ⟨made, rfl, rfl, hdone, Nat.le_refl _, fun i hle hlt => by omega⟩
    · rw [if_neg hdone] at h
      -- run `made` did not complete, and the others before `m` did not either
      obtain ⟨m, hn, hfiles, hcompleted, hle, hbefore⟩ := ih h
      refine ⟨m, hn, hfiles, hcompleted, by omega, ?_⟩
      intro i hi hlt
      by_cases heq : i = made
      · rw [heq]
        exact Bool.eq_false_iff.mpr hdone
      · exact hbefore i (by omega) hlt

/-- It ends if there is one. -/
theorem await_run_of_completed {fuel made m : ℕ} (hle : made ≤ m) (hfuel : m < made + fuel)
    (hcompleted : (runs m).completed = true)
    (hbefore : ∀ i, made ≤ i → i < m → (runs i).completed = false) :
    await_run runs fuel made = some ((runs m).files, m + 1) := by
  induction fuel generalizing made with
  | zero => omega
  | succ fuel ih =>
    unfold await_run
    by_cases heq : made = m
    · subst heq
      rw [if_pos hcompleted]
    · rw [hbefore made (Nat.le_refl _) (by omega), if_neg (by simp)]
      exact ih (by omega) (by omega) (fun i hi => hbefore i (by omega))

/-- Whatever the log says, the countdown from 1 ends after one completed run. -/
theorem redo_loop_one {fuel tries made : ℕ} {sh : Shell} {last : Vars × Files} {files : Files}
    {n : ℕ} (hawait : await_run runs tries made = some (files, n)) :
    redo_loop impl c runs tries (fuel + 2) 1 made sh last
      = some (sh.ensure_header c files, (measure impl c files, files), n) := by
  unfold redo_loop
  rw [if_pos (by decide), hawait]
  simp only
  unfold redo_loop
  rw [if_neg]
  split <;> decide

/-- What a call does, if there is a first completed run. -/
theorem recordtrial_eq {n : ℕ} (hfirst : FirstCompleted runs n) (var : Series) (sh : Shell)
    (left : Vars × Files) {tries : ℕ} (htries : n < tries) (fuel : ℕ) :
    recordtrial impl c runs tries (fuel + 2) var sh left
      = some ({ sh.ensure_header c (runs n).files with
        series := fun s => if s = var then (sh.ensure_header c (runs n).files).series s
            ++ [row impl c (measure impl c (runs n).files) (runs n).files]
          else (sh.ensure_header c (runs n).files).series s }, n + 1) := by
  have hawait : await_run runs tries 0 = some ((runs n).files, n + 1) :=
    await_run_of_completed (Nat.zero_le n) (by omega) hfirst.1 (fun i _ hlt => hfirst.2 i hlt)
  unfold recordtrial
  rw [redo_loop_one hawait]

/-- A call that returns has waited for the first completed run. -/
theorem recordtrial_firstCompleted {tries fuel made : ℕ} {var : Series} {sh sh' : Shell}
    {left : Vars × Files}
    (h : recordtrial impl c runs tries fuel var sh left = some (sh', made)) :
    ∃ n, FirstCompleted runs n ∧ made = n + 1 := by
  unfold recordtrial at h
  cases hloop : redo_loop impl c runs tries fuel 1 0 sh left with
  | none => rw [hloop] at h; cases h
  | some r =>
    obtain ⟨sh₁, last, made₁⟩ := r
    rw [hloop] at h
    simp only [Option.some.injEq, Prod.mk.injEq] at h
    -- the loop cannot return without waiting for a run and leaving again
    cases fuel with
    | zero => cases hloop
    | succ fuel =>
      cases hawait : await_run runs tries 0 with
      | none =>
        unfold redo_loop at hloop
        rw [if_pos (by decide), hawait] at hloop
        cases hloop
      | some r =>
        obtain ⟨files, n⟩ := r
        obtain ⟨m, hn, -, hcompleted, -, hbefore⟩ := await_run_eq_some hawait
        cases fuel with
        | zero =>
          unfold redo_loop at hloop
          rw [if_pos (by decide), hawait] at hloop
          cases hloop
        | succ fuel =>
          rw [redo_loop_one hawait] at hloop
          cases hloop
          exact ⟨m, ⟨hcompleted, fun i => hbefore i (Nat.zero_le i)⟩, by rw [← h.2, hn]⟩

/-! ## Section 3: Rejected trials -/

/-- A run that completed with the marker in the tail of the server's log. -/
def Rejected (c : Consts) (run : Run) : Prop :=
  run.completed = true ∧ marked c run.files = true

/-- The call made the runs up to `n`, repeated every rejected one, and appended
    exactly one row to the series, that of run `n`, which completed and was
    not rejected. -/
structure RecordsGood (impl : Impl) (c : Consts) (runs : ℕ → Run) (var : Series)
    (sh sh' : Shell) (made n : ℕ) : Prop where
  made_eq : made = n + 1
  completed : (runs n).completed = true
  not_rejected : ¬Rejected c (runs n)
  repeated : ∀ i, i < made → Rejected c (runs i) → i + 1 < made
  one_row : ∃ before, before = (if sh.header = "" then [sh'.header] else sh.series var) ∧
    sh'.series var = before ++ [row impl c (measure impl c (runs n).files) (runs n).files]

/-- **Rejected trials**: for a stream of outcomes, the call returns with one
    row of a completed run that was not rejected, all rejected runs repeated,
    iff some run completes and the first one that does is not rejected. -/
theorem recordtrial_records_iff (var : Series) (sh : Shell) (left : Vars × Files) :
    (∃ tries fuel sh' made n,
      recordtrial impl c runs tries fuel var sh left = some (sh', made) ∧
        RecordsGood impl c runs var sh sh' made n) ↔
      ∃ n, FirstCompleted runs n ∧ ¬Rejected c (runs n) := by
  constructor
  · intro h
    obtain ⟨tries, fuel, sh', made, n, hrun, hgood⟩ := h
    obtain ⟨m, hfirst, hmade⟩ := recordtrial_firstCompleted hrun
    have hnm : n = m := by
      have := hgood.made_eq
      omega
    exact ⟨m, hfirst, hnm ▸ hgood.not_rejected⟩
  · intro h
    obtain ⟨n, hfirst, hgood⟩ := h
    -- two tests of the loop condition are enough: `redo` starts at 1
    refine ⟨n + 1, 2, _, n + 1, n, recordtrial_eq hfirst var sh left (by omega) 0,
      rfl, hfirst.1, hgood, ?_, ?_⟩
    · intro i hi hrej
      by_cases hin : i = n
      · rw [hin] at hrej
        exact absurd hrej hgood
      · omega
    · refine ⟨_, rfl, ?_⟩
      simp only [if_pos]
      unfold Shell.ensure_header
      split <;> rfl

end loops

/-- Plugins that find nothing. -/
def silentImpl : Impl where
  extracttput := fun _ => ""
  extractavelatency := fun _ => ""
  extractalllatencies := fun _ => []
  extracttaillatency := fun _ _ _ => ""
  extractcontendertput := fun _ => "0"
  sort_n := id
  bc := id

/-- A trial of ten seconds. -/
def tenSeconds : Consts where
  independent := "num_trash"
  value := "1"
  WARMUP := 600
  MAIN_DURATION_COPY := 10

/-- All runs complete, the first one with the marker in its log. -/
def queueingOnce (i : ℕ) : Run where
  completed := true
  files :=
    { rtt_server := [if i = 0 then "drop rate 32.00 ppb" else "drop rate 0.00 ppb"]
      rtt_client := []
      rtt_perf := []
      rtt_perf_duration := []
      rtt_contender := []
      rtt_bandwidth := [] }

/-- The first run is rejected and recorded; the good second one is not made. -/
theorem recordtrial_records_rejected :
    Rejected tenSeconds (queueingOnce 0) ∧ ¬Rejected tenSeconds (queueingOnce 1) ∧
      (∃ sh', recordtrial silentImpl tenSeconds queueingOnce 1 2 .baseline
          { header := "h", series := fun _ => ["h"] }
          (measure silentImpl tenSeconds (queueingOnce 0).files, (queueingOnce 0).files)
          = some (sh', 1) ∧ (sh'.series .baseline).length = 2) ∧
      ¬∃ tries fuel sh' made n, recordtrial silentImpl tenSeconds queueingOnce tries fuel .baseline
          { header := "h", series := fun _ => ["h"] }
          (measure silentImpl tenSeconds (queueingOnce 0).files, (queueingOnce 0).files)
          = some (sh', made) ∧
        RecordsGood silentImpl tenSeconds queueingOnce .baseline
          { header := "h", series := fun _ => ["h"] } sh' made n := by
  have hrejected : Rejected tenSeconds (queueingOnce 0) := ⟨rfl, by decide⟩
  refine ⟨hrejected, fun h => absurd h.2 (by decide), ?_, ?_⟩
  · refine ⟨_, recordtrial_eq (n := 0) ⟨rfl, fun i hi => by omega⟩ .baseline _ _ (by decide) 0, ?_⟩
    rfl
  · intro h
    obtain ⟨tries, fuel, sh', made, n, hrun, hgood⟩ := h
    obtain ⟨m, hfirst, hmade⟩ := recordtrial_firstCompleted hrun
    have hm : m = 0 := by
      by_contra hne
      have := hfirst.2 0 (by omega)
      cases this
    have hn : n = 0 := by
      have := hgood.made_eq
      omega
    rw [hn] at hgood
    exact hgood.not_rejected hrejected

end NetworkRtt
