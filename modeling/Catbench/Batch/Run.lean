import Catbench.Batch.Oneline
import Catbench.Framework.LTS

/-! # Batch runs (`batch`)

    The script goes through the job file line by line.  Before each job it
    counts the lines again, and while a job is launched, runs and completes it
    rewrites the comment of its line.  The user may edit the file at any time,
    as long as the lines that were reached stay where they are.

    A step is one access of the script to the file, one evaluation of the
    driver's command line, or one edit of the user.  What the shell makes of
    the arguments of a line when it evaluates them is a parameter.
-/

open LTS TextLines

namespace Batch

/-! ## Section 1: Model -/

/-- What `timestamp` prints. -/
structure Timestamp where
  text : Text
  plain : Plain text

/-- The next statement of the loop. -/
inductive Pc where
  /-- The loop's condition. -/
  | check
  | read
  /-- The launching comment, after so many dots. -/
  | launching (time : ℕ)
  | running
  | driver
  | completed
  | done
  deriving DecidableEq, Repr

structure State where
  file : Text
  line : ℕ
  args : Text
  pc : Pc
  /-- The arguments of the driver's invocations so far. -/
  calls : List (List Text)
  /-- The lines as they stood when they were reached; the script has no use
      for them. -/
  reached : List Text

inductive Label where
  /-- The script takes its next step, at some time. -/
  | batch (now : Timestamp)
  /-- The user writes the file. -/
  | user (file : Text)

/-- How many lines have been reached. -/
def State.settled (s : State) : ℕ :=
  match s.pc with
  | .check | .read | .done => s.line - 1
  | _ => s.line

/-- The edits of the user: the lines that were reached stay, and so does a line
    that has been counted. -/
def State.MayWrite (s : State) (file : Text) : Prop :=
  (ended file).take s.settled = (ended s.file).take s.settled ∧
    (s.pc = .read → s.line ≤ wc_l file)

instance (s : State) (file : Text) : Decidable (s.MayWrite file) :=
  inferInstanceAs (Decidable (_ ∧ _))

/-- The comment after the given number of dots. -/
def launching_comment (time : ℕ) : Text := "launching".toList ++ List.replicate time '.'

/-- The file with a new comment in the current line. -/
def State.annotated (s : State) (text : Text) : Text := (oneline s.file s.line (some text)).2

/-- The next statement of the script.  `evaluate` has the arguments of the
    driver's invocations in the evaluation of its command line with some
    arguments: exactly one list of them if these are just arguments. -/
def advance (evaluate : Text → List (List Text)) (now : Timestamp) (s : State) : Option State :=
  match s.pc with
  | .check => some { s with pc := if s.line ≤ wc_l s.file then .read else .done }
  | .read => some { s with
      args := Shell.command_substitution (oneline s.file s.line none).1
      reached := s.reached ++ [(ended s.file).getD (s.line - 1) []]
      pc := .launching 0 }
  | .launching time => some { s with
      file := s.annotated (launching_comment (time + 1))
      pc := if time + 1 < 3 then .launching (time + 1) else .running }
  | .running => some { s with
      file := s.annotated ("running since ".toList ++ now.text)
      pc := .driver }
  | .driver => some { s with
      calls := s.calls ++ evaluate s.args
      pc := .completed }
  | .completed => some { s with
      file := s.annotated ("completed at ".toList ++ now.text)
      line := s.line + 1
      pc := .check }
  | .done => none

def step (evaluate : Text → List (List Text)) (s : State) : Label → Option State
  | .batch now => advance evaluate now s
  | .user file => if s.pc ≠ .done ∧ s.MayWrite file then some { s with file := file } else none

/-- The state before the loop. -/
def started (file : Text) : State := ⟨file, 1, [], .check, [], []⟩

/-- The file that the loop starts with: a file that has comments already may be
    left alone, or they are removed, or the script is aborted. -/
def confirmed (file : Text) (abort remove : Bool) : Option Text :=
  if '#' ∈ file then
    if abort then none
    else if remove then some (join ((ended file).map strip_comment) (strip_comment (rest file)))
    else some file
  else some file

def system (evaluate : Text → List (List Text)) : System State Label where
  init s := ∃ file abort remove, (confirmed file abort remove).map started = some s
  step := step evaluate

theorem Plain.append {t u : Text} (ht : Plain t) (hu : Plain u) : Plain (t ++ u) := by
  intro c hc
  rcases List.mem_append.mp hc with h | h
  · exact ht c h
  · exact hu c h

theorem plain_launching_comment (time : ℕ) : Plain (launching_comment time) := by
  apply Plain.append (by decide)
  intro c hc
  rw [List.eq_of_mem_replicate hc]
  decide

theorem plain_running (now : Timestamp) : Plain ("running since ".toList ++ now.text) :=
  Plain.append (by decide) now.plain

theorem plain_completed (now : Timestamp) : Plain ("completed at ".toList ++ now.text) :=
  Plain.append (by decide) now.plain

/-- The arguments of the lines. -/
def arguments (file : Text) : List Text := (ended file).map strip_comment

theorem length_arguments (file : Text) : (arguments file).length = wc_l file := by
  rw [arguments, List.length_map, wc_l, count_break]

theorem map_modify_of_comp {α β : Type*} {f : α → α} {g : α → β} (h : ∀ a, g (f a) = g a)
    (i : ℕ) (xs : List α) : (xs.modify i f).map g = xs.map g := by
  apply List.ext_getElem?
  intro j
  rw [List.getElem?_map, List.getElem?_map, List.getElem?_modify]
  cases xs[j]? with
  | none => rfl
  | some a =>
    show some (g (if i = j then f a else a)) = some (g a)
    split
    · rw [h a]
    · rfl

/-- A comment changes no arguments. -/
theorem arguments_annotated {s : State} {text : Text} (htext : Plain text) (hpos : 0 < s.line)
    (hle : s.line ≤ wc_l s.file) : arguments (s.annotated text) = arguments s.file := by
  rw [wc_l, count_break] at hle
  have hended : ended (s.annotated text) =
      (ended s.file).modify (s.line - 1) (replace_comment text) := by
    show (split _).1 = _
    rw [State.annotated, oneline_annotates htext hpos hle]
  rw [arguments, hended]
  exact map_modify_of_comp (strip_replace_comment text) _ _

/-! ## Section 3: Invariant -/

/-- How many jobs have been run. -/
def State.called (s : State) : ℕ := if s.pc = .completed then s.line else s.line - 1

structure Inv (evaluate : Text → List (List Text)) (s : State) : Prop where
  line_pos : 0 < s.line
  length_reached : s.reached.length = s.settled
  /-- The lines that were reached have kept their arguments. -/
  kept : s.reached.map strip_comment = (arguments s.file).take s.settled
  counted : s.pc = .read → s.line ≤ wc_l s.file
  args : s.called < s.settled → s.args = strip_comment (s.reached.getD s.called [])
  calls : s.calls = (s.reached.take s.called).flatMap fun line => evaluate (strip_comment line)
  exhausted : s.pc = .done → wc_l s.file = s.settled

variable {evaluate : Text → List (List Text)} {s s' : State}

theorem Inv.settled_le (h : Inv evaluate s) : s.settled ≤ wc_l s.file := by
  have hlen := congrArg List.length h.kept
  rw [List.length_map, List.length_take, h.length_reached, length_arguments] at hlen
  omega

theorem inv_started (file : Text) : Inv evaluate (started file) where
  line_pos := Nat.one_pos
  length_reached := rfl
  kept := rfl
  counted := nofun
  args := fun h => absurd h (Nat.lt_irrefl 0)
  calls := rfl
  exhausted := nofun

/-- Steps inside of a job change the comment of its line only. -/
theorem Inv.annotate (h : Inv evaluate s) (hpos : 0 < s'.line) (hsettled : s'.settled = s.settled)
    (hcalled : s'.called = s.called) (hreached : s'.reached = s.reached)
    (hcalls : s'.calls = s.calls) (hargs : s'.args = s.args)
    (hfile : arguments s'.file = arguments s.file) (hread : s'.pc ≠ .read)
    (hdone : s'.pc ≠ .done) : Inv evaluate s' where
  line_pos := hpos
  length_reached := by rw [hreached, hsettled, h.length_reached]
  kept := by rw [hreached, hsettled, hfile, h.kept]
  counted := fun hpc => absurd hpc hread
  args := by
    rw [hcalled, hsettled, hreached, hargs]
    exact h.args
  calls := by rw [hcalls, hreached, hcalled, h.calls]
  exhausted := fun hpc => absurd hpc hdone

/-- The user keeps the lines that were reached. -/
theorem Inv.user (h : Inv evaluate s) {file : Text} (hpc : s.pc ≠ .done) (hfile : s.MayWrite file) :
    Inv evaluate { s with file := file } where
  line_pos := h.line_pos
  length_reached := h.length_reached
  kept := by
    have htake := congrArg (List.map strip_comment) hfile.1
    rw [List.map_take, List.map_take] at htake
    exact h.kept.trans htake.symm
  counted := hfile.2
  args := h.args
  calls := h.calls
  exhausted := fun hdone => absurd hdone hpc

theorem Inv.check (h : Inv evaluate s) (hpc : s.pc = .check) :
    Inv evaluate { s with pc := if s.line ≤ wc_l s.file then .read else .done } := by
  have hsettled : s.settled = s.line - 1 := by simp [State.settled, hpc]
  have hcalled : s.called = s.line - 1 := by simp [State.called, hpc]
  have hle := h.settled_le
  have hlen := h.length_reached
  have hkept := h.kept
  have hcalls := h.calls
  rw [hsettled] at hlen hkept
  rw [hcalled] at hcalls
  have hpos := h.line_pos
  by_cases hcount : s.line ≤ wc_l s.file
  · rw [if_pos hcount]
    exact ⟨hpos, hlen, hkept, fun _ => hcount, fun hlt => absurd hlt (Nat.lt_irrefl _), hcalls, nofun⟩
  · -- The lines that were reached are all there are.
    rw [if_neg hcount]
    refine ⟨hpos, hlen, hkept, nofun, fun hlt => absurd hlt (Nat.lt_irrefl _), hcalls, ?_⟩
    intro _
    show wc_l s.file = s.line - 1
    omega

theorem Inv.read (h : Inv evaluate s) (hpc : s.pc = .read) :
    Inv evaluate { s with
      args := Shell.command_substitution (oneline s.file s.line none).1
      reached := s.reached ++ [(ended s.file).getD (s.line - 1) []]
      pc := .launching 0 } := by
  have hsettled : s.settled = s.line - 1 := by simp [State.settled, hpc]
  have hcalled : s.called = s.line - 1 := by simp [State.called, hpc]
  have hpos := h.line_pos
  have hlen : s.reached.length = s.line - 1 := h.length_reached.trans hsettled
  have hcount : s.line ≤ (ended s.file).length := by
    rw [← count_break]
    exact h.counted hpc
  have hlt : s.line - 1 < (arguments s.file).length := by
    rw [arguments, List.length_map]
    omega
  -- the line that was counted is still there, and is read as it stands
  have hlast : strip_comment ((ended s.file).getD (s.line - 1) []) = (arguments s.file)[s.line - 1] := by
    rw [List.getD_eq_getElem _ _ (by omega)]
    exact (List.getElem_map strip_comment).symm
  refine ⟨hpos, ?_, ?_, nofun, ?_, ?_, nofun⟩
  · show (s.reached ++ [_]).length = s.line
    rw [List.length_append, hlen]
    exact Nat.sub_add_cancel hpos
  · show (s.reached ++ [_]).map strip_comment = (arguments s.file).take s.line
    rw [List.map_append, List.map_singleton, h.kept, hsettled, hlast, List.take_concat_get' _ _ hlt,
      Nat.sub_add_cancel hpos]
  · intro _
    show _ = strip_comment ((s.reached ++ [_]).getD (s.line - 1) [])
    rw [oneline_args hpos hcount, ← hlen, List.getD_append_right _ _ _ _ (Nat.le_refl _),
      Nat.sub_self]
    rfl
  · show s.calls = ((s.reached ++ [_]).take (s.line - 1)).flatMap _
    rw [h.calls, hcalled, List.take_append_of_le_length (Nat.le_of_eq hlen.symm)]

theorem Inv.driver (h : Inv evaluate s) (hpc : s.pc = .driver) :
    Inv evaluate { s with calls := s.calls ++ evaluate s.args, pc := .completed } := by
  have hsettled : s.settled = s.line := by simp [State.settled, hpc]
  have hcalled : s.called = s.line - 1 := by simp [State.called, hpc]
  have hpos := h.line_pos
  have hlen : s.reached.length = s.line := h.length_reached.trans hsettled
  have hkept := h.kept
  have hargs := h.args (by omega)
  rw [hsettled] at hkept
  rw [hcalled, List.getD_eq_getElem _ _ (by omega)] at hargs
  refine ⟨hpos, hlen, hkept, nofun, fun hlt => absurd hlt (Nat.lt_irrefl _), ?_, nofun⟩
  show s.calls ++ evaluate s.args = (s.reached.take s.line).flatMap _
  -- the job of the current line joins those of the lines before
  have htake : s.reached.take s.line = s.reached.take (s.line - 1) ++ [s.reached[s.line - 1]] := by
    rw [List.take_concat_get' _ _ (by omega), Nat.sub_add_cancel hpos]
  rw [htake, List.flatMap_append, h.calls, hcalled, hargs, List.flatMap_singleton]

/-- The line of a job is there as long as the job lasts. -/
theorem Inv.line_le (h : Inv evaluate s) (hsettled : s.settled = s.line) : s.line ≤ wc_l s.file := by
  rw [← hsettled]
  exact h.settled_le

theorem inv_advance {now : Timestamp} (h : Inv evaluate s)
    (hstep : advance evaluate now s = some s') : Inv evaluate s' := by
  have hpos := h.line_pos
  unfold advance at hstep
  cases hpc : s.pc with
  | check =>
    rw [hpc] at hstep
    rw [← Option.some.inj hstep]
    exact h.check hpc
  | read =>
    rw [hpc] at hstep
    rw [← Option.some.inj hstep]
    exact h.read hpc
  | launching time =>
    rw [hpc] at hstep
    rw [← Option.some.inj hstep]
    have hsettled : s.settled = s.line := by simp [State.settled, hpc]
    have hcalled : s.called = s.line - 1 := by simp [State.called, hpc]
    -- one dot more in the comment; the arguments of the line stay
    have hfile := arguments_annotated (plain_launching_comment (time + 1)) hpos
      (h.line_le hsettled)
    by_cases hmore : time + 1 < 3
    · rw [if_pos hmore]
      exact h.annotate hpos hsettled.symm hcalled.symm rfl rfl rfl hfile nofun nofun
    · rw [if_neg hmore]
      exact h.annotate hpos hsettled.symm hcalled.symm rfl rfl rfl hfile nofun nofun
  | running =>
    rw [hpc] at hstep
    rw [← Option.some.inj hstep]
    have hsettled : s.settled = s.line := by simp [State.settled, hpc]
    have hcalled : s.called = s.line - 1 := by simp [State.called, hpc]
    have hfile := arguments_annotated (plain_running now) hpos (h.line_le hsettled)
    exact h.annotate hpos hsettled.symm hcalled.symm rfl rfl rfl hfile nofun nofun
  | driver =>
    rw [hpc] at hstep
    rw [← Option.some.inj hstep]
    exact h.driver hpc
  | completed =>
    rw [hpc] at hstep
    rw [← Option.some.inj hstep]
    have hsettled : s.settled = s.line := by simp [State.settled, hpc]
    have hcalled : s.called = s.line := by simp [State.called, hpc]
    -- the line counts as reached before and after its number is passed
    have hfile := arguments_annotated (plain_completed now) hpos (h.line_le hsettled)
    exact h.annotate (Nat.succ_pos _) hsettled.symm hcalled.symm rfl rfl rfl hfile nofun nofun
  | done =>
    rw [hpc] at hstep
    cases hstep

theorem inv_step {l : Label} (h : Inv evaluate s) (hstep : step evaluate s l = some s') :
    Inv evaluate s' := by
  cases l with
  | batch now => exact inv_advance h hstep
  | user file =>
    rw [step] at hstep
    by_cases hmay : s.pc ≠ .done ∧ s.MayWrite file
    · rw [if_pos hmay] at hstep
      rw [← Option.some.inj hstep]
      exact h.user hmay.1 hmay.2
    · rw [if_neg hmay] at hstep
      cases hstep

/-- **Invariant**: it holds all along a run, whatever the user does. -/
theorem inv_run {s₀ : State} {labels : List Label} (hinit : (system evaluate).init s₀)
    (hrun : (system evaluate).run s₀ labels = some s) : Inv evaluate s := by
  obtain ⟨file, abort, remove, hfile⟩ := hinit
  obtain ⟨file', -, rfl⟩ := Option.map_eq_some_iff.mp hfile
  have hkeeps : ∀ done s l s', (system evaluate).run (started file') done = some s →
      Inv evaluate s → (system evaluate).step s l = some s' → Inv evaluate s' := by
    intro done s l s' _ h hstep
    exact inv_step h hstep
  exact LTS.run_history hkeeps (inv_started file') hrun

/-! ## Section 4: Complete runs -/

/-- The number of steps that the script has before it, if the user leaves the
    file alone. -/
def State.remaining (s : State) : ℕ :=
  let steps := 8 * (wc_l s.file + 1 - s.line)
  match s.pc with
  | .check => steps + 1
  | .read => steps
  | .launching time => steps - 1 - min time 2
  | .running => steps - 4
  | .driver => steps - 5
  | .completed => steps - 6
  | .done => 0

theorem wc_l_annotated {text : Text} (htext : Plain text) (hpos : 0 < s.line)
    (hle : s.line ≤ wc_l s.file) : wc_l (s.annotated text) = wc_l s.file := by
  rw [← length_arguments, ← length_arguments, arguments_annotated htext hpos hle]

theorem advance_remaining (now : Timestamp) (h : Inv evaluate s) (hpc : s.pc ≠ .done) :
    ∃ s', advance evaluate now s = some s' ∧ s'.remaining < s.remaining := by
  have hpos := h.line_pos
  have hjob : s.settled = s.line → s.line ≤ wc_l s.file := h.line_le
  unfold advance
  cases hcase : s.pc with
  | check =>
    refine ⟨_, rfl, ?_⟩
    by_cases hcount : s.line ≤ wc_l s.file
    · simp only [State.remaining, hcase, if_pos hcount]
      omega
    · simp only [State.remaining, hcase, if_neg hcount]
      omega
  | read =>
    have hcount := h.counted hcase
    refine ⟨_, rfl, ?_⟩
    simp only [State.remaining, hcase]
    omega
  | launching time =>
    have hcount := hjob (by simp [State.settled, hcase])
    have hwc := wc_l_annotated (plain_launching_comment (time + 1)) hpos hcount
    refine ⟨_, rfl, ?_⟩
    by_cases hmore : time + 1 < 3
    · simp only [State.remaining, hcase, if_pos hmore, hwc]
      omega
    · simp only [State.remaining, hcase, if_neg hmore, hwc]
      omega
  | running =>
    have hcount := hjob (by simp [State.settled, hcase])
    have hwc := wc_l_annotated (plain_running now) hpos hcount
    refine ⟨_, rfl, ?_⟩
    simp only [State.remaining, hcase, hwc]
    omega
  | driver =>
    have hcount := hjob (by simp [State.settled, hcase])
    refine ⟨_, rfl, ?_⟩
    simp only [State.remaining, hcase]
    omega
  | completed =>
    have hcount := hjob (by simp [State.settled, hcase])
    have hwc := wc_l_annotated (plain_completed now) hpos hcount
    refine ⟨_, rfl, ?_⟩
    simp only [State.remaining, hcase, hwc]
    omega
  | done => exact absurd hcase hpc

/-- **Progress**: from every state of a run the script comes to its end, if the
    user leaves the file alone. -/
theorem batch_ends (now : Timestamp) (h : Inv evaluate s) :
    ∃ n s', (system evaluate).run s (List.replicate n (.batch now)) = some s' ∧ s'.pc = .done := by
  induction hn : s.remaining using Nat.strong_induction_on generalizing s with
  | _ remaining ih =>
    subst hn
    by_cases hdone : s.pc = .done
    · exact ⟨0, s, rfl, hdone⟩
    · obtain ⟨t, hstep, hless⟩ := advance_remaining now h hdone
      obtain ⟨n, s', hrun, hs'⟩ := ih _ hless (inv_advance h hstep) rfl
      refine ⟨n + 1, s', ?_, hs'⟩
      show (advance evaluate now s >>= fun t => (system evaluate).run t _) = some s'
      rw [hstep]
      exact hrun

end Batch
