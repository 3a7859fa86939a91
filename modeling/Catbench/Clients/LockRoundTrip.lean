import Catbench.Framework.LTS
import Mathlib.Tactic.Common

/-! # The round trips of `lockclient` and `lockserver-ng`

    The client sends one frame per iteration and takes the next frame that
    arrives for its answer; frames carry no number.  The server echoes the
    frames that are addressed to it.  Between them is a lossless network that
    keeps the order of the frames of each direction and delays them at will.

    A client that times out gives up, except in iteration 0, where it sends
    its frame once more and goes on waiting.
-/

namespace LockRoundTrip

/-! ## Section 1: Model -/

def ITERATIONS : ℕ := 2000

/-- A frame: its Ethernet header, and the iteration in which the client has
    transmitted it, which is not part of the frame and never read. -/
structure Frame (Addr : Type) where
  d_addr : Addr
  s_addr : Addr
  sent_in : ℕ
  deriving DecidableEq, Repr

/-- Where the client stands in `experiment`. -/
inductive Client where
  /-- At the head of iteration `times`. -/
  | starting (times : ℕ)
  /-- At the head of the retry loop, with its packet allocated. -/
  | sending (times : ℕ)
  /-- Polling for a frame. -/
  | waiting (times : ℕ)
  | returned (code : ℕ)
  deriving DecidableEq, Repr

/-- The two addresses and the `-m` argument of the client. -/
structure Net (Addr : Type) where
  client : Addr
  server : Addr
  mac : Addr

/-- The two parties, the frames in flight, and the iterations that have ended,
    each with the frame whose reception has ended it. -/
structure State (Addr : Type) where
  client : Client
  /-- Whether the server is still in its loop. -/
  serving : Bool
  to_server : List (Frame Addr)
  to_client : List (Frame Addr)
  ended : List (ℕ × Frame Addr)
  deriving DecidableEq, Repr

/-- How the allocations at the head of an iteration end. -/
inductive Prepared where
  | ok
  | no_packet
  | no_buffer
  deriving DecidableEq, Repr

/-- The steps: the client prepares and sends its frame, the server takes a
    frame and echoes it, the client receives a frame or times out, and the
    server is stopped by a signal.  The arguments say how a call ends. -/
inductive Label where
  | prepare (result : Prepared)
  | send (ok : Bool)
  | echo (ok : Bool)
  | receive
  | timeout (times : ℕ)
  | stop
  deriving DecidableEq, Repr

variable {Addr : Type}

/-- The state in which both parties have entered `experiment`. -/
def initial (Addr : Type) : State Addr where
  client := .starting 0
  serving := true
  to_server := []
  to_client := []
  ended := []

/-- The head of the client's loop after iteration `times`. -/
def next_iteration (times : ℕ) : Client :=
  if times + 1 < ITERATIONS then .starting (times + 1) else .returned 0

/-- The server takes the oldest frame: it answers what is addressed to it, and
    leaves its loop if the answer cannot be transmitted. -/
def State.serve [DecidableEq Addr] (net : Net Addr) (s : State Addr) (ok : Bool) : Option (State Addr) :=
  match s.serving, s.to_server with
  | true, frame :: rest =>
    if frame.d_addr ≠ net.server then some { s with to_server := rest }
    else if ok then
      some { s with
        to_server := rest
        to_client := s.to_client ++ [{ frame with d_addr := frame.s_addr, s_addr := net.server }] }
    else some { s with to_server := rest, serving := false }
  | _, _ => none

/-- The client takes the oldest frame, whatever it is. -/
def State.receive (s : State Addr) : Option (State Addr) :=
  match s.client, s.to_client with
  | .waiting times, frame :: rest =>
    some { s with
      client := next_iteration times
      to_client := rest
      ended := s.ended ++ [(times, frame)] }
  | _, _ => none

/-- The frame that the client transmits in iteration `times`. -/
def Net.request (net : Net Addr) (times : ℕ) : Frame Addr where
  d_addr := net.mac
  s_addr := net.client
  sent_in := times

/-- `experiment` of the client at the head of an iteration. -/
def State.prepare (s : State Addr) (result : Prepared) : Option (State Addr) :=
  match s.client with
  | .starting times =>
    some { s with client := match result with
      | .ok => .sending times
      | .no_packet => .returned 2
      | .no_buffer => .returned 3 }
  | _ => none

def State.send (net : Net Addr) (s : State Addr) (ok : Bool) : Option (State Addr) :=
  match s.client with
  | .sending times =>
    if ok then
      some { s with
        client := .waiting times
        to_server := s.to_server ++ [net.request times] }
    else some { s with client := .returned 4 }
  | _ => none

/-- A timeout: only in iteration 0 the client goes back to its retry loop. -/
def State.time_out (s : State Addr) (times : ℕ) : Option (State Addr) :=
  if s.client = .waiting times then
    some { s with client := if times = 0 then .sending 0 else .returned 5 }
  else none

/-- One step of the two programs and the network. -/
def step [DecidableEq Addr] (net : Net Addr) (s : State Addr) : Label → Option (State Addr)
  | .prepare result => s.prepare result
  | .send ok => s.send net ok
  | .echo ok => s.serve net ok
  | .receive => s.receive
  | .timeout times => s.time_out times
  | .stop => some { s with serving := false }

/-- The programs and the network as a transition system. -/
def system [DecidableEq Addr] (net : Net Addr) : LTS.System (State Addr) Label where
  init := fun s => s = initial Addr
  step := step net

/-! ## Section 2: The invariant

    Frames are sent, echoed and received in one order, so everything is given
    by how many there are: with `r` retransmissions in iteration 0, the frame
    number `i` carries the iteration `i - r`. -/

/-- The server's echo of the frame of iteration `times`. -/
def Net.reply (net : Net Addr) (times : ℕ) : Frame Addr where
  d_addr := net.client
  s_addr := net.server
  sent_in := times

/-- The iteration the client is in, and how many of its frames are not counted
    by the retransmissions before. -/
def Client.position : Client → Option (ℕ × ℕ)
  | .starting times => some (times, 0)
  | .sending times => some (times, 0)
  | .waiting times => some (times, 1)
  | .returned _ => none

/-- After `r` retransmissions and `n` frames in all. -/
structure Inv (net : Net Addr) (r n : ℕ) (s : State Addr) : Prop where
  ended : s.ended = (List.range s.ended.length).map fun i => (i, net.reply (i - r))
  to_client : s.to_client
    = (List.range' s.ended.length s.to_client.length).map fun i => net.reply (i - r)
  to_server : ∀ frame ∈ s.to_server, frame.d_addr = net.mac
  order : net.mac = net.server → s.serving = true → s.to_server
    = (List.range' (s.ended.length + s.to_client.length) s.to_server.length).map
      fun i => net.request (i - r)
  not_addressed : net.mac ≠ net.server → s.ended = [] ∧ s.to_client = []
  at_most : s.ended.length + s.to_client.length ≤ n
  all : net.mac = net.server → s.serving = true →
    s.ended.length + s.to_client.length + s.to_server.length = n
  position : ∀ times k, s.client.position = some (times, k) →
    times = s.ended.length ∧ n = times + r + k

theorem inv_initial (net : Net Addr) : Inv net 0 0 (initial Addr) where
  ended := rfl
  to_client := rfl
  to_server := by
    intro frame hframe
    cases hframe
  order := fun _ _ => rfl
  not_addressed := fun _ => ⟨rfl, rfl⟩
  at_most := Nat.le_refl _
  all := fun _ _ => rfl
  position := by
    intro times k h
    cases h
    exact ⟨rfl, rfl⟩

/-- Steps that only move the client keep the rest. -/
theorem Inv.move {net : Net Addr} {r n : ℕ} {s : State Addr} (h : Inv net r n s) {client : Client}
    (hposition : ∀ times k, client.position = some (times, k) →
      times = s.ended.length ∧ n = times + r + k) :
    Inv net r n { s with client := client } :=
  { h with position := hposition }

section steps
variable {net : Net Addr} {r n : ℕ} {s s' : State Addr}

theorem Inv.prepare (h : Inv net r n s) {result : Prepared}
    (hstep : s.prepare result = some s') : Inv net r n s' := by
  unfold State.prepare at hstep
  cases hclient : s.client with
  | starting times =>
    rw [hclient] at hstep
    cases hstep
    apply h.move
    intro t k hposition
    have hnow := h.position times 0 (by rw [hclient]; rfl)
    cases result with
    | ok => cases hposition; exact hnow
    | no_packet => cases hposition
    | no_buffer => cases hposition
  | sending times => rw [hclient] at hstep; cases hstep
  | waiting times => rw [hclient] at hstep; cases hstep
  | returned code => rw [hclient] at hstep; cases hstep

/-- A frame is sent: one more. -/
theorem Inv.send (h : Inv net r n s) {ok : Bool} (hstep : s.send net ok = some s') :
    ∃ n', Inv net r n' s' := by
  unfold State.send at hstep
  cases hclient : s.client with
  | sending times =>
    rw [hclient] at hstep
    simp only at hstep
    cases ok with
    | false =>
      cases hstep
      exact ⟨n, h.move (fun t k hposition => by cases hposition)⟩
    | true =>
      cases hstep
      obtain ⟨htimes, hn⟩ := h.position times 0 (by rw [hclient]; rfl)
      refine ⟨n + 1, h.ended, h.to_client, ?_, ?_, h.not_addressed, ?_, ?_, ?_⟩
      · intro frame hframe
        rcases List.mem_append.mp hframe with hold | hnew
        · exact h.to_server frame hold
        · rw [List.mem_singleton.mp hnew]
          rfl
      · intro hmac hserving
        have hall := h.all hmac hserving
        -- the iteration is the number of frames before, less the retransmissions
        have hrequest : net.request times
            = net.request (s.ended.length + s.to_client.length + s.to_server.length - r) := by
          congr 1
          omega
        show s.to_server ++ [net.request times] = _
        rw [List.length_append, List.length_singleton, ← List.range'_append_1, List.map_append,
          ← h.order hmac hserving, hrequest]
        rfl
      · exact Nat.le_succ_of_le h.at_most
      · intro hmac hserving
        have hall := h.all hmac hserving
        simp only [List.length_append, List.length_singleton]
        omega
      · intro t k hposition
        cases hposition
        exact ⟨htimes, by omega⟩
  | starting times => rw [hclient] at hstep; cases hstep
  | waiting times => rw [hclient] at hstep; cases hstep
  | returned code => rw [hclient] at hstep; cases hstep

/-- An echo moves the oldest frame over; a frame for somebody else is dropped. -/
theorem Inv.serve [DecidableEq Addr] (h : Inv net r n s) {ok : Bool}
    (hstep : s.serve net ok = some s') : Inv net r n s' := by
  unfold State.serve at hstep
  cases hserving : s.serving with
  | false => rw [hserving] at hstep; cases hstep
  | true =>
    cases hframes : s.to_server with
    | nil => rw [hserving, hframes] at hstep; cases hstep
    | cons frame rest =>
      rw [hserving, hframes] at hstep
      simp only at hstep
      have hmac : frame.d_addr = net.mac := h.to_server frame (by rw [hframes]; simp)
      have hrest : ∀ f ∈ rest, f.d_addr = net.mac := by
        intro f hf
        exact h.to_server f (by rw [hframes]; simp [hf])
      by_cases haddressed : net.mac = net.server
      · rw [if_neg (by rw [hmac]; simp [haddressed])] at hstep
        -- the oldest frame is the next in the order of all frames
        have hall := h.all haddressed hserving
        rw [hframes, List.length_cons] at hall
        have horder := h.order haddressed hserving
        rw [hframes, List.length_cons, List.range'_succ, List.map_cons] at horder
        obtain ⟨hfirst, hothers⟩ := List.cons.inj horder
        cases ok with
        | false =>
          cases hstep
          -- the server has left its loop, so nothing is promised of its queue
          exact ⟨h.ended, h.to_client, hrest, fun _ hno => (by cases hno), h.not_addressed,
            h.at_most, fun _ hno => (by cases hno), h.position⟩
        | true =>
          cases hstep
          refine ⟨h.ended, ?_, hrest, ?_, fun hne => absurd haddressed hne, ?_, ?_, h.position⟩
          · show s.to_client ++ [_] = _
            rw [List.length_append, List.length_singleton, ← List.range'_append_1, List.map_append,
              ← h.to_client, hfirst]
            rfl
          · intro _ _
            show rest = _
            rw [List.length_append, List.length_singleton]
            exact hothers
          · show s.ended.length + (s.to_client ++ [_]).length ≤ n
            rw [List.length_append, List.length_singleton]
            omega
          · intro _ _
            show s.ended.length + (s.to_client ++ [_]).length + rest.length = n
            rw [List.length_append, List.length_singleton]
            omega
      · rw [if_pos (by rw [hmac]; exact haddressed)] at hstep
        cases hstep
        exact ⟨h.ended, h.to_client, hrest, fun heq => absurd heq haddressed, h.not_addressed,
          h.at_most, fun heq => absurd heq haddressed, h.position⟩

/-- A received frame ends the iteration with the number of its place. -/
theorem Inv.receive (h : Inv net r n s) (hstep : s.receive = some s') : Inv net r n s' := by
  unfold State.receive at hstep
  cases hclient : s.client with
  | waiting times =>
    cases hframes : s.to_client with
    | nil => rw [hclient, hframes] at hstep; cases hstep
    | cons frame rest =>
      rw [hclient, hframes] at hstep
      cases hstep
      obtain ⟨htimes, hn⟩ := h.position times 1 (by rw [hclient]; rfl)
      have hreplies := h.to_client
      rw [hframes, List.length_cons, List.range'_succ, List.map_cons] at hreplies
      obtain ⟨hfirst, hothers⟩ := List.cons.inj hreplies
      have hlength : (s.ended ++ [(times, frame)]).length = s.ended.length + 1 := by simp
      have hmost := h.at_most
      rw [hframes, List.length_cons] at hmost
      refine ⟨?_, ?_, h.to_server, ?_, ?_, ?_, ?_, ?_⟩
      · show s.ended ++ [(times, frame)] = _
        rw [hlength, List.range_succ, List.map_append, ← h.ended, htimes, hfirst]
        rfl
      · show rest = _
        rw [hlength]
        exact hothers
      · intro haddressed hserving
        have horder := h.order haddressed hserving
        show s.to_server = _
        rw [hlength, Nat.add_assoc, Nat.add_comm 1, ← List.length_cons, ← hframes]
        exact horder
      · intro hne
        have hnone := (h.not_addressed hne).2
        rw [hframes] at hnone
        cases hnone
      · show (s.ended ++ [(times, frame)]).length + rest.length ≤ n
        rw [hlength]
        omega
      · intro haddressed hserving
        have hall := h.all haddressed hserving
        rw [hframes, List.length_cons] at hall
        show (s.ended ++ [(times, frame)]).length + rest.length + s.to_server.length = n
        rw [hlength]
        omega
      · intro t k hposition
        -- the client is at the head of the next iteration, unless it was the last
        have hnext : (t, k) = (times + 1, 0) := by
          unfold next_iteration at hposition
          split at hposition
          · cases hposition; rfl
          · cases hposition
        cases hnext
        refine ⟨?_, by omega⟩
        show times + 1 = (s.ended ++ [(times, frame)]).length
        rw [hlength, htimes]
  | starting times => rw [hclient] at hstep; cases hstep
  | sending times => rw [hclient] at hstep; cases hstep
  | returned code => rw [hclient] at hstep; cases hstep

/-- A timeout after iteration 0 ends the client. -/
theorem Inv.time_out_succ (h : Inv net r n s) {times : ℕ} (hpos : times ≠ 0)
    (hstep : s.time_out times = some s') : Inv net r n s' := by
  unfold State.time_out at hstep
  split at hstep
  · cases hstep
    apply h.move
    intro t k hposition
    cases hposition
  · cases hstep

/-- A timeout in iteration 0 makes the next frame a retransmission; all frames
    so far carry iteration 0 and go on doing so. -/
theorem Inv.time_out_zero (h : Inv net r n s) (hstep : s.time_out 0 = some s') :
    Inv net (r + 1) n s' := by
  unfold State.time_out at hstep
  split at hstep
  · next hclient =>
    cases hstep
    obtain ⟨hzero, hn⟩ := h.position 0 1 (by rw [hclient]; rfl)
    have hmost := h.at_most
    -- no frame has a number above the retransmissions yet
    have hsame : ∀ i, i < n → i - r = i - (r + 1) := by
      intro i hi
      omega
    refine ⟨?_, ?_, h.to_server, ?_, h.not_addressed, h.at_most, h.all, ?_⟩
    · show s.ended = (List.range s.ended.length).map _
      rw [← hzero]
      exact List.eq_nil_of_length_eq_zero hzero.symm
    · show s.to_client = (List.range' s.ended.length s.to_client.length).map _
      rw [h.to_client]
      simp only [List.length_map, List.length_range']
      apply List.map_congr_left
      intro i hi
      rw [hsame i (by have := List.mem_range'_1.mp hi; omega)]
    · intro haddressed hserving
      have hall := h.all haddressed hserving
      show s.to_server = (List.range' (s.ended.length + s.to_client.length)
        s.to_server.length).map _
      have horder := h.order haddressed hserving
      rw [horder]
      simp only [List.length_map, List.length_range']
      apply List.map_congr_left
      intro i hi
      rw [hsame i (by have := List.mem_range'_1.mp hi; omega)]
    · intro t k hposition
      rw [if_pos rfl] at hposition
      cases hposition
      exact ⟨hzero, by omega⟩
  · cases hstep

/-- The server's loop ends; nothing more is echoed. -/
theorem Inv.stop (h : Inv net r n s) : Inv net r n { s with serving := false } :=
  { h with
    order := fun _ hno => by cases hno
    all := fun _ hno => by cases hno }

end steps

/-! ## Section 3: Runs -/

/-- Every iteration that has ended was ended by the server's echo of a frame
    that the client has transmitted in that iteration. -/
def OwnEchoes (net : Net Addr) (s : State Addr) : Prop :=
  ∀ e ∈ s.ended, e.2 = net.reply e.1

/-- With no retransmission the frame number `i` belongs to iteration `i`. -/
theorem Inv.ownEchoes {net : Net Addr} {n : ℕ} {s : State Addr} (h : Inv net 0 n s) :
    OwnEchoes net s := by
  intro e he
  rw [h.ended] at he
  obtain ⟨i, -, rfl⟩ := List.mem_map.mp he
  rfl

/-- One iteration alone cannot be ended by a frame of another. -/
theorem Inv.ownEchoes_of_le_one {net : Net Addr} {r n : ℕ} {s : State Addr} (h : Inv net r n s)
    (hone : s.ended.length ≤ 1) : OwnEchoes net s := by
  intro e he
  rw [h.ended] at he
  obtain ⟨i, hi, rfl⟩ := List.mem_map.mp he
  have hzero : i = 0 := by
    have := List.mem_range.mp hi
    omega
  subst hzero
  show net.reply (0 - r) = net.reply 0
  rw [Nat.zero_sub]

/-- After a retransmission, iteration 1 is ended by a frame of iteration 0. -/
theorem Inv.not_ownEchoes {net : Net Addr} {r n : ℕ} {s : State Addr} (h : Inv net r n s) (hr : 0 < r)
    (htwo : 1 < s.ended.length) : ¬OwnEchoes net s := by
  intro hown
  have hmem : (1, net.reply (1 - r)) ∈ s.ended := by
    rw [h.ended]
    exact List.mem_map.mpr ⟨1, List.mem_range.mpr htwo, rfl⟩
  have heq : net.reply (1 - r) = net.reply 1 := hown _ hmem
  have hsent := congrArg Frame.sent_in heq
  simp only [Net.reply] at hsent
  omega

section runs
variable [DecidableEq Addr] {net : Net Addr}

/-- **Step**: every step keeps the invariant; only a timeout in iteration 0
    counts one retransmission more. -/
theorem inv_step {r n : ℕ} {s s' : State Addr} {l : Label} (h : Inv net r n s)
    (hstep : step net s l = some s') :
    ∃ n', Inv net (r + if l = .timeout 0 then 1 else 0) n' s' := by
  cases l with
  | prepare result => exact ⟨n, h.prepare hstep⟩
  | send ok => exact h.send hstep
  | echo ok => exact ⟨n, h.serve hstep⟩
  | receive => exact ⟨n, h.receive hstep⟩
  | timeout times =>
    by_cases hzero : times = 0
    · subst hzero
      rw [if_pos rfl]
      exact ⟨n, h.time_out_zero hstep⟩
    · rw [if_neg (by simpa using hzero)]
      exact ⟨n, h.time_out_succ hzero hstep⟩
  | stop =>
    cases hstep
    exact ⟨n, h.stop⟩

/-- **Run**: the retransmissions are the timeouts in iteration 0. -/
theorem inv_run {labels : List Label} {s : State Addr}
    (hrun : (system net).run (initial Addr) labels = some s) :
    ∃ n, Inv net (labels.count (.timeout 0)) n s := by
  have hkeeps : ∀ done s l s', (system net).run (initial Addr) done = some s →
      (∃ n, Inv net (done.count (.timeout 0)) n s) → (system net).step s l = some s' →
      ∃ n, Inv net ((done ++ [l]).count (.timeout 0)) n s' := by
    intro done s l s' _ hex hstep
    obtain ⟨n, hinv⟩ := hex
    rw [List.count_append, List.count_singleton]
    have hcount : (if (l == .timeout 0) = true then 1 else 0) =
        if l = .timeout 0 then 1 else 0 := by
      simp only [beq_iff_eq]
    rw [hcount]
    exact inv_step hinv hstep
  have hinv := LTS.run_history hkeeps ⟨0, inv_initial net⟩ hrun
  exact hinv

theorem ended_le_of_step {s s' : State Addr} {l : Label} (h : step net s l = some s') :
    s.ended.length ≤ s'.ended.length := by
  cases l with
  | prepare result =>
    simp only [step, State.prepare] at h
    split at h <;> cases h
    exact Nat.le_refl _
  | send ok =>
    simp only [step, State.send] at h
    split at h
    · split at h <;> cases h <;> exact Nat.le_refl _
    · cases h
  | echo ok =>
    simp only [step, State.serve] at h
    split at h
    · split at h
      · cases h
        exact Nat.le_refl _
      · split at h <;> cases h <;> exact Nat.le_refl _
    · cases h
  | receive =>
    simp only [step, State.receive] at h
    split at h <;> cases h
    show s.ended.length ≤ (s.ended ++ [_]).length
    rw [List.length_append]
    exact Nat.le_add_right _ _
  | timeout times =>
    simp only [step, State.time_out] at h
    split at h <;> cases h
    exact Nat.le_refl _
  | stop =>
    cases h
    exact Nat.le_refl _

/-- Iterations that have ended stay so. -/
theorem ended_le_of_run {labels : List Label} {s s' : State Addr}
    (hrun : (system net).run s labels = some s') : s.ended.length ≤ s'.ended.length := by
  have hkeeps : ∀ done t l t', (system net).run s done = some t →
      s.ended.length ≤ t.ended.length → (system net).step t l = some t' →
      s.ended.length ≤ t'.ended.length := by
    intro done t l t' _ ih hstep
    exact Nat.le_trans ih (ended_le_of_step hstep)
  exact LTS.run_history hkeeps (Nat.le_refl _) hrun

/-- **Own round trips**: in a run, every iteration is ended by the echo of a
    frame of its own in all states passed, iff the client does not time out in
    iteration 0 or the run ends before iteration 1 does. -/
theorem round_trips_own_iff {labels : List Label} {s : State Addr}
    (hrun : (system net).run (initial Addr) labels = some s) :
    (∀ front, front <+: labels → ∀ t, (system net).run (initial Addr) front = some t →
      OwnEchoes net t) ↔
      (Label.timeout 0 ∉ labels ∨ s.ended.length ≤ 1) := by
  constructor
  · intro hall
    by_contra hno
    push Not at hno
    obtain ⟨hretry, htwo⟩ := hno
    obtain ⟨n, hinv⟩ := inv_run hrun
    have hown := hall labels List.prefix_rfl s hrun
    exact hinv.not_ownEchoes (List.count_pos_iff.mpr hretry) (by omega) hown
  · intro hcond front hfront t ht
    obtain ⟨n, hinv⟩ := inv_run ht
    rcases hcond with hnone | hone
    · have hcount : front.count (.timeout 0) = 0 :=
        List.count_eq_zero.mpr fun hmem => hnone (hfront.subset hmem)
      rw [hcount] at hinv
      exact hinv.ownEchoes
    · -- iterations that have ended stay so, so at most one has ended before
      obtain ⟨rest, rfl⟩ := hfront
      obtain ⟨t', ht', hrest⟩ := (LTS.run_append_eq_some _).mp hrun
      rw [ht] at ht'
      obtain rfl := Option.some.inj ht'
      exact hinv.ownEchoes_of_le_one (Nat.le_trans (ended_le_of_run hrest) hone)

end runs

/-- Two addresses, the client's argument naming the server. -/
def pairNet : Net Bool where
  client := false
  server := true
  mac := true

/-- Two undisturbed iterations. -/
def promptRun : List Label :=
  [.prepare .ok, .send true, .echo true, .receive,
   .prepare .ok, .send true, .echo true, .receive]

/-- The echo of the first frame is late: the client sends it again, and the
    second echo is taken for the answer to the frame of iteration 1. -/
def lateRun : List Label :=
  [.prepare .ok, .send true, .timeout 0, .send true, .echo true, .receive,
   .prepare .ok, .send true, .echo true, .receive]

theorem round_trips_own_prompt :
    ∃ s, (system pairNet).run (initial Bool) promptRun = some s ∧ s.ended.length = 2 ∧
      OwnEchoes pairNet s := by
  refine ⟨_, rfl, rfl, ?_⟩
  exact (round_trips_own_iff rfl).mpr (Or.inl (by decide)) promptRun List.prefix_rfl _ rfl

theorem round_trips_own_late :
    ∃ s, (system pairNet).run (initial Bool) lateRun = some s ∧
      s.ended = [(0, pairNet.reply 0), (1, pairNet.reply 0)] ∧ ¬OwnEchoes pairNet s := by
  refine ⟨_, rfl, rfl, ?_⟩
  intro h
  exact absurd (h (1, pairNet.reply 0) (by decide)) (by decide)

end LockRoundTrip
