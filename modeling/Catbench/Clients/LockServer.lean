import Catbench.Framework.Dict
import Catbench.Framework.LTS
import Mathlib.Data.List.Perm.Subperm
import Mathlib.Data.List.Range

/-! # The packet buffers of `lockserver-ng`

    The server receives one frame at a time, in a buffer of the pool that
    `dpdk_start` has made.  The buffer belongs to the server until it is
    transmitted or freed.  A frame that is not addressed to the server is passed
    over: the variable `packet` gets the next one.

    A step is one call of DPDK, one turn of the server from a call to the next,
    or one signal.

    Theorem: in a run, the server holds at most one buffer at every point iff
    each frame that it received is addressed to it, except perhaps the last.
-/

open LTS

namespace LockServer

/-! ## Section 1: Model -/

def TIMING_BUFFER_LEN : ℕ := 5000
def WARMUP : ℕ := 600

/-- The number of buffers in the pool. -/
def NUM_MBUFS : ℕ := 8191

/-- The header of a frame. -/
structure Ether (Addr : Type) where
  d_addr : Addr
  s_addr : Addr
  deriving DecidableEq, Repr

/-- How the server ends: `experiment` returns, an assertion fails, or the handler
    of SIGTERM exits. -/
inductive Exit where
  | returned (ret : ℕ)
  | aborted
  | exited (status : ℕ)
  deriving DecidableEq, Repr

/-- Where the server stands in `experiment`. -/
inductive Pc where
  /-- At the head of the outer loop. -/
  | outer
  /-- At the head of the inner loop. -/
  | inner
  /-- With a frame that is addressed to it. -/
  | answering
  /-- Before the call that transmits. -/
  | sending
  | ended (how : Exit)
  deriving DecidableEq, Repr

/-- The variables of the server, and the buffers that belong to it, each with the
    header that is in it. -/
structure State (Addr : Type) where
  pc : Pc
  loop : Bool
  iter : ℕ
  /-- The number of a buffer; `none` is the null pointer. -/
  packet : Option ℕ
  held : List (ℕ × Ether Addr)
  deriving DecidableEq, Repr

/-- The steps, with what the calls of DPDK return. -/
inductive Label (Addr : Type) where
  | server
  | rx (frame : Option (ℕ × Ether Addr))
  | tx (ct : Bool)
  | sigint
  | sigterm
  deriving DecidableEq, Repr

variable {Addr : Type}

def initial (Addr : Type) : State Addr where
  pc := .outer
  loop := true
  iter := 0
  packet := none
  held := []

/-- The header with the addresses of the answer. -/
def Ether.answer (laddr : Addr) (eth : Ether Addr) : Ether Addr where
  d_addr := eth.s_addr
  s_addr := laddr

/-- The statements between two calls. -/
def State.server (laddr : Addr) (s : State Addr) : Option (State Addr) :=
  match s.pc with
  | .outer =>
    if s.loop = false then some { s with pc := .ended (.returned 0) }
    -- the assertion, and then the null pointer for the next frame
    else if s.iter ≤ TIMING_BUFFER_LEN + 1 then some { s with pc := .inner, packet := none }
    else some { s with pc := .ended .aborted }
  | .inner => if s.loop = false then some { s with pc := .ended (.returned 0) } else none
  | .answering =>
    -- the header is turned around in the buffer that came last
    some { s with
      pc := .sending
      iter := s.iter + 1
      held := s.held.map fun p => if s.packet = some p.1 then (p.1, p.2.answer laddr) else p }
  | .sending | .ended _ => none

/-- `rte_eth_rx_burst` for at most one frame, and the comparison of its address.
    A frame comes in a buffer that is not somebody's already. -/
def State.rx [DecidableEq Addr] (laddr : Addr) (s : State Addr) :
    Option (ℕ × Ether Addr) → Option (State Addr)
  | none => if s.pc = .inner ∧ s.loop = true then some s else none
  | some (buf, eth) =>
    if s.pc = .inner ∧ s.loop = true ∧ buf < NUM_MBUFS ∧ buf ∉ Dict.keys s.held then
      -- nothing frees the buffer that `packet` named before
      some { s with
        pc := if eth.d_addr = laddr then .answering else .inner
        packet := some buf
        held := s.held ++ [(buf, eth)] }
    else none

/-- `rte_eth_tx_burst`: a buffer that is transmitted goes back to the pool. -/
def State.tx (s : State Addr) (ct : Bool) : Option (State Addr) :=
  match s.pc, s.packet with
  | .sending, some buf =>
    if ct then some { s with pc := .outer, held := Dict.erase buf s.held }
    else some { s with pc := .ended (.returned 2) }
  | _, _ => none

/-- The handler exits with `!iter`. -/
def State.sigterm (s : State Addr) : Option (State Addr) :=
  match s.pc with
  | .ended _ => none
  | _ => some { s with pc := .ended (.exited (if s.iter = WARMUP then 1 else 0)) }

def State.sigint (s : State Addr) : Option (State Addr) :=
  match s.pc with
  | .ended _ => none
  | _ => some { s with loop := false }

def step [DecidableEq Addr] (laddr : Addr) (s : State Addr) : Label Addr → Option (State Addr)
  | .server => s.server laddr
  | .rx frame => s.rx laddr frame
  | .tx ct => s.tx ct
  | .sigint => s.sigint
  | .sigterm => s.sigterm

/-- The server with the address of its port. -/
def system [DecidableEq Addr] (laddr : Addr) : System (State Addr) (Label Addr) where
  init s := s = initial Addr
  step := step laddr

/-- The header of the frame that a step receives. -/
def Label.received : Label Addr → Option (Ether Addr)
  | .rx (some (_, eth)) => some eth
  | _ => none

/-- The headers of the frames, as they were received. -/
def received (labels : List (Label Addr)) : List (Ether Addr) := labels.filterMap Label.received

/-- How many frames are for somebody else. -/
def strays [DecidableEq Addr] (laddr : Addr) (got : List (Ether Addr)) : ℕ :=
  got.countP fun eth => eth.d_addr ≠ laddr

/-! ## Section 2: Invariant -/

section invariant
variable [DecidableEq Addr] {laddr : Addr} {got : List (Ether Addr)} {s s' : State Addr}

/-- There is an answer to give besides the strays, to the frame that came last. -/
structure Busy (laddr : Addr) (got : List (Ether Addr)) (s : State Addr) : Prop where
  count : s.held.length = strays laddr got + 1
  last : ∃ eth, got.getLast? = some eth ∧ eth.d_addr = laddr

/-- The server has kept all strays. -/
structure Inv (laddr : Addr) (got : List (Ether Addr)) (s : State Addr) : Prop where
  nodup : (Dict.keys s.held).Nodup
  pool : ∀ buf ∈ Dict.keys s.held, buf < NUM_MBUFS
  count : s.held.length = strays laddr got ∨ Busy laddr got s
  idle : s.pc = .outer ∨ s.pc = .inner → s.held.length = strays laddr got
  busy : s.pc = .answering ∨ s.pc = .sending →
    Busy laddr got s ∧ ∃ buf ∈ Dict.keys s.held, s.packet = some buf

theorem inv_initial (laddr : Addr) : Inv laddr [] (initial Addr) where
  nodup := List.nodup_nil
  pool := nofun
  count := .inl rfl
  idle := fun _ => rfl
  busy := by
    intro hpc
    rcases hpc with hpc | hpc <;> cases hpc

/-- A step that leaves the buffers, and is not on the way to an answer. -/
theorem Inv.move (h : Inv laddr got s) (hheld : s'.held = s.held)
    (hidle : s'.pc = .outer ∨ s'.pc = .inner → s.pc = .outer ∨ s.pc = .inner)
    (hbusy : s'.pc = .answering ∨ s'.pc = .sending →
      (s.pc = .answering ∨ s.pc = .sending) ∧ s'.packet = s.packet) : Inv laddr got s' := by
  have hcount : ∀ {k}, s.held.length = k → s'.held.length = k := fun hk => by rw [hheld, hk]
  have hmove : Busy laddr got s → Busy laddr got s' := fun hb => ⟨hcount hb.count, hb.last⟩
  refine ⟨by rw [hheld]; exact h.nodup, by rw [hheld]; exact h.pool, h.count.imp hcount hmove,
    fun hpc => hcount (h.idle (hidle hpc)), fun hpc => ?_⟩
  obtain ⟨hold, hpacket⟩ := hbusy hpc
  obtain ⟨hb, buf, hbuf, hptr⟩ := h.busy hold
  exact ⟨hmove hb, buf, by rw [hheld]; exact hbuf, by rw [hpacket, hptr]⟩

theorem Inv.server (h : Inv laddr got s) (hstep : s.server laddr = some s') :
    Inv laddr got s' := by
  unfold State.server at hstep
  split at hstep
  · next hpc =>
    split at hstep
    · cases hstep
      exact h.move rfl (by simp) (by simp)
    split at hstep
    · cases hstep
      exact h.move rfl (fun _ => .inl hpc) (by simp)
    · cases hstep
      exact h.move rfl (by simp) (by simp)
  · split at hstep
    · cases hstep
      exact h.move rfl (by simp) (by simp)
    · cases hstep
  · next hpc =>
    -- the header changes in its buffer
    cases hstep
    have hkeys : Dict.keys (s.held.map fun p =>
        if s.packet = some p.1 then (p.1, p.2.answer laddr) else p) = Dict.keys s.held := by
      rw [Dict.keys, List.map_map]
      refine List.map_congr_left fun p _ => ?_
      show (if s.packet = some p.1 then (p.1, p.2.answer laddr) else p).1 = p.1
      split <;> rfl
    obtain ⟨hb, buf, hbuf, hptr⟩ := h.busy (.inl hpc)
    have hbusy : Busy laddr got { s with
        pc := .sending
        iter := s.iter + 1
        held := s.held.map fun p => if s.packet = some p.1 then (p.1, p.2.answer laddr) else p } :=
      ⟨by rw [List.length_map, hb.count], hb.last⟩
    refine ⟨?_, ?_, .inr hbusy, by simp, fun _ => ⟨hbusy, buf, ?_, hptr⟩⟩
    · rw [hkeys]
      exact h.nodup
    · rw [hkeys]
      exact h.pool
    · rw [hkeys]
      exact hbuf
  · cases hstep
  · cases hstep

/-- A frame is received; if it is for somebody else, it stays. -/
theorem Inv.receive (h : Inv laddr got s) {buf : ℕ} {eth : Ether Addr}
    (hstep : s.rx laddr (some (buf, eth)) = some s') : Inv laddr (got ++ [eth]) s' := by
  unfold State.rx at hstep
  simp only at hstep
  split at hstep
  · next hcond =>
    obtain ⟨hpc, -, hlt, hnew⟩ := hcond
    cases hstep
    -- before the frame there were only strays
    have hidle := h.idle (.inr hpc)
    have hkeys : Dict.keys (s.held ++ [(buf, eth)]) = Dict.keys s.held ++ [buf] := List.map_append
    have hlength : (s.held ++ [(buf, eth)]).length = strays laddr got + 1 := by
      rw [List.length_append, hidle]
      rfl
    have hnodup : (Dict.keys (s.held ++ [(buf, eth)])).Nodup := by
      rw [hkeys, List.nodup_append]
      refine ⟨h.nodup, List.nodup_singleton buf, fun a ha b hb => ?_⟩
      rw [List.mem_singleton.mp hb]
      exact fun heq => hnew (heq ▸ ha)
    have hpool : ∀ b ∈ Dict.keys (s.held ++ [(buf, eth)]), b < NUM_MBUFS := by
      intro b hb
      rw [hkeys] at hb
      rcases List.mem_append.mp hb with hb | hb
      · exact h.pool b hb
      · rw [List.mem_singleton.mp hb]
        exact hlt
    have hstrays : strays laddr (got ++ [eth]) =
        strays laddr got + if eth.d_addr = laddr then 0 else 1 := by
      rw [strays, List.countP_append, List.countP_singleton, ← strays]
      by_cases haddr : eth.d_addr = laddr <;> simp [haddr]
    by_cases haddr : eth.d_addr = laddr
    · rw [if_pos haddr] at hstrays ⊢
      have hbusy : Busy laddr (got ++ [eth]) { s with
          pc := .answering
          packet := some buf
          held := s.held ++ [(buf, eth)] } :=
        ⟨by rw [hlength, hstrays], eth, List.getLast?_concat, haddr⟩
      exact ⟨hnodup, hpool, .inr hbusy, by simp, fun _ => ⟨hbusy, buf, by simp [hkeys], rfl⟩⟩
    · rw [if_neg haddr] at hstrays ⊢
      have hcount : (s.held ++ [(buf, eth)]).length = strays laddr (got ++ [eth]) := by
        rw [hlength, hstrays]
      exact ⟨hnodup, hpool, .inl hcount, fun _ => hcount, by simp⟩
  · cases hstep

/-- A buffer that is transmitted is the answer, so that the strays are left. -/
theorem Inv.tx (h : Inv laddr got s) {ct : Bool} (hstep : s.tx ct = some s') :
    Inv laddr got s' := by
  unfold State.tx at hstep
  split at hstep
  · next buf hpc hpacket =>
    split at hstep
    · cases hstep
      obtain ⟨hb, buf', hbuf, hptr⟩ := h.busy (.inr hpc)
      obtain rfl : buf' = buf := Option.some.inj (hptr.symm.trans hpacket)
      -- one buffer less, and the frame that was answered was one more than the strays
      have hlength := Dict.length_erase h.nodup hbuf
      have hcount : (Dict.erase buf' s.held).length = strays laddr got := by
        have := hb.count
        omega
      refine ⟨Dict.nodup_erase h.nodup, fun b hb => ?_, .inl hcount, fun _ => hcount, by simp⟩
      obtain ⟨p, hp, rfl⟩ := List.mem_map.mp hb
      exact h.pool _ (Dict.mem_keys_of_mem (Dict.mem_erase hp))
    · cases hstep
      exact h.move rfl (by simp) (by simp)
  · cases hstep

/-- A step that receives no frame. -/
theorem Inv.of_silent {l : Label Addr} (hl : l.received = none) (h : Inv laddr got s) :
    Inv laddr (got ++ l.received.toList) s := by
  rw [hl, Option.toList_none, List.append_nil]
  exact h

/-- **Step**: every step keeps the invariant. -/
theorem inv_step {l : Label Addr} (h : Inv laddr got s) (hstep : step laddr s l = some s') :
    Inv laddr (got ++ l.received.toList) s' := by
  cases l with
  | server => exact .of_silent rfl (h.server hstep)
  | rx frame =>
    cases frame with
    | none =>
      simp only [step, State.rx] at hstep
      split at hstep
      · cases hstep
        exact .of_silent rfl h
      · cases hstep
    | some p => exact h.receive hstep
  | tx ct => exact .of_silent rfl (h.tx hstep)
  | sigint =>
    simp only [step, State.sigint] at hstep
    split at hstep
    · cases hstep
    · cases hstep
      exact .of_silent rfl (h.move rfl id fun hpc => ⟨hpc, rfl⟩)
  | sigterm =>
    simp only [step, State.sigterm] at hstep
    split at hstep
    · cases hstep
    · cases hstep
      exact .of_silent rfl (h.move rfl (by simp) (by simp))

/-! ## Section 3: Runs -/

omit [DecidableEq Addr] in
theorem received_concat (labels : List (Label Addr)) (l : Label Addr) :
    received (labels ++ [l]) = received labels ++ l.received.toList := by
  rw [received, List.filterMap_append, ← received]
  cases h : l.received <;> simp [h]

/-- **Run**: the invariant speaks of all frames that were received. -/
theorem inv_run {labels : List (Label Addr)}
    (hrun : (system laddr).run (initial Addr) labels = some s) : Inv laddr (received labels) s := by
  have hkeeps : ∀ done s l s', (system laddr).run (initial Addr) done = some s →
      Inv laddr (received done) s → (system laddr).step s l = some s' →
      Inv laddr (received (done ++ [l])) s' := by
    intro done s l s' _ h hstep
    rw [received_concat]
    exact inv_step h hstep
  have hinv := run_history hkeeps (inv_initial laddr) hrun
  exact hinv

/-- The pool is all there is for the strays: when it is used up, no frame is
    received any more. -/
theorem strays_le_pool {labels : List (Label Addr)}
    (hrun : (system laddr).run (initial Addr) labels = some s) :
    strays laddr (received labels) ≤ NUM_MBUFS := by
  have h := inv_run hrun
  have hsub : Dict.keys s.held ⊆ List.range NUM_MBUFS := fun buf hbuf =>
    List.mem_range.mpr (h.pool buf hbuf)
  have hle := (List.subperm_of_subset h.nodup hsub).length_le
  rw [Dict.keys, List.length_map, List.length_range] at hle
  rcases h.count with hcount | hbusy
  · omega
  · have := hbusy.count
    omega

omit [DecidableEq Addr] in
/-- A frame that is not the last one is there before some other is received. -/
theorem exists_received_later {labels : List (Label Addr)} {eth : Ether Addr}
    (h : eth ∈ (received labels).dropLast) :
    ∃ front l eth', front ++ [l] <+: labels ∧ eth ∈ received front ∧ l.received = some eth' := by
  induction labels using List.reverseRecOn with
  | nil => cases h
  | append_singleton labels l ih =>
    rw [received_concat] at h
    cases hl : l.received with
    | none =>
      rw [hl, Option.toList_none, List.append_nil] at h
      obtain ⟨front, l', eth', hpre, hmem, hrec⟩ := ih h
      exact ⟨front, l', eth', hpre.trans (List.prefix_append labels [l]), hmem, hrec⟩
    | some eth' =>
      rw [hl, Option.toList_some, List.dropLast_concat] at h
      exact ⟨labels, l, eth', List.prefix_rfl, h, hl⟩

/-- Behind a stray one, a frame is the second buffer at least. -/
theorem two_held {front : List (Label Addr)} {l : Label Addr} {eth eth' : Ether Addr}
    {t : State Addr} (hmem : eth ∈ received front) (haddr : eth.d_addr ≠ laddr) (hrec : l.received = some eth')
    (hrun : (system laddr).run (initial Addr) (front ++ [l]) = some t) : 1 < t.held.length := by
  obtain ⟨u, hu, hlast⟩ := (run_concat_eq_some _).mp hrun
  have hstray : 0 < strays laddr (received front) :=
    List.countP_pos_iff.mpr ⟨eth, hmem, by simpa using haddr⟩
  cases l with
  | rx frame =>
    cases frame with
    | none => cases hrec
    | some p =>
      simp only [system, step, State.rx] at hlast
      split at hlast
      · next hcond =>
        cases hlast
        have hidle := (inv_run hu).idle (.inr hcond.1)
        show 1 < (u.held ++ [p]).length
        rw [List.length_append, hidle, List.length_singleton]
        omega
      · cases hlast
  | server => cases hrec
  | tx ct => cases hrec
  | sigint => cases hrec
  | sigterm => cases hrec

/-- Among frames that are all addressed to the server, except perhaps the last, there
    is no stray one unless it is the last. -/
theorem held_le_one (h : Inv laddr got s) (hgot : ∀ eth ∈ got.dropLast, eth.d_addr = laddr) :
    s.held.length ≤ 1 := by
  have hfront : strays laddr got.dropLast = 0 :=
    List.countP_eq_zero.mpr fun eth heth => by simpa using hgot eth heth
  rcases List.eq_nil_or_concat' got with rfl | ⟨front, last, rfl⟩
  · rcases h.count with hcount | hbusy
    · rw [hcount]
      exact Nat.zero_le 1
    · rw [hbusy.count]
      exact Nat.le_refl 1
  · have hstrays : strays laddr (front ++ [last]) = if last.d_addr = laddr then 0 else 1 := by
      rw [List.dropLast_concat] at hfront
      rw [strays, List.countP_append, ← strays, hfront, List.countP_singleton, Nat.zero_add]
      by_cases haddr : last.d_addr = laddr <;> simp [haddr]
    rcases h.count with hcount | hbusy
    · rw [hcount, hstrays]
      split
      · exact Nat.zero_le 1
      · exact Nat.le_refl 1
    · obtain ⟨eth, hlast, haddr⟩ := hbusy.last
      rw [List.getLast?_concat] at hlast
      obtain rfl := Option.some.inj hlast
      rw [hbusy.count, hstrays, if_pos haddr]

/-- **Leak**: at every point of a run the server holds at most one buffer, iff the
    frames that it received are addressed to it, except perhaps the last. -/
theorem holds_one_iff {labels : List (Label Addr)}
    (hrun : (system laddr).run (initial Addr) labels = some s) :
    (∀ front, front <+: labels → ∀ t, (system laddr).run (initial Addr) front = some t →
      t.held.length ≤ 1) ↔ ∀ eth ∈ (received labels).dropLast, eth.d_addr = laddr := by
  constructor
  · intro hall eth heth
    by_contra haddr
    obtain ⟨front, l, eth', hpre, hmem, hrec⟩ := exists_received_later heth
    obtain ⟨rest, hrest⟩ := hpre
    rw [← hrest] at hrun
    obtain ⟨t, ht, -⟩ := (run_append_eq_some _).mp hrun
    have hle := hall (front ++ [l]) ⟨rest, hrest⟩ t ht
    have htwo := two_held hmem haddr hrec ht
    omega
  · intro hall front hpre t ht
    apply held_le_one (inv_run ht)
    -- the frames of the front but its last come before the last frame of the run
    obtain ⟨rest, rfl⟩ := hpre
    intro eth heth
    apply hall
    rw [received, List.filterMap_append, ← received, ← received]
    rcases List.eq_nil_or_concat' (received rest) with hnil | ⟨others, last, hothers⟩
    · rw [hnil, List.append_nil]
      exact heth
    · rw [hothers, ← List.append_assoc, List.dropLast_concat]
      exact List.mem_append_left _ (List.dropLast_subset _ heth)

end invariant

/-- A request from port 1 to the server's port 0, which is answered. -/
def answered : List (Label Bool) :=
  [.server, .rx none, .rx (some (7, ⟨false, true⟩)), .server, .tx true]

/-- Two frames for somebody else. -/
def overheard : List (Label Bool) :=
  [.server, .rx (some (7, ⟨true, true⟩)), .rx (some (8, ⟨true, true⟩))]

theorem holds_one_answered :
    ((system false).run (initial Bool) answered).isSome ∧
      ∀ front, front <+: answered → ∀ t, (system false).run (initial Bool) front = some t →
        t.held.length ≤ 1 := by
  have hrun : (system false).run (initial Bool) answered =
      some (((system false).run (initial Bool) answered).get rfl) := rfl
  exact ⟨rfl, (holds_one_iff hrun).mpr (by decide)⟩

theorem holds_two_overheard :
    ∃ t, (system false).run (initial Bool) overheard = some t ∧
      t.held = [(7, ⟨true, true⟩), (8, ⟨true, true⟩)] ∧ ¬t.held.length ≤ 1 :=
  ⟨_, rfl, rfl, by decide⟩

end LockServer
