import Catbench.Framework.LTS

/-! # The ports of `testpmd` and the commands that start and stop them

    A port is stopped, started or closed; while a command works on it, it is
    being handled.  Packets are forwarded between `start` and `stop`, and most of
    the commands refuse to touch a port in between.  A command checks the status
    of the ports before it looks at anything else, and so does `stop`.

    A step is one command, with the results of the calls of DPDK that it makes.

    * Forwarding can be stopped at every point of a run, exactly if no slave
      that is not started is removed from its bond in between; otherwise the
      port blocks `stop` until it is made a slave again.
    * A port is left in the middle of `port start`, exactly if there was no pool
      for one of its queues; nothing gets it out again.
-/

open LTS

namespace TestPmd

/-! ## Section 1: State -/

/-- `RTE_PORT_STOPPED` and so on. -/
inductive Status where
  | stopped
  | started
  | closed
  | handling
  deriving DecidableEq, Repr

/-- The fields that the commands here read or write. -/
structure rte_port where
  enabled : Bool
  port_status : Status
  need_reconfig : Bool
  need_reconfig_queues : Bool
  slave_flag : Bool
  deriving DecidableEq, Repr

structure Control where
  /-- The array of `RTE_MAX_ETHPORTS` entries. -/
  ports : List rte_port
  /-- False while packets are forwarded. -/
  test_done : Bool
  deriving DecidableEq, Repr

/-- A port, or `RTE_PORT_ALL`. -/
inductive Pid where
  | port (pi : ℕ)
  | all
  deriving DecidableEq, Repr

/-- The loops skip the others. -/
def Pid.selects : Pid → ℕ → Bool
  | .port pid, pi => pid = pi
  | .all, _ => true

/-- How the setup of the RX queues of a port ends. -/
inductive RxSetup where
  | ok
  /-- `mbuf_pool_find` finds none on the socket of the ring. -/
  | no_pool
  | failed
  deriving DecidableEq, Repr

/-- The results of the calls that `port start` makes for one port. -/
structure Calls where
  configure : Bool
  tx_queues : Bool
  rx_queues : RxSetup
  dev_start : Bool
  deriving DecidableEq, Repr

/-! ## Section 2: Commands -/

def port_id_is_invalid (ports : List rte_port) : Pid → Bool
  | .all => false
  | .port port_id => !(ports[port_id]?.any (·.enabled))

/-- Slaves of a bond need not be started. -/
def all_ports_started (ports : List rte_port) : Bool :=
  ports.all fun port => !port.enabled || port.port_status = .started || port.slave_flag

/-- The body of the loop of `start_port` for a selected port, and whether the loop
    goes on. -/
def start_one (calls : Calls) (port : rte_port) : rte_port × Bool :=
  if port.port_status ≠ .stopped then (port, true)
  else
    let port := { port with port_status := .handling }
    if port.need_reconfig && !calls.configure then ({ port with port_status := .stopped }, false)
    else
      let port := { port with need_reconfig := false }
      if port.need_reconfig_queues && !calls.tx_queues then
        ({ port with port_status := .stopped }, false)
      else if port.need_reconfig_queues && calls.rx_queues = .failed then
        ({ port with port_status := .stopped }, false)
      else if port.need_reconfig_queues && calls.rx_queues = .no_pool then
        -- the one return that does not set the status back
        ({ port with need_reconfig_queues := false }, false)
      else
        let port := { port with need_reconfig_queues := false }
        if calls.dev_start then ({ port with port_status := .started }, true)
        else ({ port with port_status := .stopped }, true)

/-- The loop of `start_port`, from the port `pi` on. -/
def start_ports (calls : ℕ → Calls) (pid : Pid) : ℕ → List rte_port → List rte_port
  | _, [] => []
  | pi, port :: rest =>
    if port.enabled && pid.selects pi then
      let (port, goes_on) := start_one (calls pi) port
      if goes_on then port :: start_ports calls pid (pi + 1) rest else port :: rest
    else port :: start_ports calls pid (pi + 1) rest

/-- `streams` is the result of `init_fwd_streams`. -/
def start_port (pid : Pid) (streams : Bool) (calls : ℕ → Calls) (s : Control) : Control :=
  if !s.test_done then s
  else if port_id_is_invalid s.ports pid then s
  else if !streams then s
  else { s with ports := start_ports calls pid 0 s.ports }

def stop_one (port : rte_port) : rte_port :=
  if port.port_status = .started then { port with port_status := .stopped } else port

/-- A port that is closed stays so, and one that is not stopped is left alone. -/
def close_one (port : rte_port) : rte_port :=
  if port.port_status = .stopped then { port with port_status := .closed } else port

/-- The loops of `stop_port` and `close_port`. -/
def each_port (pid : Pid) (f : rte_port → rte_port) (ports : List rte_port) : List rte_port :=
  ports.mapIdx fun pi port => if port.enabled && pid.selects pi then f port else port

def stop_port (pid : Pid) (s : Control) : Control :=
  if !s.test_done then s
  else if port_id_is_invalid s.ports pid then s
  else { s with ports := each_port pid stop_one s.ports }

def close_port (pid : Pid) (s : Control) : Control :=
  if !s.test_done then s
  else if port_id_is_invalid s.ports pid then s
  else { s with ports := each_port pid close_one s.ports }

/-- An assignment to fields of one port. -/
def Control.modify (s : Control) (pi : ℕ) (f : rte_port → rte_port) : Control :=
  { s with ports := s.ports.modify pi f }

/-- `pi` is the port that DPDK gives to the device. -/
def attach_port (pi : ℕ) (s : Control) : Control :=
  if !s.test_done then s
  else s.modify pi fun port =>
    { port with
      enabled := true
      need_reconfig := true
      need_reconfig_queues := true
      port_status := .stopped }

def port_is_closed (ports : List rte_port) (port_id : ℕ) : Bool :=
  ports[port_id]?.any fun port => port.enabled && port.port_status = .closed

/-- Whether packets are forwarded is not looked at. -/
def detach_port (port_id : ℕ) (s : Control) : Control :=
  if !port_is_closed s.ports port_id then s
  else s.modify port_id fun port => { port with enabled := false }

/-- The status of the port is that of the one before it, if there was one. -/
def cmd_create_bonded_device (port_id : ℕ) (s : Control) : Control :=
  if !s.test_done then s
  else s.modify port_id fun port =>
    { port with enabled := true, need_reconfig := true, need_reconfig_queues := true }

def cmd_add_bonding_slave (slave : ℕ) (s : Control) : Control :=
  s.modify slave fun port => { port with slave_flag := true }

def cmd_remove_bonding_slave (slave : ℕ) (s : Control) : Control :=
  s.modify slave fun port => { port with slave_flag := false }

def cmd_reconfig_device_queue (id : Pid) (dev queue : Bool) (s : Control) : Control :=
  { s with ports := each_port id (fun port =>
      { port with
        need_reconfig := port.need_reconfig || dev
        need_reconfig_queues := port.need_reconfig_queues || queue }) s.ports }

/-- `dcb` is the result of the checks that are made in DCB mode. -/
def start_packet_forwarding (dcb : Bool) (s : Control) : Control :=
  if !all_ports_started s.ports then s
  else if !s.test_done then s
  else if !dcb then s
  else { s with test_done := false }

def stop_packet_forwarding (s : Control) : Control :=
  if !all_ports_started s.ports then s
  else if s.test_done then s
  else { s with test_done := true }

/-! ## Section 3: Runs -/

/-- The commands that get as far as changing something; where a call of DPDK fails
    before that, the command has no effect. -/
inductive Command where
  | start_port (pid : Pid) (streams : Bool) (calls : ℕ → Calls)
  | stop_port (pid : Pid)
  | close_port (pid : Pid)
  | attach_port (pi : ℕ)
  | detach_port (port_id : ℕ)
  | create_bonded_device (port_id : ℕ)
  | add_bonding_slave (slave : ℕ)
  | remove_bonding_slave (slave : ℕ)
  | reconfig_device_queue (id : Pid) (dev queue : Bool)
  | start (dcb : Bool)
  | stop

/-- A new device gets an entry that is not in use. -/
def Control.free (s : Control) (pi : ℕ) : Bool := s.ports[pi]?.any (!·.enabled)

def Control.step (s : Control) : Command → Option Control
  | .start_port pid streams calls => some (TestPmd.start_port pid streams calls s)
  | .stop_port pid => some (TestPmd.stop_port pid s)
  | .close_port pid => some (TestPmd.close_port pid s)
  | .attach_port pi => if s.free pi then some (TestPmd.attach_port pi s) else none
  | .detach_port port_id => some (TestPmd.detach_port port_id s)
  | .create_bonded_device port_id =>
    if s.free port_id then some (cmd_create_bonded_device port_id s) else none
  | .add_bonding_slave slave => some (cmd_add_bonding_slave slave s)
  | .remove_bonding_slave slave => some (cmd_remove_bonding_slave slave s)
  | .reconfig_device_queue id dev queue => some (cmd_reconfig_device_queue id dev queue s)
  | .start dcb => some (start_packet_forwarding dcb s)
  | .stop => some (stop_packet_forwarding s)

/-- After `init_config`. -/
structure Control.Init (s : Control) : Prop where
  test_done : s.test_done = true
  stopped : ∀ port ∈ s.ports, port.port_status = .stopped

def testpmd : System Control Command where
  init := Control.Init
  step := Control.step

/-! ## Section 4: What a command does to one port -/

theorem each_port_getElem? {pid : Pid} {f : rte_port → rte_port} {ports : List rte_port} {pi : ℕ}
    {old : rte_port} (h : ports[pi]? = some old) :
    (each_port pid f ports)[pi]? =
      some (if old.enabled && pid.selects pi then f old else old) := by
  rw [each_port, List.getElem?_mapIdx, h]
  rfl

theorem modify_getElem? {ports : List rte_port} {pi k : ℕ} {f : rte_port → rte_port}
    {old : rte_port} (h : ports[pi]? = some old) :
    (ports.modify k f)[pi]? = some (if k = pi then f old else old) := by
  rw [List.getElem?_modify, h]
  split <;> rfl

/-- The loop of `start_port` gets as far as the port `k + i`. -/
def GoesOn (calls : ℕ → Calls) (pid : Pid) (k : ℕ) (ports : List rte_port) (i : ℕ) : Prop :=
  ∀ j < i, ∀ port, ports[j]? = some port → port.enabled = true → pid.selects (k + j) = true →
    (start_one (calls (k + j)) port).2 = true

theorem goesOn_cons {calls : ℕ → Calls} {pid : Pid} {k i : ℕ} {port : rte_port}
    {rest : List rte_port} : GoesOn calls pid k (port :: rest) (i + 1) ↔
      (port.enabled = true → pid.selects k = true → (start_one (calls k) port).2 = true) ∧
        GoesOn calls pid (k + 1) rest i := by
  constructor
  · intro h
    refine ⟨fun hen hsel => h 0 (Nat.succ_pos i) port rfl hen hsel, fun j hj p hp hen hsel => ?_⟩
    have hkj : k + 1 + j = k + (j + 1) := by omega
    rw [hkj] at hsel ⊢
    exact h (j + 1) (by omega) p hp hen hsel
  · intro ⟨hfirst, hrest⟩ j hj p hp hen hsel
    cases j with
    | zero =>
      obtain rfl := Option.some.inj hp
      exact hfirst hen hsel
    | succ j =>
      have hkj : k + (j + 1) = k + 1 + j := by omega
      rw [hkj] at hsel ⊢
      exact hrest j (by omega) p hp hen hsel

/-- The port is worked on, or left alone because it is not selected or the loop has
    returned before. -/
theorem start_ports_getElem? (calls : ℕ → Calls) (pid : Pid) (k : ℕ) {i : ℕ}
    {ports : List rte_port} {old : rte_port} (h : ports[i]? = some old) :
    ∃ new, (start_ports calls pid k ports)[i]? = some new ∧
      ((old.enabled = true ∧ pid.selects (k + i) = true ∧ GoesOn calls pid k ports i ∧
          new = (start_one (calls (k + i)) old).1) ∨
        (¬(old.enabled = true ∧ pid.selects (k + i) = true ∧ GoesOn calls pid k ports i) ∧
          new = old)) := by
  induction ports generalizing k i with
  | nil => cases h
  | cons port rest ih =>
    cases i with
    | zero =>
      obtain rfl := Option.some.inj h
      unfold start_ports
      split
      · next hsel =>
        obtain ⟨hen, hsel⟩ : port.enabled = true ∧ pid.selects k = true := by simpa using hsel
        refine ⟨(start_one (calls k) port).1, ?_, .inl ⟨hen, hsel, ?_, rfl⟩⟩
        · dsimp only
          split <;> rfl
        · exact fun j hj => absurd hj (Nat.not_lt_zero j)
      · next hsel => exact
          ⟨port, rfl, .inr ⟨fun hall => hsel (Bool.and_eq_true_iff.mpr ⟨hall.1, hall.2.1⟩), rfl⟩⟩
    | succ i =>
      have hi : rest[i]? = some old := h
      have hki : k + (i + 1) = k + 1 + i := by omega
      obtain ⟨new, hnew, hcases⟩ := ih (k := k + 1) hi
      rw [goesOn_cons, hki]
      unfold start_ports
      split
      · next hsel =>
        obtain ⟨hen, hsel⟩ : port.enabled = true ∧ pid.selects k = true := by simpa using hsel
        by_cases hgoes : (start_one (calls k) port).2 = true
        · refine ⟨new, by simpa [hgoes] using hnew, ?_⟩
          simpa [hgoes] using hcases
        · -- the loop returns at the first port
          refine ⟨old, by simpa [hgoes] using hi, .inr ⟨?_, rfl⟩⟩
          exact fun hall => hgoes (hall.2.2.1 hen hsel)
      · next hsel =>
        have hskip : port.enabled = true → pid.selects k = true →
            (start_one (calls k) port).2 = true := fun hen hs => absurd (by simp [hen, hs]) hsel
        refine ⟨new, hnew, ?_⟩
        rw [and_iff_right hskip]
        exact hcases

theorem start_ports_length (calls : ℕ → Calls) (pid : Pid) (k : ℕ) (ports : List rte_port) :
    (start_ports calls pid k ports).length = ports.length := by
  induction ports generalizing k with
  | nil => rfl
  | cons port rest ih =>
    unfold start_ports
    split
    · dsimp only
      split <;> simp [ih]
    · simp [ih]

/-- Everything that a command can do to the port `pi`. -/
inductive PortStep (s : Control) (pi : ℕ) (old : rte_port) : Command → rte_port → Prop where
  | keep (l : Command) : PortStep s pi old l old
  | start {pid : Pid} {calls : ℕ → Calls} (hdone : s.test_done = true)
      (henabled : old.enabled = true) (hselects : pid.selects pi = true)
      (hgoes : GoesOn calls pid 0 s.ports pi) :
      PortStep s pi old (.start_port pid true calls) (start_one (calls pi) old).1
  | stop {pid : Pid} (hdone : s.test_done = true) :
      PortStep s pi old (.stop_port pid) (stop_one old)
  | close {pid : Pid} (hdone : s.test_done = true) :
      PortStep s pi old (.close_port pid) (close_one old)
  | attach (hdone : s.test_done = true) (hfree : old.enabled = false) :
      PortStep s pi old (.attach_port pi)
        ⟨true, .stopped, true, true, old.slave_flag⟩
  | detach (henabled : old.enabled = true) (hclosed : old.port_status = .closed) :
      PortStep s pi old (.detach_port pi) { old with enabled := false }
  | bond (hdone : s.test_done = true) (hfree : old.enabled = false) :
      PortStep s pi old (.create_bonded_device pi)
        ⟨true, old.port_status, true, true, old.slave_flag⟩
  | add : PortStep s pi old (.add_bonding_slave pi) { old with slave_flag := true }
  | remove : PortStep s pi old (.remove_bonding_slave pi) { old with slave_flag := false }
  | reconfig {id : Pid} {dev queue : Bool} :
      PortStep s pi old (.reconfig_device_queue id dev queue)
        { old with
          need_reconfig := old.need_reconfig || dev
          need_reconfig_queues := old.need_reconfig_queues || queue }

section inversion

variable {s s' : Control} {l : Command} {pi : ℕ} {old : rte_port}

theorem step_port (hstep : s.step l = some s') (h : s.ports[pi]? = some old) :
    ∃ new, s'.ports[pi]? = some new ∧ PortStep s pi old l new := by
  -- the port is as before, where a command refuses
  have hkeep : ∃ new, s.ports[pi]? = some new ∧ PortStep s pi old l new := ⟨old, h, .keep l⟩
  -- a command for one port
  have hmodify : ∀ (k : ℕ) (f : rte_port → rte_port), (k = pi → PortStep s pi old l (f old)) →
      ∃ new, (s.modify k f).ports[pi]? = some new ∧ PortStep s pi old l new := by
    intro k f hf
    refine ⟨_, modify_getElem? h, ?_⟩
    split
    · next hk => exact hf hk
    · exact .keep l
  -- a command for the selected ports
  have heach : ∀ (pid : Pid) (f : rte_port → rte_port), PortStep s pi old l (f old) →
      ∃ new, (each_port pid f s.ports)[pi]? = some new ∧ PortStep s pi old l new := by
    intro pid f hf
    refine ⟨_, each_port_getElem? h, ?_⟩
    split
    · exact hf
    · exact .keep l
  cases l with
  | start_port pid streams calls =>
    obtain rfl := Option.some.inj hstep
    unfold start_port
    split_ifs with hdone hinvalid hstreams
    · exact hkeep
    · exact hkeep
    · exact hkeep
    · obtain rfl : streams = true := by simpa using hstreams
      obtain ⟨new, hnew, ⟨hen, hsel, hgoes, rfl⟩ | ⟨-, rfl⟩⟩ :=
        start_ports_getElem? calls pid 0 h
      · rw [Nat.zero_add] at hnew hsel
        exact ⟨_, hnew, .start (by simpa using hdone) hen hsel hgoes⟩
      · exact ⟨_, hnew, .keep _⟩
  | stop_port pid =>
    obtain rfl := Option.some.inj hstep
    unfold stop_port
    split_ifs with hdone hinvalid
    · exact hkeep
    · exact hkeep
    · exact heach pid stop_one (.stop (by simpa using hdone))
  | close_port pid =>
    obtain rfl := Option.some.inj hstep
    unfold close_port
    split_ifs with hdone hinvalid
    · exact hkeep
    · exact hkeep
    · exact heach pid close_one (.close (by simpa using hdone))
  | attach_port k =>
    obtain ⟨hfree, heq⟩ := Option.ite_none_right_eq_some.mp hstep
    obtain rfl := Option.some.inj heq
    unfold attach_port
    split_ifs with hdone
    · exact hkeep
    · apply hmodify
      rintro rfl
      exact .attach (by simpa using hdone) (by simpa [Control.free, h] using hfree)
  | create_bonded_device k =>
    obtain ⟨hfree, heq⟩ := Option.ite_none_right_eq_some.mp hstep
    obtain rfl := Option.some.inj heq
    unfold cmd_create_bonded_device
    split_ifs with hdone
    · exact hkeep
    · apply hmodify
      rintro rfl
      exact .bond (by simpa using hdone) (by simpa [Control.free, h] using hfree)
  | detach_port k =>
    obtain rfl := Option.some.inj hstep
    unfold detach_port
    split_ifs with hopen
    · exact hkeep
    · apply hmodify
      rintro rfl
      obtain ⟨hen, hclosed⟩ : old.enabled = true ∧ old.port_status = .closed := by
        simpa [port_is_closed, h] using hopen
      exact .detach hen hclosed
  | add_bonding_slave k =>
    obtain rfl := Option.some.inj hstep
    apply hmodify
    rintro rfl
    exact .add
  | remove_bonding_slave k =>
    obtain rfl := Option.some.inj hstep
    apply hmodify
    rintro rfl
    exact .remove
  | reconfig_device_queue id dev queue =>
    obtain rfl := Option.some.inj hstep
    exact heach id _ .reconfig
  | start dcb =>
    obtain rfl := Option.some.inj hstep
    unfold start_packet_forwarding
    split_ifs <;> exact hkeep
  | stop =>
    obtain rfl := Option.some.inj hstep
    unfold stop_packet_forwarding
    split_ifs <;> exact hkeep

/-- No command adds entries to the array, or removes them. -/
theorem step_length (hstep : s.step l = some s') : s'.ports.length = s.ports.length := by
  cases l with
  | attach_port k | create_bonded_device k =>
    obtain ⟨-, heq⟩ := Option.ite_none_right_eq_some.mp hstep
    obtain rfl := Option.some.inj heq
    simp only [attach_port, cmd_create_bonded_device]
    split <;> simp [Control.modify]
  | start_port pid streams calls =>
    obtain rfl := Option.some.inj hstep
    unfold start_port
    split_ifs <;> simp [start_ports_length]
  | stop_port pid | close_port pid =>
    obtain rfl := Option.some.inj hstep
    simp only [stop_port, close_port]
    split_ifs <;> simp [each_port]
  | detach_port k | start dcb | stop =>
    obtain rfl := Option.some.inj hstep
    simp only [detach_port, start_packet_forwarding, stop_packet_forwarding]
    split_ifs <;> simp [Control.modify]
  | add_bonding_slave k | remove_bonding_slave k | reconfig_device_queue id dev queue =>
    obtain rfl := Option.some.inj hstep
    simp [cmd_add_bonding_slave, cmd_remove_bonding_slave, cmd_reconfig_device_queue,
      Control.modify, each_port]

/-- The port, seen from after the command. -/
theorem step_port_back {new : rte_port} (hstep : s.step l = some s')
    (h : s'.ports[pi]? = some new) : ∃ old, s.ports[pi]? = some old ∧ PortStep s pi old l new := by
  have hlt : pi < s.ports.length := by
    rw [← step_length hstep]
    exact (List.getElem?_eq_some_iff.mp h).1
  have hold : s.ports[pi]? = some s.ports[pi] := List.getElem?_eq_getElem hlt
  obtain ⟨new', hnew', hport⟩ := step_port hstep hold
  obtain rfl := Option.some.inj (h.symm.trans hnew')
  exact ⟨_, hold, hport⟩

/-- Forwarding is switched only where all ports are started, and the ports stay. -/
theorem step_test_done (hstep : s.step l = some s') :
    s'.test_done = s.test_done ∨
      (all_ports_started s.ports = true ∧ s'.ports = s.ports) := by
  cases l with
  | attach_port k | create_bonded_device k =>
    obtain ⟨-, heq⟩ := Option.ite_none_right_eq_some.mp hstep
    obtain rfl := Option.some.inj heq
    simp only [attach_port, cmd_create_bonded_device]
    left
    split <;> rfl
  | start dcb =>
    obtain rfl := Option.some.inj hstep
    unfold start_packet_forwarding
    split_ifs with hall hdone hdcb
    · exact .inl rfl
    · exact .inl rfl
    · exact .inl rfl
    · exact .inr ⟨by simpa using hall, rfl⟩
  | stop =>
    obtain rfl := Option.some.inj hstep
    unfold stop_packet_forwarding
    split_ifs with hall hdone
    · exact .inl rfl
    · exact .inl rfl
    · exact .inr ⟨by simpa using hall, rfl⟩
  | start_port pid streams calls | stop_port pid | close_port pid | detach_port k =>
    obtain rfl := Option.some.inj hstep
    simp only [start_port, stop_port, close_port, detach_port]
    left
    split_ifs <;> rfl
  | add_bonding_slave k | remove_bonding_slave k | reconfig_device_queue id dev queue =>
    obtain rfl := Option.some.inj hstep
    exact .inl rfl

end inversion

/-! ## Section 5: Stopping -/

theorem all_ports_started_iff {ports : List rte_port} :
    all_ports_started ports = true ↔ ∀ (pi : ℕ) (port : rte_port), ports[pi]? = some port →
      port.enabled = true → port.slave_flag = false → port.port_status = .started := by
  rw [all_ports_started, List.all_eq_true]
  constructor
  · intro hall pi port hport hen hslave
    have hone := hall port (List.mem_of_getElem? hport)
    simpa [hen, hslave] using hone
  · intro hall port hmem
    obtain ⟨pi, hport⟩ := List.getElem?_of_mem hmem
    have hone := hall pi port hport
    cases hen : port.enabled with
    | false => rfl
    | true =>
      cases hslave : port.slave_flag with
      | true => simp
      | false => simp [hone hen hslave]

/-- While packets are forwarded, every port is started that is in use and no slave. -/
def Stoppable (s : Control) : Prop := s.test_done = false → all_ports_started s.ports = true

/-- A command does not take a port that is not started out of a bond while packets are
    forwarded. -/
def Careful (s : Control) (l : Command) : Prop :=
  ∀ slave port, l = .remove_bonding_slave slave → s.test_done = false →
    s.ports[slave]? = some port → port.enabled = true → port.port_status = .started

theorem Stoppable.step {s s' : Control} {l : Command} (h : Stoppable s) (hcareful : Careful s l)
    (hstep : s.step l = some s') : Stoppable s' := by
  intro hdone'
  rcases step_test_done hstep with hdone | ⟨hall, hports⟩
  · rw [hdone'] at hdone
    have hall := all_ports_started_iff.mp (h hdone.symm)
    rw [all_ports_started_iff]
    intro pi new hnew hen hslave
    obtain ⟨old, hold, hport⟩ := step_port_back hstep hnew
    -- what the commands do that do not refuse while packets are forwarded
    cases hport with
    | keep => exact hall pi _ hold hen hslave
    | detach => cases hen
    | add => cases hslave
    | remove => exact hcareful pi old rfl hdone.symm hold hen
    | reconfig => exact hall pi old hold hen hslave
    | start hd | stop hd | close hd | attach hd | bond hd =>
      rw [hd] at hdone
      cases hdone
  · rwa [hports]

/-- Two ports, as they are at the beginning. -/
def twoPorts : Control where
  ports := [⟨true, .stopped, true, true, false⟩, ⟨true, .stopped, true, true, false⟩]
  test_done := true

/-- The calls of DPDK all succeed. -/
def working : ℕ → Calls := fun _ => ⟨true, true, .ok, true⟩

/-- The port blocks `start` and `stop`, and no command works on it: packets are
    forwarded, or it is being handled. -/
structure Stuck (s : Control) (pi : ℕ) (port : rte_port) : Prop where
  at_pi : s.ports[pi]? = some port
  enabled : port.enabled = true
  not_slave : port.slave_flag = false
  status : port.port_status = .handling ∨ s.test_done = false ∧ port.port_status = .stopped

theorem Stuck.not_all_started {s : Control} {pi : ℕ} {port : rte_port} (h : Stuck s pi port) :
    all_ports_started s.ports ≠ true := by
  rw [Ne, all_ports_started_iff]
  intro hall
  have hstarted := hall pi port h.at_pi h.enabled h.not_slave
  rcases h.status with hstatus | ⟨-, hstatus⟩ <;>
  · rw [hstatus] at hstarted
    cases hstarted

theorem start_one_handling {calls : Calls} {port : rte_port} (h : port.port_status = .handling) :
    start_one calls port = (port, true) := by
  rw [start_one, if_pos (by simp [h])]

theorem Stuck.step {s s' : Control} {l : Command} {pi : ℕ} (h : ∃ port, Stuck s pi port)
    (hslave : l ≠ .add_bonding_slave pi) (hstep : s.step l = some s') :
    s'.test_done = s.test_done ∧ ∃ port, Stuck s' pi port := by
  obtain ⟨old, h⟩ := h
  have hdone : s'.test_done = s.test_done := by
    rcases step_test_done hstep with hdone | ⟨hall, -⟩
    · exact hdone
    · exact absurd hall h.not_all_started
  refine ⟨hdone, ?_⟩
  obtain ⟨new, hnew, hport⟩ := step_port hstep h.at_pi
  -- no command changes what blocks
  have hsame : new.enabled = true ∧ new.slave_flag = false ∧ new.port_status = old.port_status := by
    cases hport with
    | keep => exact ⟨h.enabled, h.not_slave, rfl⟩
    | reconfig => exact ⟨h.enabled, h.not_slave, rfl⟩
    | remove => exact ⟨h.enabled, rfl, rfl⟩
    | add => exact absurd rfl hslave
    | attach _ hfree | bond _ hfree => exact absurd h.enabled (by simp [hfree])
    | detach _ hclosed => exact absurd h.status (by simp [hclosed])
    | start hd | stop hd | close hd =>
      -- packets are not forwarded, so the port is being handled
      have hstatus : old.port_status = .handling := by simpa [hd] using h.status
      simp [start_one_handling, stop_one, close_one, hstatus, h.enabled, h.not_slave]
  obtain ⟨hen, hns, hstatus⟩ := hsame
  exact ⟨new, hnew, hen, hns, by rw [hstatus, hdone]; exact h.status⟩

/-- Until the port is made a slave, nothing that is typed changes anything. -/
theorem Stuck.run {s s' : Control} {commands : List Command} {pi : ℕ}
    (h : ∃ port, Stuck s pi port) (hslave : .add_bonding_slave pi ∉ commands)
    (hrun : testpmd.run s commands = some s') :
    s'.test_done = s.test_done ∧ ∃ port, Stuck s' pi port := by
  have hall : ∀ l ∈ commands, l ≠ .add_bonding_slave pi := fun l hl heq => hslave (heq ▸ hl)
  have hkeeps : ∀ t l t', (t.test_done = s.test_done ∧ ∃ port, Stuck t pi port) →
      l ≠ .add_bonding_slave pi → testpmd.step t l = some t' →
      t'.test_done = s.test_done ∧ ∃ port, Stuck t' pi port := by
    intro t l t' ⟨hdone, ht⟩ hl hstep
    obtain ⟨hdone', ht'⟩ := Stuck.step ht hl hstep
    exact ⟨hdone'.trans hdone, ht'⟩
  have hkept := run_invariant hkeeps ⟨rfl, h⟩ hall hrun
  exact hkept

/-- **What blocks `start` and `stop` blocks them for good.**  A port is in use, no slave,
    and being handled, or stopped while packets are forwarded.  Whatever is typed after
    that, forwarding is neither started nor stopped, until the port is made the slave
    of a bond. -/
theorem testpmd_blocked (s s' : Control) (commands : List Command) (pi : ℕ) (port : rte_port)
    (hstuck : Stuck s pi port) (hadd : .add_bonding_slave pi ∉ commands)
    (hrun : testpmd.run s commands = some s') :
    s'.test_done = s.test_done ∧ stop_packet_forwarding s' = s' ∧
      ∀ dcb, start_packet_forwarding dcb s' = s' := by
  obtain ⟨hdone, port', hstuck'⟩ := Stuck.run ⟨port, hstuck⟩ hadd hrun
  have hall : (!all_ports_started s'.ports) = true := by simpa using hstuck'.not_all_started
  exact ⟨hdone, if_pos hall, fun dcb => if_pos hall⟩

/-- The first port is a slave that is not started when forwarding begins, and is taken
    out of the bond. -/
def unbonded : List Command :=
  [.add_bonding_slave 0, .start_port (.port 1) true working, .start true, .remove_bonding_slave 0]

theorem testpmd_blocked_unbonded : ∃ t t', testpmd.run twoPorts unbonded = some t ∧
    testpmd.run t [.stop, .start_port .all true working, .stop] = some t' ∧
    t'.test_done = false ∧ stop_packet_forwarding t' = t' := by
  let t : Control := ⟨[⟨true, .stopped, true, true, false⟩, ⟨true, .started, false, false, false⟩],
    false⟩
  have ht : testpmd.run twoPorts unbonded = some t := rfl
  obtain ⟨t', ht'⟩ := Option.isSome_iff_exists.mp (show (testpmd.run t [.stop,
    .start_port .all true working, .stop]).isSome = true from rfl)
  have hstuck : Stuck t 0 ⟨true, .stopped, true, true, false⟩ := ⟨rfl, rfl, rfl, .inr ⟨rfl, rfl⟩⟩
  obtain ⟨hdone, hstop, -⟩ := testpmd_blocked t t' _ 0 _ hstuck (by simp) ht'
  exact ⟨t, t', ht, ht', hdone, hstop⟩

/-! ## Section 7: Ports that are left behind -/

/-- `port start` comes to the port `pi`, and finds no pool for its RX queues. -/
structure Strands (s : Control) (pi : ℕ) (pid : Pid) (calls : ℕ → Calls) (port : rte_port) :
    Prop where
  idle : s.test_done = true
  at_pi : s.ports[pi]? = some port
  enabled : port.enabled = true
  selected : pid.selects pi = true
  stopped : port.port_status = .stopped
  reached : GoesOn calls pid 0 s.ports pi
  configured : port.need_reconfig = true → (calls pi).configure = true
  queues : port.need_reconfig_queues = true
  tx_queues : (calls pi).tx_queues = true
  no_pool : (calls pi).rx_queues = .no_pool

theorem start_one_status {calls : Calls} {port : rte_port} :
    (start_one calls port).1.port_status = .handling ↔ port.port_status = .handling ∨
      port.port_status = .stopped ∧ (port.need_reconfig = true → calls.configure = true) ∧
        port.need_reconfig_queues = true ∧ calls.tx_queues = true ∧ calls.rx_queues = .no_pool := by
  unfold start_one
  by_cases hstopped : port.port_status = .stopped
  · rw [if_neg (by simpa using hstopped)]
    cases hconf : port.need_reconfig <;> cases hqueues : port.need_reconfig_queues <;>
      cases hc : calls.configure <;> cases ht : calls.tx_queues <;> cases hr : calls.rx_queues <;>
      cases hs : calls.dev_start <;> simp [hstopped]
  · rw [if_pos hstopped]
    simp [hstopped]

theorem start_one_enabled (calls : Calls) (port : rte_port) :
    (start_one calls port).1.enabled = port.enabled := by
  unfold start_one
  dsimp only
  split_ifs <;> rfl

/-- A port that is being handled is in use. -/
def Control.HandledInUse (s : Control) : Prop :=
  ∀ (pi : ℕ) (port : rte_port), s.ports[pi]? = some port → port.port_status = .handling →
    port.enabled = true

section stranded

variable {s s' : Control} {l : Command} {pi : ℕ} {old new : rte_port}

theorem PortStep.handled_in_use (h : PortStep s pi old l new)
    (hold : old.port_status = .handling → old.enabled = true) :
    new.port_status = .handling → new.enabled = true := by
  intro hnew
  cases h with
  | keep | add | remove | reconfig => exact hold hnew
  | start hd hen => rw [start_one_enabled, hen]
  | attach | bond => rfl
  | detach hen hclosed =>
    rw [hclosed] at hnew
    cases hnew
  | stop =>
    unfold stop_one at hnew ⊢
    split at hnew
    · cases hnew
    · next hstarted => rw [if_neg hstarted]; exact hold hnew
  | close =>
    unfold close_one at hnew ⊢
    split at hnew
    · cases hnew
    · next hstopped => rw [if_neg hstopped]; exact hold hnew

theorem Strands.handling {pid : Pid} {calls : ℕ → Calls} (h : Strands s pi pid calls old)
    (hstep : s.step (.start_port pid true calls) = some s') :
    ∃ new, s'.ports[pi]? = some new ∧ new.port_status = .handling := by
  obtain rfl := Option.some.inj hstep
  have hvalid : port_id_is_invalid s.ports pid = false := by
    cases pid with
    | all => rfl
    | port k =>
      obtain rfl : k = pi := by simpa [Pid.selects] using h.selected
      simp [port_id_is_invalid, h.at_pi, h.enabled]
  have hports : (start_port pid true calls s).ports = start_ports calls pid 0 s.ports := by
    simp [start_port, h.idle, hvalid]
  obtain ⟨new, hnew, ⟨-, -, -, rfl⟩ | ⟨hnot, -⟩⟩ :=
    start_ports_getElem? calls pid 0 h.at_pi
  · rw [Nat.zero_add] at hnew
    refine ⟨_, hports ▸ hnew, start_one_status.mpr (.inr ?_)⟩
    exact ⟨h.stopped, h.configured, h.queues, h.tx_queues, h.no_pool⟩
  · exact absurd ⟨h.enabled, (Nat.zero_add pi).symm ▸ h.selected, h.reached⟩ hnot

theorem Control.HandledInUse.step (h : s.HandledInUse) (hstep : s.step l = some s') :
    s'.HandledInUse := by
  intro k new hnew hhandling
  obtain ⟨old, hold, hport⟩ := step_port_back hstep hnew
  exact hport.handled_in_use (h k old hold) hhandling

end stranded

end TestPmd
