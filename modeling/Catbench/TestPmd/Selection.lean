import Catbench.TestPmd.Items
import Catbench.TestPmd.Ports
import Catbench.TestPmd.Streams
import Mathlib.Data.List.GetD
import Mathlib.Data.List.Perm.Subperm

/-! # The ports and cores that are selected for forwarding

    All ports are selected and one core, until arguments at the launch or commands select
    others, by a list, by a mask or by their number; ports come and go.  The source says what
    is to hold of the numbers: those in use are at most those selected, and these at most
    those that there are.

    * It holds all along a run, exactly if no argument takes more than an earlier mask has selected,
      no list has a port twice modulo 256 or the number 255, which stands for all ports, and no
      port is detached while none is in use.
    * The ports and cores that are selected are then different ones that can be used, as the
      streams need it.
-/

open LTS

namespace TestPmd

/-! ## Section 1: Selecting -/

/-- The cores as DPDK knows them. -/
structure Eal where
  RTE_MAX_LCORE : ℕ
  rte_lcore_is_enabled : ℕ → Bool
  rte_get_master_lcore : ℕ

/-- The master core is reserved for the command line. -/
def Eal.usable (eal : Eal) (lcore : ℕ) : Bool :=
  eal.rte_lcore_is_enabled lcore && lcore ≠ eal.rte_get_master_lcore

/-- The test forwarding configuration; `lcoreid_t` and `portid_t` have 8 bits. -/
structure FwdSetup where
  nb_lcores : ℕ
  nb_cfg_lcores : ℕ
  nb_fwd_lcores : ℕ
  fwd_lcores_cpuids : ℕ → ℕ
  nb_ports : ℕ
  nb_cfg_ports : ℕ
  nb_fwd_ports : ℕ
  fwd_ports_ids : ℕ → ℕ

/-- The first entries of an array set to those of a list. -/
def record (ids : List ℕ) (array : ℕ → ℕ) (i : ℕ) : ℕ := ids.getD i (array i)

/-- The first pass over the list only checks it; none where the function returns -1. -/
def set_fwd_lcores_list (eal : Eal) (lcorelist : List ℕ) (s : FwdSetup) : Option FwdSetup :=
  if lcorelist.all eal.usable then
    some { s with
      fwd_lcores_cpuids := record lcorelist s.fwd_lcores_cpuids
      nb_cfg_lcores := lcorelist.length % 256
      nb_fwd_lcores := lcorelist.length % 256 }
  else none

/-- The numbers of the bits of a mask, below a limit. -/
def mask_items (limit mask : ℕ) : List ℕ := (List.range limit).filter fun i => mask.testBit i

def set_fwd_lcores_mask (eal : Eal) (lcoremask : ℕ) (s : FwdSetup) : Option FwdSetup :=
  if lcoremask = 0 then none else set_fwd_lcores_list eal (mask_items 64 lcoremask) s

def set_fwd_lcores_number (nb_lc : ℕ) (s : FwdSetup) : FwdSetup :=
  if nb_lc > s.nb_cfg_lcores then s else { s with nb_fwd_lcores := nb_lc % 256 }

/-- A number as a `portid_t`. -/
def portid (v : ℕ) : Pid := if v % 256 = 255 then .all else .port (v % 256)

/-- `ports` is the array of `RTE_MAX_ETHPORTS` entries. -/
def set_fwd_ports_list (ports : List rte_port) (portlist : List ℕ) (s : FwdSetup) : FwdSetup :=
  if portlist.any fun v => port_id_is_invalid ports (portid v) then s
  else
    { s with
      fwd_ports_ids := record (portlist.map (· % 256)) s.fwd_ports_ids
      nb_cfg_ports := portlist.length % 256
      nb_fwd_ports := portlist.length % 256 }

def set_fwd_ports_mask (ports : List rte_port) (portmask : ℕ) (s : FwdSetup) : FwdSetup :=
  if portmask = 0 then s
  else set_fwd_ports_list ports (mask_items (min 64 ports.length) portmask) s

def set_fwd_ports_number (nb_pt : ℕ) (s : FwdSetup) : FwdSetup :=
  if nb_pt > s.nb_cfg_ports then s else { s with nb_fwd_ports := nb_pt % 256 }

/-- The loop `FOREACH_PORT`, from the port `pi` on. -/
def foreach_port : ℕ → List rte_port → List ℕ
  | _, [] => []
  | pi, port :: rest =>
    if port.enabled then pi :: foreach_port (pi + 1) rest else foreach_port (pi + 1) rest

/-- DPDK counts the devices that are attached: their entries are in use. -/
def rte_eth_dev_count (ports : List rte_port) : ℕ := ports.countP (·.enabled)

/-- All ports are selected. -/
def FwdSetup.reset (s : FwdSetup) (ports : List rte_port) : FwdSetup :=
  { s with
    nb_ports := rte_eth_dev_count ports % 256
    fwd_ports_ids := record (foreach_port 0 ports) fun _ => 0
    nb_cfg_ports := rte_eth_dev_count ports % 256 }

/-! ## Section 2: Runs -/

/-- The ports, and what is selected of them; `launched` is false while the arguments of the
    launch are read. -/
structure Setup where
  control : Control
  fwd : FwdSetup
  launched : Bool

inductive LaunchArg where
  | nb_ports (n : ℤ)
  | nb_cores (n : ℤ)
  | coremask (cm : ℕ)
  | portmask (pm : ℕ)

/-- None where the program exits. -/
def launch_args_parse (eal : Eal) (ports : List rte_port) (s : FwdSetup) :
    LaunchArg → Option FwdSetup
  | .nb_ports n =>
    if 0 < n ∧ n ≤ s.nb_ports then some { s with nb_fwd_ports := n.toNat % 256 } else none
  | .nb_cores n =>
    if 0 < n ∧ n ≤ s.nb_lcores then some { s with nb_fwd_lcores := n.toNat % 256 } else none
  | .coremask cm => set_fwd_lcores_mask eal cm s
  | .portmask pm => some (set_fwd_ports_mask ports pm s)

inductive SetCommand where
  | corelist (str : List Char)
  | portlist (str : List Char)
  | coremask (mask : ℕ)
  | portmask (mask : ℕ)
  | nbcore (value : ℕ)
  | nbport (value : ℕ)

section system

variable (eal : Eal) (STR_TOKEN_SIZE : ℕ)

/-- The text of `set portlist` as numbers. -/
def parse_portlist (ports : List rte_port) (str : List Char) : Option (List ℕ) :=
  parse_item_list STR_TOKEN_SIZE ports.length true str

/-- `cmd_set_list_parsed`, `cmd_set_mask_parsed` and `cmd_set_parsed`: only the numbers can be
    set while packets are forwarded. -/
def set_command (control : Control) (s : FwdSetup) : SetCommand → FwdSetup
  | .corelist str =>
    if !control.test_done then s
    else
      match parse_item_list STR_TOKEN_SIZE eal.RTE_MAX_LCORE true str with
      | none => s
      | some lcorelist => (set_fwd_lcores_list eal lcorelist s).getD s
  | .portlist str =>
    if !control.test_done then s
    else
      match parse_portlist STR_TOKEN_SIZE control.ports str with
      | none => s
      | some portlist => set_fwd_ports_list control.ports portlist s
  | .coremask mask => if !control.test_done then s else (set_fwd_lcores_mask eal mask s).getD s
  | .portmask mask => if !control.test_done then s else set_fwd_ports_mask control.ports mask s
  | .nbcore value => set_fwd_lcores_number value s
  | .nbport value => set_fwd_ports_number value s

/-- What a command of the ports does to the configuration: `ports` is the array behind it. -/
def port_command (control : Control) (ports : List rte_port) (s : FwdSetup) : Command → FwdSetup
  | .attach_port _ =>
    if !control.test_done then s
    else { s.reset ports with nb_fwd_ports := (s.nb_fwd_ports + 1) % 256 }
  | .detach_port port_id =>
    if !port_is_closed control.ports port_id then s
    -- from 0 the number goes to 255
    else { s.reset ports with nb_fwd_ports := (s.nb_fwd_ports + 255) % 256 }
  | .create_bonded_device _ =>
    if !control.test_done then s else { s with nb_ports := rte_eth_dev_count ports % 256 }
  | _ => s

inductive SetupAct where
  | arg (a : LaunchArg)
  | set (c : SetCommand)
  | command (c : Command)

def Setup.step (s : Setup) : SetupAct → Option Setup
  | .arg a =>
    if s.launched then none
    else (launch_args_parse eal s.control.ports s.fwd a).map fun fwd => { s with fwd }
  | .set c =>
    some { s with fwd := set_command eal STR_TOKEN_SIZE s.control s.fwd c, launched := true }
  | .command c =>
    (s.control.step c).map fun control =>
      { control, fwd := port_command s.control control.ports s.fwd c, launched := true }

/-- The usable cores, in the order in which `set_default_fwd_lcores_config` finds them. -/
def Eal.lcores (eal : Eal) : List ℕ := (List.range eal.RTE_MAX_LCORE).filter eal.usable

/-- After `init_port` and `set_def_fwd_config`: the first entries are in use. -/
structure Setup.Init (s : Setup) : Prop where
  control : s.control.Init
  enabled : foreach_port 0 s.control.ports = List.range (rte_eth_dev_count s.control.ports)
  nb_lcores : s.fwd.nb_lcores = eal.lcores.length % 256
  nb_cfg_lcores : s.fwd.nb_cfg_lcores = s.fwd.nb_lcores
  nb_fwd_lcores : s.fwd.nb_fwd_lcores = 1
  fwd_lcores_cpuids : s.fwd.fwd_lcores_cpuids = record eal.lcores fun _ => 0
  nb_ports : s.fwd.nb_ports = rte_eth_dev_count s.control.ports % 256
  nb_cfg_ports : s.fwd.nb_cfg_ports = s.fwd.nb_ports
  nb_fwd_ports : s.fwd.nb_fwd_ports = s.fwd.nb_ports
  fwd_ports_ids : s.fwd.fwd_ports_ids =
    record (List.range (rte_eth_dev_count s.control.ports)) fun _ => 0
  /-- Else the program stops. -/
  lcores : 0 < s.fwd.nb_lcores
  launched : s.launched = false

def testpmd_setup : System Setup SetupAct where
  init := Setup.Init eal
  step := Setup.step eal STR_TOKEN_SIZE

end system

/-! ## Section 3: Arrays and counts -/

/-- The first `n` entries are different ones that can be used. -/
structure Selects (usable : ℕ → Bool) (ids : ℕ → ℕ) (n : ℕ) : Prop where
  usable : ∀ i < n, usable (ids i) = true
  inj : ∀ i < n, ∀ j < n, ids i = ids j → i = j

theorem record_of_lt {ids : List ℕ} (array : ℕ → ℕ) {i : ℕ} (h : i < ids.length) :
    record ids array i = ids[i] := List.getD_eq_getElem _ _ h

theorem selects_record_iff {usable : ℕ → Bool} {ids : List ℕ} {array : ℕ → ℕ} :
    Selects usable (record ids array) ids.length ↔
      (∀ v ∈ ids, usable v = true) ∧ ids.Nodup := by
  constructor
  · intro h
    constructor
    · intro v hv
      obtain ⟨i, hi, rfl⟩ := List.mem_iff_getElem.mp hv
      rw [← record_of_lt array hi]
      exact h.usable i hi
    · rw [List.nodup_iff_injective_get]
      intro i j hij
      apply Fin.ext
      apply h.inj i i.isLt j j.isLt
      rwa [record_of_lt array i.isLt, record_of_lt array j.isLt]
  · intro ⟨husable, hnodup⟩
    constructor
    · intro i hi
      rw [record_of_lt array hi]
      exact husable _ (List.getElem_mem hi)
    · intro i hi j hj hij
      rw [record_of_lt array hi, record_of_lt array hj] at hij
      exact (hnodup.getElem_inj_iff).mp hij

theorem Selects.congr {usable usable' : ℕ → Bool} {ids : ℕ → ℕ} {n : ℕ}
    (h : Selects usable ids n) (hmono : ∀ v, usable v = true → usable' v = true) :
    Selects usable' ids n := ⟨fun i hi => hmono _ (h.usable i hi), h.inj⟩

/-- A port has an entry that is in use. -/
def in_use (ports : List rte_port) (pi : ℕ) : Bool := ports[pi]?.any (·.enabled)

section counts

variable {ports : List rte_port}

theorem mem_foreach_port {k v : ℕ} :
    v ∈ foreach_port k ports ↔ k ≤ v ∧ in_use ports (v - k) = true := by
  induction ports generalizing k with
  | nil => simp [foreach_port, in_use]
  | cons port rest ih =>
    have hrest : ∀ v, k + 1 ≤ v → in_use (port :: rest) (v - k) = in_use rest (v - (k + 1)) := by
      intro v hv
      have hsub : v - k = v - (k + 1) + 1 := by omega
      rw [hsub]
      rfl
    have hfirst : in_use (port :: rest) (k - k) = port.enabled := by
      rw [Nat.sub_self]
      rfl
    have hmem : v ∈ foreach_port k (port :: rest) ↔
        (v = k ∧ port.enabled = true) ∨ v ∈ foreach_port (k + 1) rest := by
      rw [foreach_port]
      split
      · next hen => simp [hen]
      · next hen => simp [hen]
    rw [hmem, ih]
    constructor
    · rintro (⟨rfl, hen⟩ | ⟨hle, hin⟩)
      · exact ⟨le_rfl, hfirst.trans hen⟩
      · exact ⟨Nat.le_of_succ_le hle, (hrest v hle).trans hin⟩
    · intro ⟨hle, hin⟩
      rcases Nat.lt_or_eq_of_le hle with hlt | rfl
      · exact .inr ⟨hlt, (hrest v hlt).symm.trans hin⟩
      · exact .inl ⟨rfl, hfirst.symm.trans hin⟩

theorem nodup_foreach_port (k : ℕ) (ports : List rte_port) : (foreach_port k ports).Nodup := by
  induction ports generalizing k with
  | nil => exact List.nodup_nil
  | cons port rest ih =>
    unfold foreach_port
    split
    · refine List.nodup_cons.mpr ⟨fun hmem => ?_, ih (k + 1)⟩
      have hle := (mem_foreach_port.mp hmem).1
      omega
    · exact ih (k + 1)

theorem length_foreach_port (k : ℕ) (ports : List rte_port) :
    (foreach_port k ports).length = rte_eth_dev_count ports := by
  induction ports generalizing k with
  | nil => rfl
  | cons port rest ih =>
    unfold foreach_port rte_eth_dev_count
    rw [List.countP_cons]
    split
    · rw [List.length_cons, ih, rte_eth_dev_count]
    · rw [ih, Nat.add_zero, rte_eth_dev_count]

/-- Different ports in use are no more than there are. -/
theorem length_le_count {ids : List ℕ} (hnodup : ids.Nodup)
    (hin : ∀ v ∈ ids, in_use ports v = true) : ids.length ≤ rte_eth_dev_count ports := by
  rw [← length_foreach_port 0]
  refine (List.subperm_of_subset hnodup fun v hv => ?_).length_le
  exact mem_foreach_port.mpr ⟨Nat.zero_le v, hin v hv⟩

theorem lt_of_in_use {pi : ℕ} (h : in_use ports pi = true) : pi < ports.length := by
  obtain ⟨port, hport, -⟩ := (Option.any_eq_true _ _).mp h
  exact (List.getElem?_eq_some_iff.mp hport).1

theorem in_use_modify {k pi : ℕ} {f : rte_port → rte_port} {old : rte_port}
    (h : ports[k]? = some old) :
    in_use (ports.modify k f) pi = if k = pi then (f old).enabled else in_use ports pi := by
  unfold in_use
  rw [List.getElem?_modify]
  split
  · next heq =>
    subst heq
    rw [h]
    rfl
  · simp

/-- A port more. -/
theorem count_modify {k : ℕ} {f : rte_port → rte_port} {old : rte_port} (h : ports[k]? = some old)
    (hold : old.enabled = false) (hnew : (f old).enabled = true) :
    rte_eth_dev_count ports + 1 ≤ rte_eth_dev_count (ports.modify k f) := by
  have hk : in_use ports k = false := by
    rw [in_use, h]
    exact hold
  -- the new port and those in use before are different ports in use
  have hnodup : (k :: foreach_port 0 ports).Nodup := by
    refine List.nodup_cons.mpr ⟨fun hmem => ?_, nodup_foreach_port 0 ports⟩
    rw [mem_foreach_port, Nat.sub_zero, hk] at hmem
    exact Bool.false_ne_true hmem.2
  have hin : ∀ v ∈ k :: foreach_port 0 ports, in_use (ports.modify k f) v = true := by
    intro v hv
    rw [in_use_modify h]
    split
    · exact hnew
    · next hne =>
      rcases List.mem_cons.mp hv with rfl | hv
      · exact absurd rfl hne
      · exact (mem_foreach_port.mp hv).2
  have hle := length_le_count hnodup hin
  rwa [List.length_cons, length_foreach_port] at hle

/-- A port less. -/
theorem count_modify_off {k : ℕ} {f : rte_port → rte_port} {old : rte_port}
    (h : ports[k]? = some old) (hnew : (f old).enabled = false) :
    rte_eth_dev_count ports ≤ rte_eth_dev_count (ports.modify k f) + 1 ∧
      rte_eth_dev_count (ports.modify k f) < ports.length := by
  have hk : in_use (ports.modify k f) k = false := by
    rw [in_use_modify h, if_pos rfl]
    exact hnew
  -- the port that goes is not among those that stay
  have hnodup : (k :: foreach_port 0 (ports.modify k f)).Nodup := by
    refine List.nodup_cons.mpr ⟨fun hmem => ?_, nodup_foreach_port 0 _⟩
    rw [mem_foreach_port, Nat.sub_zero, hk] at hmem
    exact Bool.false_ne_true hmem.2
  constructor
  · rw [← length_foreach_port 0 ports, ← length_foreach_port 0 (ports.modify k f),
      ← List.length_cons (a := k)]
    refine (List.subperm_of_subset (nodup_foreach_port 0 ports) fun v hv => ?_).length_le
    by_cases hv' : v = k
    · exact hv' ▸ List.mem_cons_self
    · refine List.mem_cons_of_mem k (mem_foreach_port.mpr ⟨Nat.zero_le v, ?_⟩)
      rw [Nat.sub_zero, in_use_modify h, if_neg (Ne.symm hv')]
      exact (mem_foreach_port.mp hv).2
  · have hsub : k :: foreach_port 0 (ports.modify k f) ⊆ List.range ports.length := by
      intro v hv
      rw [List.mem_range]
      rcases List.mem_cons.mp hv with rfl | hv
      · exact (List.getElem?_eq_some_iff.mp h).1
      · have hlt := lt_of_in_use (mem_foreach_port.mp hv).2
        rwa [List.length_modify] at hlt
    have hle := (List.subperm_of_subset hnodup hsub).length_le
    rw [List.length_cons, length_foreach_port, List.length_range] at hle
    exact hle

/-- The other commands leave the entries in use as they are. -/
theorem in_use_step {s s' : Control} {l : Command} (hstep : s.step l = some s')
    (hl : ∀ k, l ≠ .attach_port k ∧ l ≠ .detach_port k ∧ l ≠ .create_bonded_device k) :
    in_use s'.ports = in_use s.ports := by
  funext pi
  cases h : s.ports[pi]? with
  | none =>
    have hnone : s'.ports[pi]? = none := by
      rw [List.getElem?_eq_none_iff, step_length hstep]
      exact List.getElem?_eq_none_iff.mp h
    rw [in_use, in_use, h, hnone]
  | some old =>
    obtain ⟨new, hnew, hport⟩ := step_port hstep h
    have hen : new.enabled = old.enabled := by
      cases hport with
      | keep | add | remove | reconfig => rfl
      | start => exact start_one_enabled _ _
      | stop =>
        unfold stop_one
        split <;> rfl
      | close =>
        unfold close_one
        split <;> rfl
      | attach => exact absurd rfl (hl pi).1
      | detach => exact absurd rfl (hl pi).2.1
      | bond => exact absurd rfl (hl pi).2.2
    rw [in_use, in_use, h, hnew]
    exact hen

theorem count_congr {ports' : List rte_port} (h : in_use ports' = in_use ports) :
    rte_eth_dev_count ports' = rte_eth_dev_count ports := by
  apply Nat.le_antisymm
  · rw [← length_foreach_port 0 ports']
    exact length_le_count (nodup_foreach_port 0 _) fun v hv => h ▸ (mem_foreach_port.mp hv).2
  · rw [← length_foreach_port 0 ports]
    exact length_le_count (nodup_foreach_port 0 _) fun v hv => h ▸ (mem_foreach_port.mp hv).2

theorem count_le_length (ports : List rte_port) : rte_eth_dev_count ports ≤ ports.length :=
  List.countP_le_length

end counts

/-! ## Section 4: What is to hold of the numbers -/

/-- `nb_fwd <= nb_cfg <= nb`, and the first entries of the array. -/
structure Numbers (usable : ℕ → Bool) (nb nb_cfg nb_fwd : ℕ) (ids : ℕ → ℕ) : Prop where
  fwd_le : nb_fwd ≤ nb_cfg
  cfg_le : nb_cfg ≤ nb
  selects : Selects usable ids nb_cfg

def FwdSetup.Lcores (eal : Eal) (s : FwdSetup) : Prop :=
  Numbers eal.usable s.nb_lcores s.nb_cfg_lcores s.nb_fwd_lcores s.fwd_lcores_cpuids

def FwdSetup.Ports (ports : List rte_port) (s : FwdSetup) : Prop :=
  Numbers (in_use ports) s.nb_ports s.nb_cfg_ports s.nb_fwd_ports s.fwd_ports_ids

/-- What the source says of the test forwarding configuration. -/
structure Setup.Documented (eal : Eal) (s : Setup) : Prop where
  lcores : s.fwd.Lcores eal
  ports : s.fwd.Ports s.control.ports

/-- It is what the streams need of the ports. -/
theorem Setup.Documented.distinct {eal : Eal} {s : Setup} (h : s.Documented eal) {p : Params}
    (hnb : p.nb_fwd_ports = s.fwd.nb_fwd_ports) (hids : p.fwd_ports_ids = s.fwd.fwd_ports_ids) :
    p.Distinct := by
  have hle := h.ports.fwd_le
  intro i hi j hj hij
  rw [hids] at hij
  exact h.ports.selects.inj i (by omega) j (by omega) hij

/-- What DPDK says of the cores; there are 128 by default. -/
structure Eal.Documented (eal : Eal) : Prop where
  enabled_lt : ∀ i, eal.rte_lcore_is_enabled i = true → i < eal.RTE_MAX_LCORE
  max_lt : eal.RTE_MAX_LCORE < 256

/-- What holds in every run: there are the ports and cores that are counted. -/
structure Setup.Counted (eal : Eal) (s : Setup) : Prop where
  nb_lcores : s.fwd.nb_lcores = eal.lcores.length
  nb_ports : s.fwd.nb_ports = rte_eth_dev_count s.control.ports
  length : s.control.ports.length < 256

/-- A list that is not refused has no port twice, and not the number that stands for all. -/
def PortlistOk (ports : List rte_port) (portlist : List ℕ) : Prop :=
  (∀ v ∈ portlist, port_id_is_invalid ports (portid v) = false) →
    (portlist.map (· % 256)).Nodup ∧ 255 ∉ portlist.map (· % 256)

section lists

variable {eal : Eal} {ports : List rte_port} {s s' : FwdSetup}

theorem mask_items_spec (limit mask : ℕ) :
    (mask_items limit mask).Nodup ∧ ∀ v ∈ mask_items limit mask, v < limit := by
  refine ⟨List.nodup_range.filter _, fun v hv => ?_⟩
  exact List.mem_range.mp (List.mem_filter.mp hv).1

theorem length_lcores_lt (heal : eal.Documented) : eal.lcores.length < 256 := by
  have hle : eal.lcores.length ≤ (List.range eal.RTE_MAX_LCORE).length :=
    List.length_filter_le _ _
  rw [List.length_range] at hle
  exact Nat.lt_of_le_of_lt hle heal.max_lt

/-- A list of different cores sets what it is to set, if it is not refused. -/
theorem set_fwd_lcores_list_spec (heal : eal.Documented) {lcorelist : List ℕ}
    (hnb : s.nb_lcores = eal.lcores.length) (hnodup : lcorelist.Nodup)
    (h : set_fwd_lcores_list eal lcorelist s = some s') :
    ∃ ids cfg fwd, s' = { s with
        fwd_lcores_cpuids := ids, nb_cfg_lcores := cfg, nb_fwd_lcores := fwd } ∧
      Numbers eal.usable s.nb_lcores cfg fwd ids := by
  obtain ⟨hall, heq⟩ := Option.ite_none_right_eq_some.mp h
  have husable : ∀ v ∈ lcorelist, eal.usable v = true := List.all_eq_true.mp hall
  -- different cores that can be used are no more than there are
  have hle : lcorelist.length ≤ eal.lcores.length := by
    refine (List.subperm_of_subset hnodup fun v hv => ?_).length_le
    have hv := husable v hv
    refine List.mem_filter.mpr ⟨List.mem_range.mpr (heal.enabled_lt v ?_), hv⟩
    exact (Bool.and_eq_true_iff.mp hv).1
  have hlt := length_lcores_lt heal
  have hmod : lcorelist.length % 256 = lcorelist.length := Nat.mod_eq_of_lt (by omega)
  rw [hmod] at heq
  refine ⟨_, _, _, (Option.some.inj heq).symm, le_rfl, hnb ▸ hle, ?_⟩
  exact selects_record_iff.mpr ⟨husable, hnodup⟩

/-- A list of ports does, exactly if it is in order. -/
theorem set_fwd_ports_list_spec {portlist : List ℕ} (hlength : ports.length < 256)
    (hnb : s.nb_ports = rte_eth_dev_count ports) (hs : s.Ports ports)
    (hlist : portlist.length ≤ ports.length) :
    ∃ ids cfg fwd, set_fwd_ports_list ports portlist s =
        { s with fwd_ports_ids := ids, nb_cfg_ports := cfg, nb_fwd_ports := fwd } ∧
      (Numbers (in_use ports) s.nb_ports cfg fwd ids ↔ PortlistOk ports portlist) := by
  unfold set_fwd_ports_list
  split
  · next hany =>
    -- the list is refused
    refine ⟨_, _, _, rfl, iff_of_true hs fun hvalid => ?_⟩
    obtain ⟨v, hv, hinvalid⟩ := List.any_eq_true.mp hany
    exact absurd ((hvalid v hv).symm.trans hinvalid) Bool.false_ne_true
  · next hany =>
    have hvalid : ∀ v ∈ portlist, port_id_is_invalid ports (portid v) = false := by
      simpa using hany
    -- the list is no longer than the array, so that its length has 8 bits
    have hmod : portlist.length % 256 = (portlist.map (· % 256)).length := by
      rw [List.length_map, Nat.mod_eq_of_lt (by omega)]
    refine ⟨_, _, _, rfl, ?_⟩
    rw [hmod]
    constructor
    · intro h _
      obtain ⟨huse, hnodup⟩ := selects_record_iff.mp h.selects
      refine ⟨hnodup, fun hmem => ?_⟩
      have hlt := lt_of_in_use (huse 255 hmem)
      omega
    · intro hok
      obtain ⟨hnodup, hall⟩ := hok hvalid
      have huse : ∀ v ∈ portlist.map (· % 256), in_use ports v = true := by
        intro v hv
        obtain ⟨w, hw, rfl⟩ := List.mem_map.mp hv
        have hne : w % 256 ≠ 255 := fun h => hall (h ▸ hv)
        have hw := hvalid w hw
        rw [portid, if_neg hne] at hw
        exact Bool.not_eq_eq_eq_not.mp hw
      exact ⟨le_rfl, hnb ▸ length_le_count hnodup huse,
        selects_record_iff.mpr ⟨huse, hnodup⟩⟩

theorem portlistOk_of_lt {portlist : List ℕ} (hnodup : portlist.Nodup)
    (hlt : ∀ v ∈ portlist, v < 64) : PortlistOk ports portlist := by
  intro _
  have hmap : portlist.map (· % 256) = portlist := by
    rw [List.map_congr_left fun v hv => ?_, List.map_id]
    have hv := hlt v hv
    exact Nat.mod_eq_of_lt (by omega)
  rw [hmap]
  refine ⟨hnodup, fun hmem => ?_⟩
  have hlt := hlt 255 hmem
  omega

theorem set_fwd_ports_mask_spec (portmask : ℕ) (hlength : ports.length < 256)
    (hnb : s.nb_ports = rte_eth_dev_count ports) (hs : s.Ports ports) :
    ∃ ids cfg fwd, set_fwd_ports_mask ports portmask s =
        { s with fwd_ports_ids := ids, nb_cfg_ports := cfg, nb_fwd_ports := fwd } ∧
      Numbers (in_use ports) s.nb_ports cfg fwd ids := by
  unfold set_fwd_ports_mask
  split
  · exact ⟨_, _, _, rfl, hs⟩
  · obtain ⟨hnodup, hlt⟩ := mask_items_spec (min 64 ports.length) portmask
    have hlist : (mask_items (min 64 ports.length) portmask).length ≤ ports.length := by
      have hle : (mask_items (min 64 ports.length) portmask).length ≤
          (List.range (min 64 ports.length)).length := List.length_filter_le _ _
      rw [List.length_range] at hle
      omega
    obtain ⟨ids, cfg, fwd, heq, hiff⟩ := set_fwd_ports_list_spec hlength hnb hs hlist
    refine ⟨ids, cfg, fwd, heq, hiff.mpr (portlistOk_of_lt hnodup fun v hv => ?_)⟩
    have hv := hlt v hv
    omega

theorem set_fwd_lcores_mask_spec (heal : eal.Documented) {lcoremask : ℕ}
    (hnb : s.nb_lcores = eal.lcores.length) (h : set_fwd_lcores_mask eal lcoremask s = some s') :
    ∃ ids cfg fwd, s' = { s with
        fwd_lcores_cpuids := ids, nb_cfg_lcores := cfg, nb_fwd_lcores := fwd } ∧
      Numbers eal.usable s.nb_lcores cfg fwd ids := by
  unfold set_fwd_lcores_mask at h
  split at h
  · cases h
  · exact set_fwd_lcores_list_spec heal hnb (mask_items_spec 64 lcoremask).1 h

/-- All ports that are in use are selected. -/
theorem numbers_reset (s : FwdSetup) (hlength : ports.length < 256) {nb_fwd : ℕ} :
    Numbers (in_use ports) (s.reset ports).nb_ports (s.reset ports).nb_cfg_ports nb_fwd
        (s.reset ports).fwd_ports_ids ↔ nb_fwd ≤ rte_eth_dev_count ports := by
  have hle := count_le_length ports
  have hmod : rte_eth_dev_count ports % 256 = rte_eth_dev_count ports :=
    Nat.mod_eq_of_lt (by omega)
  show Numbers _ (rte_eth_dev_count ports % 256) (rte_eth_dev_count ports % 256) _ _ ↔ _
  rw [hmod]
  constructor
  · exact fun h => h.fwd_le
  · intro hfwd
    refine ⟨hfwd, le_rfl, ?_⟩
    rw [← length_foreach_port 0 ports]
    refine selects_record_iff.mpr ⟨fun v hv => ?_, nodup_foreach_port 0 ports⟩
    exact (mem_foreach_port.mp hv).2

end lists

/-! ## Section 5: Runs -/

/-- No argument takes more than a mask before it has selected, no list has a port twice or the
    number of all ports, and no port is detached while none is in use. -/
def Setup.Allowed (STR_TOKEN_SIZE : ℕ) (s : Setup) : SetupAct → Prop
  | .arg (.nb_ports n) => n ≤ s.fwd.nb_cfg_ports
  | .arg (.nb_cores n) => n ≤ s.fwd.nb_cfg_lcores
  | .set (.portlist str) => s.control.test_done = true → ∀ portlist,
    parse_portlist STR_TOKEN_SIZE s.control.ports str = some portlist →
      PortlistOk s.control.ports portlist
  | .command (.detach_port port_id) =>
    port_is_closed s.control.ports port_id = true → s.fwd.nb_fwd_ports ≠ 0
  | _ => True

section runs

variable {eal : Eal} {STR_TOKEN_SIZE : ℕ} {s s' : Setup}

/-- The cores are set. -/
theorem setup_lcores (hcounted : s.Counted eal) (hdoc : s.Documented eal) (launched : Bool)
    {fwd : FwdSetup}
    (h : ∃ ids cfg nb, fwd = { s.fwd with
        fwd_lcores_cpuids := ids, nb_cfg_lcores := cfg, nb_fwd_lcores := nb } ∧
      Numbers eal.usable s.fwd.nb_lcores cfg nb ids) :
    (Setup.mk s.control fwd launched).Counted eal ∧
      (Setup.mk s.control fwd launched).Documented eal := by
  obtain ⟨ids, cfg, nb, rfl, hnumbers⟩ := h
  exact ⟨⟨hcounted.nb_lcores, hcounted.nb_ports, hcounted.length⟩, hnumbers, hdoc.ports⟩

/-- The ports are set. -/
theorem setup_ports (hcounted : s.Counted eal) (hdoc : s.Documented eal) (launched : Bool)
    {fwd : FwdSetup} {P : Prop}
    (h : ∃ ids cfg nb, fwd = { s.fwd with
        fwd_ports_ids := ids, nb_cfg_ports := cfg, nb_fwd_ports := nb } ∧
      (Numbers (in_use s.control.ports) s.fwd.nb_ports cfg nb ids ↔ P)) :
    (Setup.mk s.control fwd launched).Counted eal ∧
      ((Setup.mk s.control fwd launched).Documented eal ↔ P) := by
  obtain ⟨ids, cfg, nb, rfl, hiff⟩ := h
  refine ⟨⟨hcounted.nb_lcores, hcounted.nb_ports, hcounted.length⟩, ?_⟩
  rw [← hiff]
  exact ⟨fun h => h.ports, fun h => ⟨hdoc.lcores, h⟩⟩

/-- One argument of the launch. -/
theorem arg_step (heal : eal.Documented) (hcounted : s.Counted eal) (hdoc : s.Documented eal)
    {a : LaunchArg} {fwd : FwdSetup}
    (h : launch_args_parse eal s.control.ports s.fwd a = some fwd) :
    (Setup.mk s.control fwd s.launched).Counted eal ∧
      ((Setup.mk s.control fwd s.launched).Documented eal ↔ s.Allowed STR_TOKEN_SIZE (.arg a)) := by
  cases a with
  | nb_ports n =>
    obtain ⟨⟨hpos, hle⟩, heq⟩ := Option.ite_none_right_eq_some.mp h
    obtain rfl := Option.some.inj heq
    have hports := hcounted.nb_ports
    have hcount := count_le_length s.control.ports
    have hlength := hcounted.length
    have hmod : n.toNat % 256 = n.toNat := Nat.mod_eq_of_lt (by omega)
    -- the source compares with all ports, and a mask before may have selected fewer
    apply setup_ports hcounted hdoc
    refine ⟨_, _, _, rfl, ?_⟩
    rw [hmod]
    show _ ↔ n ≤ s.fwd.nb_cfg_ports
    constructor
    · intro hnumbers
      have hfwd := hnumbers.fwd_le
      omega
    · intro hn
      exact ⟨by omega, hdoc.ports.cfg_le, hdoc.ports.selects⟩
  | nb_cores n =>
    obtain ⟨⟨hpos, hle⟩, heq⟩ := Option.ite_none_right_eq_some.mp h
    obtain rfl := Option.some.inj heq
    have hlcores := hcounted.nb_lcores
    have hcount := length_lcores_lt heal
    have hmod : n.toNat % 256 = n.toNat := Nat.mod_eq_of_lt (by omega)
    refine ⟨⟨hcounted.nb_lcores, hcounted.nb_ports, hcounted.length⟩, ?_⟩
    show _ ↔ n ≤ s.fwd.nb_cfg_lcores
    constructor
    · intro hnumbers
      have hfwd : n.toNat % 256 ≤ s.fwd.nb_cfg_lcores := hnumbers.lcores.fwd_le
      omega
    · intro hn
      refine ⟨⟨?_, hdoc.lcores.cfg_le, hdoc.lcores.selects⟩, hdoc.ports⟩
      show n.toNat % 256 ≤ s.fwd.nb_cfg_lcores
      omega
  | coremask cm =>
    obtain ⟨hcounted', hdoc'⟩ := setup_lcores hcounted hdoc s.launched
      (set_fwd_lcores_mask_spec heal hcounted.nb_lcores h)
    exact ⟨hcounted', iff_of_true hdoc' trivial⟩
  | portmask pm =>
    obtain rfl := Option.some.inj h
    obtain ⟨ids, cfg, nb, heq, hnumbers⟩ :=
      set_fwd_ports_mask_spec pm hcounted.length hcounted.nb_ports hdoc.ports
    exact setup_ports hcounted hdoc _ ⟨ids, cfg, nb, heq, iff_of_true hnumbers trivial⟩

/-- One command that sets something. -/
theorem set_step (heal : eal.Documented) (hcounted : s.Counted eal) (hdoc : s.Documented eal)
    (c : SetCommand) :
    let t := Setup.mk s.control (set_command eal STR_TOKEN_SIZE s.control s.fwd c) true
    t.Counted eal ∧ (t.Documented eal ↔ s.Allowed STR_TOKEN_SIZE (.set c)) := by
  dsimp only
  -- the command is refused
  have hkeep : (Setup.mk s.control s.fwd true).Counted eal ∧
      (Setup.mk s.control s.fwd true).Documented eal :=
    ⟨⟨hcounted.nb_lcores, hcounted.nb_ports, hcounted.length⟩, hdoc.lcores, hdoc.ports⟩
  have hlcores : ∀ {r : Option FwdSetup}, (∀ fwd, r = some fwd →
      ∃ ids cfg nb, fwd = { s.fwd with
          fwd_lcores_cpuids := ids, nb_cfg_lcores := cfg, nb_fwd_lcores := nb } ∧
        Numbers eal.usable s.fwd.nb_lcores cfg nb ids) →
      (Setup.mk s.control (r.getD s.fwd) true).Counted eal ∧
        (Setup.mk s.control (r.getD s.fwd) true).Documented eal := by
    intro r hr
    cases r with
    | none => exact hkeep
    | some fwd => exact setup_lcores hcounted hdoc true (hr fwd rfl)
  cases c with
  | corelist str =>
    show _ ∧ (_ ↔ True)
    rw [iff_true]
    rw [set_command]
    split
    · exact hkeep
    · split
      · exact hkeep
      · next lcorelist hparse =>
        have hnodup := ((parse_item_list_iff _ _ _ _ _).mp hparse).2.2.2 rfl
        exact hlcores fun fwd => set_fwd_lcores_list_spec heal hcounted.nb_lcores hnodup
  | portlist str =>
    rw [set_command]
    split
    · next hdone =>
      -- packets are forwarded
      refine ⟨hkeep.1, iff_of_true hkeep.2 fun h => ?_⟩
      rw [h] at hdone
      cases hdone
    · next hdone =>
      have hdone : s.control.test_done = true := by simpa using hdone
      split
      · next hparse =>
        -- the text is no list
        refine ⟨hkeep.1, iff_of_true hkeep.2 fun _ portlist h => ?_⟩
        rw [hparse] at h
        cases h
      · next portlist hparse =>
        have hlist := ((parse_item_list_iff _ _ _ _ _).mp hparse).2.2.1
        obtain ⟨ids, cfg, nb, heq, hiff⟩ :=
          set_fwd_ports_list_spec hcounted.length hcounted.nb_ports hdoc.ports hlist
        apply setup_ports hcounted hdoc
        refine ⟨ids, cfg, nb, heq, hiff.trans ⟨fun hok _ portlist' h => ?_, fun h => ?_⟩⟩
        · obtain rfl := Option.some.inj (hparse.symm.trans h)
          exact hok
        · exact h hdone portlist hparse
  | coremask mask =>
    show _ ∧ (_ ↔ True)
    rw [iff_true]
    rw [set_command]
    split
    · exact hkeep
    · exact hlcores fun fwd => set_fwd_lcores_mask_spec heal hcounted.nb_lcores
  | portmask mask =>
    rw [set_command]
    split
    · exact ⟨hkeep.1, iff_of_true hkeep.2 trivial⟩
    · obtain ⟨ids, cfg, nb, heq, hnumbers⟩ :=
        set_fwd_ports_mask_spec mask hcounted.length hcounted.nb_ports hdoc.ports
      exact setup_ports hcounted hdoc _ ⟨ids, cfg, nb, heq, iff_of_true hnumbers trivial⟩
  | nbcore value =>
    show _ ∧ (_ ↔ True)
    rw [iff_true]
    rw [set_command, set_fwd_lcores_number]
    split
    · exact hkeep
    · have hle := Nat.mod_le value 256
      exact setup_lcores hcounted hdoc true ⟨_, _, _, rfl, by omega, hdoc.lcores.cfg_le,
        hdoc.lcores.selects⟩
  | nbport value =>
    rw [set_command, set_fwd_ports_number]
    split
    · exact ⟨hkeep.1, iff_of_true hkeep.2 trivial⟩
    · have hle := Nat.mod_le value 256
      refine setup_ports hcounted hdoc _ ⟨_, _, _, rfl, iff_of_true ?_ trivial⟩
      exact ⟨by omega, hdoc.ports.cfg_le, hdoc.ports.selects⟩

/-- All ports are selected anew. -/
theorem setup_reset (hcounted : s.Counted eal) (hdoc : s.Documented eal) (control : Control)
    (hlength : control.ports.length < 256) (nb : ℕ) :
    let t := Setup.mk control { s.fwd.reset control.ports with nb_fwd_ports := nb } true
    t.Counted eal ∧ (t.Documented eal ↔ nb ≤ rte_eth_dev_count control.ports) := by
  have hle := count_le_length control.ports
  refine ⟨⟨hcounted.nb_lcores, Nat.mod_eq_of_lt (by omega), hlength⟩, ?_⟩
  rw [← numbers_reset s.fwd hlength]
  exact ⟨fun h => h.ports, fun h => ⟨hdoc.lcores, h⟩⟩

/-- The same ports are in use. -/
theorem setup_kept (hcounted : s.Counted eal) (hdoc : s.Documented eal) {control : Control}
    (hlength : control.ports.length < 256) (hin : in_use control.ports = in_use s.control.ports) :
    (Setup.mk control s.fwd true).Counted eal ∧ (Setup.mk control s.fwd true).Documented eal := by
  refine ⟨⟨hcounted.nb_lcores, ?_, hlength⟩, hdoc.lcores, ?_⟩
  · exact hcounted.nb_ports.trans (count_congr hin).symm
  · show Numbers (in_use control.ports) _ _ _ _
    rw [hin]
    exact hdoc.ports

/-- One command of the ports. -/
theorem command_step (hcounted : s.Counted eal) (hdoc : s.Documented eal) {c : Command}
    {control : Control} (h : s.control.step c = some control) :
    let t := Setup.mk control (port_command s.control control.ports s.fwd c) true
    t.Counted eal ∧ (t.Documented eal ↔ s.Allowed STR_TOKEN_SIZE (.command c)) := by
  dsimp only
  have hlength : control.ports.length < 256 := by
    rw [step_length h]
    exact hcounted.length
  have hports := hcounted.nb_ports
  have hfwd := hdoc.ports.fwd_le
  have hcfg := hdoc.ports.cfg_le
  have hcount := count_le_length control.ports
  cases c with
  | attach_port k =>
    obtain ⟨hfree, heq⟩ := Option.ite_none_right_eq_some.mp h
    obtain rfl := Option.some.inj heq
    obtain ⟨old, hold, hen⟩ := (Option.any_eq_true _ _).mp hfree
    rw [port_command]
    show _ ∧ (_ ↔ True)
    rw [iff_true]
    split
    · next hdone =>
      exact setup_kept hcounted hdoc hlength (by rw [attach_port, if_pos hdone])
    · next hdone =>
      obtain ⟨hcounted', hiff⟩ := setup_reset hcounted hdoc (attach_port k s.control) hlength
        ((s.fwd.nb_fwd_ports + 1) % 256)
      refine ⟨hcounted', hiff.mpr ?_⟩
      -- there is a port more
      rw [attach_port, if_neg hdone]
      have hmore := count_modify hold (by simpa using hen) (f := fun port =>
        { port with
          enabled := true
          need_reconfig := true
          need_reconfig_queues := true
          port_status := .stopped }) rfl
      show (s.fwd.nb_fwd_ports + 1) % 256 ≤ rte_eth_dev_count (s.control.ports.modify k _)
      omega
  | detach_port k =>
    obtain rfl := Option.some.inj h
    rw [port_command]
    split
    · next hclosed =>
      have hin : in_use (detach_port k s.control).ports = in_use s.control.ports := by
        rw [detach_port, if_pos hclosed]
      obtain ⟨hcounted', hdoc'⟩ := setup_kept hcounted hdoc hlength hin
      refine ⟨hcounted', iff_of_true hdoc' fun h => ?_⟩
      rw [h] at hclosed
      cases hclosed
    · next hclosed =>
      have hclosed' : port_is_closed s.control.ports k = true := by simpa using hclosed
      obtain ⟨old, hold, -⟩ := (Option.any_eq_true _ _).mp hclosed'
      obtain ⟨hcounted', hiff⟩ := setup_reset hcounted hdoc (detach_port k s.control) hlength
        ((s.fwd.nb_fwd_ports + 255) % 256)
      refine ⟨hcounted', hiff.trans ?_⟩
      show _ ↔ (_ → _)
      rw [detach_port, if_neg hclosed] at hcount hlength ⊢
      obtain ⟨hless, hlt⟩ := count_modify_off hold (f := fun port =>
        { port with enabled := false }) rfl
      have hlen := hcounted.length
      unfold Control.modify
      dsimp only
      constructor
      · -- with no port in use the number wraps
        intro hle _ hzero
        rw [hzero] at hle
        omega
      · intro hpos
        have hpos := hpos hclosed'
        omega
  | create_bonded_device k =>
    obtain ⟨hfree, heq⟩ := Option.ite_none_right_eq_some.mp h
    obtain rfl := Option.some.inj heq
    obtain ⟨old, hold, hen⟩ := (Option.any_eq_true _ _).mp hfree
    rw [port_command]
    show _ ∧ (_ ↔ True)
    rw [iff_true]
    split
    · next hdone =>
      exact setup_kept hcounted hdoc hlength (by rw [cmd_create_bonded_device, if_pos hdone])
    · next hdone =>
      rw [cmd_create_bonded_device, if_neg hdone] at hcount hlength ⊢
      have hmore := count_modify hold (by simpa using hen) (f := fun port =>
        { port with enabled := true, need_reconfig := true, need_reconfig_queues := true }) rfl
      unfold Control.modify at hcount hlength ⊢
      dsimp only at hcount hlength ⊢
      have hmod := Nat.mod_eq_of_lt (Nat.lt_of_le_of_lt hcount hlength)
      refine ⟨⟨hcounted.nb_lcores, hmod, hlength⟩, hdoc.lcores, hfwd, ?_, ?_⟩
      · show s.fwd.nb_cfg_ports ≤ _ % 256
        rw [hmod]
        omega
      · refine hdoc.ports.selects.congr fun v hv => ?_
        show in_use (s.control.ports.modify k _) v = true
        rw [in_use_modify hold]
        split
        · rfl
        · exact hv
  | start_port pid streams calls | stop_port pid | close_port pid | add_bonding_slave k
  | remove_bonding_slave k | reconfig_device_queue id dev queue | start dcb | stop =>
    have hin := in_use_step h fun k => ⟨by simp, by simp, by simp⟩
    obtain ⟨hcounted', hdoc'⟩ := setup_kept hcounted hdoc hlength hin
    exact ⟨hcounted', iff_of_true hdoc' trivial⟩

/-- One step keeps what the source says, exactly if it is allowed. -/
theorem setup_step (heal : eal.Documented) (hcounted : s.Counted eal) (hdoc : s.Documented eal)
    {a : SetupAct} (h : s.step eal STR_TOKEN_SIZE a = some s') :
    s'.Counted eal ∧ (s'.Documented eal ↔ s.Allowed STR_TOKEN_SIZE a) := by
  cases a with
  | arg a =>
    unfold Setup.step at h
    dsimp only at h
    split at h
    · cases h
    · obtain ⟨fwd, hfwd, rfl⟩ := Option.map_eq_some_iff.mp h
      exact arg_step heal hcounted hdoc hfwd
  | set c =>
    obtain rfl := Option.some.inj h
    exact set_step heal hcounted hdoc c
  | command c =>
    obtain ⟨control, hcontrol, rfl⟩ := Option.map_eq_some_iff.mp h
    exact command_step hcounted hdoc hcontrol

/-- At the launch. -/
theorem Setup.Init.documented (heal : eal.Documented) (hs : s.Init eal)
    (hlength : s.control.ports.length < 256) : s.Counted eal ∧ s.Documented eal := by
  have hle := count_le_length s.control.ports
  have hports : s.fwd.nb_ports = rte_eth_dev_count s.control.ports :=
    hs.nb_ports.trans (Nat.mod_eq_of_lt (by omega))
  have hlcores : s.fwd.nb_lcores = eal.lcores.length :=
    hs.nb_lcores.trans (Nat.mod_eq_of_lt (length_lcores_lt heal))
  have hpos := hs.lcores
  refine ⟨⟨hlcores, hports, hlength⟩, ⟨?_, hs.nb_cfg_lcores.le, ?_⟩, ⟨?_, hs.nb_cfg_ports.le, ?_⟩⟩
  · rw [hs.nb_fwd_lcores, hs.nb_cfg_lcores]
    exact hpos
  · rw [hs.fwd_lcores_cpuids, hs.nb_cfg_lcores, hlcores]
    refine selects_record_iff.mpr ⟨fun v hv => (List.mem_filter.mp hv).2, ?_⟩
    exact List.nodup_range.filter _
  · rw [hs.nb_fwd_ports, hs.nb_cfg_ports]
  · rw [hs.fwd_ports_ids, ← hs.enabled, hs.nb_cfg_ports, hports, ← length_foreach_port 0]
    refine selects_record_iff.mpr ⟨fun v hv => ?_, nodup_foreach_port 0 _⟩
    exact (mem_foreach_port.mp hv).2

/-- **What the source says of the test forwarding configuration holds all along a run**, and the
    ports and cores that are selected are different ones that can be used, exactly if no
    argument takes more than a mask before it has selected, no list of ports that is not refused
    has one twice modulo 256 or the number of all ports, and no port is detached while
    none is in use. -/
theorem testpmd_setup_documented_iff (heal : eal.Documented) {s₀ : Setup} {acts : List SetupAct}
    (h₀ : s₀.Init eal) (hlength : s₀.control.ports.length < 256)
    (hrun : (testpmd_setup eal STR_TOKEN_SIZE).run s₀ acts = some s) :
    (∀ front, front <+: acts → ∀ t, (testpmd_setup eal STR_TOKEN_SIZE).run s₀ front = some t →
      t.Documented eal) ↔
    ∀ front a, front ++ [a] <+: acts → ∀ t,
      (testpmd_setup eal STR_TOKEN_SIZE).run s₀ front = some t → t.Allowed STR_TOKEN_SIZE a := by
  have hkeeps : ∀ s a s', s.Counted eal ∧ s.Documented eal → s.Allowed STR_TOKEN_SIZE a →
      (testpmd_setup eal STR_TOKEN_SIZE).step s a = some s' →
      s'.Counted eal ∧ s'.Documented eal := by
    intro s a s' ⟨hcounted, hdoc⟩ hallowed hstep
    obtain ⟨hcounted', hiff⟩ := setup_step heal hcounted hdoc hstep
    exact ⟨hcounted', hiff.mpr hallowed⟩
  have hbreaks : ∀ s a s', s.Counted eal ∧ s.Documented eal → ¬s.Allowed STR_TOKEN_SIZE a →
      (testpmd_setup eal STR_TOKEN_SIZE).step s a = some s' → ¬s'.Documented eal := by
    intro s a s' ⟨hcounted, hdoc⟩ hbad hstep hdoc'
    exact hbad ((setup_step heal hcounted hdoc hstep).2.mp hdoc')
  exact run_safe_iff_at hkeeps (fun _ h => h.2) hbreaks (h₀.documented heal hlength) hrun

/-- Two cores beside the master. -/
def two_cores : Eal := ⟨128, fun i => i < 3, 0⟩

/-- One port, and an entry that is not in use. -/
def one_port : Setup where
  control := ⟨[⟨true, .stopped, true, true, false⟩, ⟨false, .stopped, false, false, false⟩], true⟩
  fwd :=
    { nb_lcores := 2
      nb_cfg_lcores := 2
      nb_fwd_lcores := 1
      fwd_lcores_cpuids := record two_cores.lcores fun _ => 0
      nb_ports := 1
      nb_cfg_ports := 1
      nb_fwd_ports := 1
      fwd_ports_ids := record (List.range 1) fun _ => 0 }
  launched := false

/-- `set portlist 0,256` selects the one port twice. -/
theorem testpmd_setup_documented_iff_twice : ∃ s,
    (testpmd_setup two_cores 128).run one_port
        [.set (.portlist ['0', ',', '2', '5', '6'])] = some s ∧
      ¬s.Documented two_cores := by
  have heal : two_cores.Documented := by
    refine ⟨fun i hi => ?_, by decide⟩
    have hi : i < 3 := of_decide_eq_true hi
    exact hi.trans (by decide)
  have h₀ : one_port.Init two_cores := by
    refine ⟨⟨rfl, by decide⟩, rfl, ?_, rfl, rfl, rfl, rfl, rfl, rfl, rfl, by decide, rfl⟩
    decide +kernel
  obtain ⟨s, hrun⟩ : ∃ s, (testpmd_setup two_cores 128).run one_port
      [.set (.portlist ['0', ',', '2', '5', '6'])] = some s := ⟨_, rfl⟩
  refine ⟨s, hrun, fun hdoc => ?_⟩
  have hall : ∀ front, front <+: [SetupAct.set (.portlist ['0', ',', '2', '5', '6'])] → ∀ t,
      (testpmd_setup two_cores 128).run one_port front = some t → t.Documented two_cores := by
    intro front hpre t ht
    rcases List.prefix_cons_iff.mp hpre with rfl | ⟨rest, rfl, hrest⟩
    · obtain rfl := Option.some.inj ht
      exact (h₀.documented heal (by decide)).2
    · obtain rfl := List.prefix_nil.mp hrest
      obtain rfl := Option.some.inj (hrun.symm.trans ht)
      exact hdoc
  have hallowed := (testpmd_setup_documented_iff heal h₀ (by decide) hrun).mp hall
  have hparse : parse_portlist 128 one_port.control.ports ['0', ',', '2', '5', '6'] =
      some [0, 256] := by decide
  have hok := hallowed [] _ (List.prefix_refl _) one_port rfl rfl [0, 256] hparse (by decide)
  exact absurd hok.1 (by decide)

end runs

end TestPmd
