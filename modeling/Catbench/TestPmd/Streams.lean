import Mathlib.Data.List.Nodup
import Mathlib.Data.List.Pairwise
import Mathlib.Data.List.Range
import Mathlib.Data.Nat.ModEq
import Mathlib.Logic.Function.Basic
import Mathlib.Tactic.Common

/-! # The streams of `testpmd` and the cores that poll them

    A stream takes packets from a queue of one port and sends them to a queue of
    another.  Before forwarding starts, `fwd_config_setup` computes the streams
    from the ports and their topology, and deals them out to the cores.  DPDK
    does not lock its queues, so no two cores may use the same one.

    * Every stream is polled by exactly one core, and the cores have equally many
      streams, up to one.
    * No queue is used by two cores, in each mode, unless the ports are paired and
      their number is odd: the last port then sends to the first, which is paired
      already.
-/

namespace TestPmd

/-! ## Section 1: Model -/

/-- The streams of a core are consecutive. -/
structure fwd_lcore where
  stream_idx : ℕ
  stream_nb : ℕ
  deriving DecidableEq, Repr

/-- The fields that the configuration sets. -/
structure fwd_stream where
  rx_port : ℕ
  rx_queue : ℕ
  tx_port : ℕ
  tx_queue : ℕ
  peer_addr : ℕ
  deriving DecidableEq, Repr

inductive PortTopology where
  | paired
  | chained
  | loop
  deriving DecidableEq, Repr

/-- The global variables that are read. -/
structure Params where
  port_topology : PortTopology
  numa_support : Bool
  /-- Whether the mode is `icmpecho`. -/
  icmpecho : Bool
  nb_ports : ℕ
  nb_fwd_ports : ℕ
  nb_fwd_lcores : ℕ
  nb_rxq : ℕ
  nb_txq : ℕ
  /-- The entries from `nb_fwd_ports` on are left from before. -/
  fwd_ports_ids : ℕ → ℕ

structure fwd_config where
  nb_fwd_lcores : ℕ
  nb_fwd_ports : ℕ
  nb_fwd_streams : ℕ
  fwd_lcores : List fwd_lcore
  fwd_streams : ℕ → fwd_stream

/-- The number of the TX port for that of the RX port. -/
def Params.txp (p : Params) (rxp : ℕ) : ℕ :=
  if p.port_topology = .loop then rxp
  else if rxp % 2 = 0 then rxp + 1
  else rxp - 1

/-- The streams that a core polls, in turn. -/
def fwd_lcore.polls (fc : fwd_lcore) : List ℕ := List.range' fc.stream_idx fc.stream_nb

section simple

variable {p : Params}

end simple

section queues

variable {p : Params}

end queues

/-! ## Section 4: Configurations -/

section config

variable {p : Params} (streams : ℕ → fwd_stream)

end config

/-- No two cores use the same queue of a port, in either direction. -/
def fwd_config.Separate (cfg : fwd_config) : Prop :=
  ∀ fc ∈ cfg.fwd_lcores, ∀ fd ∈ cfg.fwd_lcores, fc ≠ fd → ∀ a ∈ fc.polls, ∀ b ∈ fd.polls,
    ¬((cfg.fwd_streams a).rx_port = (cfg.fwd_streams b).rx_port ∧
        (cfg.fwd_streams a).rx_queue = (cfg.fwd_streams b).rx_queue) ∧
    ¬((cfg.fwd_streams a).tx_port = (cfg.fwd_streams b).tx_port ∧
        (cfg.fwd_streams a).tx_queue = (cfg.fwd_streams b).tx_queue)

/-- The forwarding ports are different ones. -/
def Params.Distinct (p : Params) : Prop :=
  ∀ i < p.nb_fwd_ports, ∀ j < p.nb_fwd_ports, p.fwd_ports_ids i = p.fwd_ports_ids j → i = j

section separate

variable {p : Params} {cfg : fwd_config} {nb_fs nb_fc : ℕ} {streams : ℕ → fwd_stream}

/-- An odd number of ports is paired, and two cores poll the second port and the last. -/
def fwd_config.Odd (p : Params) (cfg : fwd_config) : Prop :=
  p.port_topology = .paired ∧ p.nb_fwd_ports % 2 = 1 ∧ 1 < p.nb_fwd_ports ∧
    ∀ fc ∈ cfg.fwd_lcores, ¬(1 ∈ fc.polls ∧ p.nb_fwd_ports - 1 ∈ fc.polls)

end separate

end TestPmd
