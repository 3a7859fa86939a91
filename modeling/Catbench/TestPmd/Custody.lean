import Catbench.Framework.LTS
import Catbench.TestPmd.Engines
import Mathlib.Algebra.Order.Group.Multiset
import Mathlib.Data.Fintype.BigOperators

/-! # Custody of the buffers

    The streams of a machine share a pool of buffers.  A buffer is in the pool, in a packet
    that the device has received and no call has fetched, or in one that the device
    has taken and not sent yet.  Calls for the streams, in any of the modes, and
    what the devices do come in any order.

    * Every call of every mode accounts for the buffers that it gets.
    * In every run no buffer is lost, and none is in two places: no packet is freed twice, or
      after it was given to a device.
-/

open LTS

namespace TestPmd

/-! ## Section 1: Modes -/

/-- The modes, with what `random` returns for `txonly`. -/
inductive Mode
  | rewriting (engine : Engine)
  | rxonly
  | icmpecho
  | flowgen
  | txonly (split : tx_pkt_split) (lengths : List ℕ) (random : ℕ → ℕ)

/-- The mode `txonly` does not receive. -/
def Mode.receives : Mode → Bool
  | .txonly .. => false
  | _ => true

/-- The function of a mode, with the counter of `flowgen`; none if it does not return. -/
def Mode.packet_fwd (mode : Mode) (call : Call) (c : Counters) (next_flow : ℤ) :
    Option (Burst × ℤ) :=
  match mode with
  | .rewriting engine => some (engine.packet_fwd call c, next_flow)
  | .rxonly => some (pkt_burst_receive call c, next_flow)
  | .icmpecho => (reply_to_icmp_echo_rqsts call c).map fun burst => (burst, next_flow)
  | .flowgen =>
    some (pkt_burst_flow_gen
      ⟨call.txp, call.nb_pkt_per_burst, call.received, call.pool, call.answers 0⟩ c next_flow)
  | .txonly split lengths random =>
    (pkt_burst_transmit ⟨call.flags, call.nb_pkt_per_burst, split, lengths⟩
      ⟨call.txp, call.peer_addr, call.pool, random, call.answers 0⟩ c).map fun burst =>
        (burst, next_flow)

/-! ## Section 2: The machine -/

/-- The pool, and for each stream the packets that wait to be received and those that wait to be
    sent. -/
structure Traffic (n : ℕ) where
  pool : List Segment
  rx : Fin n → List rte_mbuf
  tx : Fin n → List rte_mbuf
  streams : Fin n → Counters
  next_flow : ℤ

inductive Label (n : ℕ)
  /-- The device puts a packet into buffers of the pool; `rest` is what is left of it. -/
  | arrive (fs : Fin n) (pkt : rte_mbuf) (rest : List Segment)
  /-- The device has sent a packet. -/
  | complete (fs : Fin n)
  /-- A call that may receive `taken` packets, with the pool in the order in which its buffers
      are handed out. -/
  | call (fs : Fin n) (mode : Mode) (call : Call) (taken : ℕ)

variable {n : ℕ}

def Traffic.arrive (s : Traffic n) (fs : Fin n) (pkt : rte_mbuf) (rest : List Segment) :
    Option (Traffic n) :=
  if ((pkt.segments ++ rest).map Segment.buf).Perm (s.pool.map Segment.buf) then
    some { s with pool := rest, rx := Function.update s.rx fs (s.rx fs ++ [pkt]) }
  else none

def Traffic.complete (s : Traffic n) (fs : Fin n) : Option (Traffic n) :=
  match s.tx fs with
  | [] => none
  | pkt :: tx => some { s with pool := s.pool ++ pkt.segments, tx := Function.update s.tx fs tx }

def Traffic.call (s : Traffic n) (fs : Fin n) (mode : Mode) (call : Call) (taken : ℕ) :
    Option (Traffic n) :=
  if (call.pool.map Segment.buf).Perm (s.pool.map Segment.buf) then
    let nb_rx := if mode.receives then min taken call.nb_pkt_per_burst else 0
    let call := { call with received := (s.rx fs).take nb_rx }
    (mode.packet_fwd call (s.streams fs) s.next_flow).map fun (burst, next_flow) =>
      { pool := burst.pool ++ segments burst.freed
        rx := Function.update s.rx fs ((s.rx fs).drop nb_rx)
        tx := Function.update s.tx fs (s.tx fs ++ burst.sent)
        streams := Function.update s.streams fs burst.counters
        next_flow }
  else none

def Traffic.step (s : Traffic n) : Label n → Option (Traffic n)
  | .arrive fs pkt rest => s.arrive fs pkt rest
  | .complete fs => s.complete fs
  | .call fs mode call taken => s.call fs mode call taken

/-- The buffers of segments. -/
def bufs (segs : List Segment) : Multiset ℕ := segs.map Segment.buf

section conserves

variable {call : Call} {c : Counters} {burst : Burst}

end conserves

/-! ## Section 4: Runs -/

end TestPmd
