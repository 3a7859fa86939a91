import Catbench.TestPmd.FlowGen
import Catbench.TestPmd.IcmpEcho
import Catbench.TestPmd.TxOnly
import Mathlib.Algebra.BigOperators.Group.Finset.Basic

/-! # The forwarding engines

    Most of the engines receive a burst, change the headers of the packets or not, and
    offer them to the device; one offers the packets again that were not taken.

    * With retries the device is offered what it has not taken, and nothing else: how many
      packets are sent is a matter of the rooms it has at each of the calls.
    * Swapping the addresses a second time gives the packet back.
    * Over all calls for a stream the packets leave in the order in which they came, none of
      them twice, and the counters add up.
-/

open Machine

namespace TestPmd

/-! ## Section 1: Engines -/

/-- What a call meets: the configuration of its stream, the burst that was received, the
    buffers that the pool can hand out, and the rooms that the device has, in the order in which
    it is asked. -/
structure Call where
  flags : TxFlags
  txp : TxPort
  peer_addr : ether_addr
  nb_pkt_per_burst : ℕ
  received : List rte_mbuf
  pool : List Segment
  answers : ℕ → ℕ

/-- Nothing was received. -/
def Call.idle (call : Call) (c : Counters) : Burst where
  counters := c
  sent := []
  freed := []
  pool := call.pool

def Counters.receive (c : Counters) (nb_rx : ℕ) : Counters :=
  { c with rx_packets := count c.rx_packets nb_rx }

/-- Engines that change the packets one by one. -/
def forward (rewrite : rte_mbuf → rte_mbuf) (call : Call) (c : Counters) : Burst :=
  if call.received = [] then call.idle c
  else
    finish (c.receive call.received.length) call.pool (call.received.map rewrite)
      (tx_burst (call.answers 0) call.received.length)

def pkt_burst_io_forward : Call → Counters → Burst := forward id

/-- The fields that describe the packet to the device. -/
def Call.describe (call : Call) (mb : rte_mbuf) : rte_mbuf :=
  { mb with
    ol_flags := call.txp.ol_flags call.flags
    l2_len := 14
    l3_len := 20
    vlan_tci := call.txp.tx_vlan_id
    vlan_tci_outer := call.txp.tx_vlan_id_outer }

/-- The addresses of the peer and of the port. -/
def Call.address (call : Call) (mb : rte_mbuf) : rte_mbuf :=
  mb.edit fun seg => (seg.store_addr 0 call.peer_addr).store_addr 6 call.txp.eth_addr

def pkt_burst_mac_forward (call : Call) : Counters → Burst :=
  forward (fun mb => call.describe (call.address mb)) call

def swap_macs (seg : Segment) : Segment :=
  let addr := seg.addr 0
  let seg := seg.store_addr 0 (seg.addr 6)
  seg.store_addr 6 addr

def pkt_burst_mac_swap (call : Call) : Counters → Burst :=
  forward (fun mb => call.describe (mb.edit swap_macs)) call

/-- The loop that offers the rest again, with what has been sent so far and the number of
    calls before. -/
def retry_loop (answers : ℕ → ℕ) (pkts_burst : List rte_mbuf) :
    ℕ → ℕ → ℕ → List rte_mbuf → ℕ × List rte_mbuf
  | 0, _, nb_tx, sent => (nb_tx, sent)
  | retries + 1, calls, nb_tx, sent =>
    let taken := tx_burst (answers calls) (pkts_burst.length - nb_tx)
    let sent := sent ++ (pkts_burst.drop nb_tx).take taken
    let nb_tx := nb_tx + taken
    if nb_tx = pkts_burst.length then (nb_tx, sent)
    else retry_loop answers pkts_burst retries (calls + 1) nb_tx sent

/-- The packets that are taken of a burst, with `burst_tx_retry_num` retries. -/
def retry_tx (answers : ℕ → ℕ) (burst_tx_retry_num : ℕ) (pkts_burst : List rte_mbuf) :
    ℕ × List rte_mbuf :=
  let nb_tx := tx_burst (answers 0) pkts_burst.length
  if nb_tx < pkts_burst.length then
    retry_loop answers pkts_burst burst_tx_retry_num 1 nb_tx (pkts_burst.take nb_tx)
  else (nb_tx, pkts_burst.take nb_tx)

def pkt_burst_mac_retry_forward (burst_tx_retry_num : ℕ) (call : Call) (c : Counters) : Burst :=
  if call.received = [] then call.idle c
  else
    let pkts_burst := call.received.map call.address
    let (nb_tx, sent) := retry_tx call.answers burst_tx_retry_num pkts_burst
    { finish (c.receive call.received.length) call.pool pkts_burst nb_tx with sent }

/-- Without the dump of the packets. -/
def pkt_burst_receive (call : Call) (c : Counters) : Burst :=
  if call.received = [] then call.idle c
  else
    { counters := c.receive call.received.length
      sent := []
      freed := call.received
      pool := call.pool }

/-- None if the loop over the burst does not end. -/
def reply_to_icmp_echo_rqsts (call : Call) (c : Counters) : Option Burst :=
  match call.received with
  | [] => some (call.idle c)
  | first :: rest => do
    let nb_rx := (first :: rest).length
    let t ← echo_loop call.txp.eth_addr nb_rx (nb_rx + 1)
      ⟨0, 0, fun i => (first :: rest).getD i first, []⟩
    let c := c.receive nb_rx
    if 0 < t.nb_replies then
      let burst := finish c call.pool ((List.range t.nb_replies).map t.pkts_burst)
        (tx_burst (call.answers 0) t.nb_replies)
      some { burst with freed := t.freed ++ burst.freed }
    else some { counters := c, sent := [], freed := t.freed, pool := call.pool }

/-! ## Section 2: Retries -/

section retry

variable {answers : ℕ → ℕ} {pkts_burst : List rte_mbuf}

/-- The packets that have been taken are those at the front. -/
theorem retry_loop_spec {retries calls nb_tx : ℕ} (hlt : nb_tx < pkts_burst.length) :
    retry_loop answers pkts_burst retries calls nb_tx (pkts_burst.take nb_tx) =
      (min pkts_burst.length (nb_tx + ∑ k ∈ Finset.range retries, answers (calls + k)),
       pkts_burst.take
        (min pkts_burst.length (nb_tx + ∑ k ∈ Finset.range retries, answers (calls + k)))) := by
  induction retries generalizing calls nb_tx with
  | zero =>
    rw [Finset.sum_range_zero, Nat.add_zero, Nat.min_eq_right (Nat.le_of_lt hlt)]
    rfl
  | succ retries ih =>
    have hsum : ∑ k ∈ Finset.range (retries + 1), answers (calls + k) =
        answers calls + ∑ k ∈ Finset.range retries, answers (calls + 1 + k) := by
      rw [Finset.sum_range_succ', Nat.add_comm]
      congr 1
      apply Finset.sum_congr rfl
      intro k _
      rw [Nat.add_assoc, Nat.add_comm 1]
    have htake : pkts_burst.take nb_tx ++ (pkts_burst.drop nb_tx).take
        (tx_burst (answers calls) (pkts_burst.length - nb_tx)) =
        pkts_burst.take (nb_tx + tx_burst (answers calls) (pkts_burst.length - nb_tx)) := by
      rw [List.take_add]
    unfold retry_loop
    dsimp only
    rw [htake, hsum]
    generalize hrest : ∑ k ∈ Finset.range retries, answers (calls + 1 + k) = rest
    unfold tx_burst
    split
    · next hall =>
      have hmin : min pkts_burst.length (nb_tx + (answers calls + rest)) =
          nb_tx + min (answers calls) (pkts_burst.length - nb_tx) := by omega
      rw [hmin]
    · next hmore =>
      -- all that the device had room for was taken
      have hroom : min (answers calls) (pkts_burst.length - nb_tx) = answers calls := by omega
      rw [hroom] at hmore ⊢
      rw [ih (by omega), hrest, Nat.add_assoc]

theorem retry_tx_eq (answers : ℕ → ℕ) (burst_tx_retry_num : ℕ) (pkts_burst : List rte_mbuf) :
    retry_tx answers burst_tx_retry_num pkts_burst =
      (min pkts_burst.length (∑ k ∈ Finset.range (burst_tx_retry_num + 1), answers k),
       pkts_burst.take
        (min pkts_burst.length (∑ k ∈ Finset.range (burst_tx_retry_num + 1), answers k))) := by
  have hsum : ∑ k ∈ Finset.range (burst_tx_retry_num + 1), answers k =
      answers 0 + ∑ k ∈ Finset.range burst_tx_retry_num, answers (1 + k) := by
    rw [Finset.sum_range_succ', Nat.add_comm]
    simp only [Nat.add_comm 1]
  unfold retry_tx
  dsimp only
  rw [hsum]
  split
  · next hlt =>
    have hroom : tx_burst (answers 0) pkts_burst.length = answers 0 := by
      unfold tx_burst at hlt ⊢
      omega
    rw [retry_loop_spec hlt, hroom]
  · next hall =>
    have hfull : tx_burst (answers 0) pkts_burst.length = pkts_burst.length := by
      unfold tx_burst at hall ⊢
      omega
    have hmin : min pkts_burst.length
        (answers 0 + ∑ k ∈ Finset.range burst_tx_retry_num, answers (1 + k)) =
        pkts_burst.length := by
      unfold tx_burst at hfull
      omega
    rw [hfull, hmin]

/-- All in all a burst is offered once. -/
theorem pkt_burst_mac_retry_forward_eq (burst_tx_retry_num : ℕ) (call : Call) (c : Counters) :
    pkt_burst_mac_retry_forward burst_tx_retry_num call c =
      if call.received = [] then call.idle c
      else
        finish (c.receive call.received.length) call.pool (call.received.map call.address)
          (min (call.received.map call.address).length
            (∑ k ∈ Finset.range (burst_tx_retry_num + 1), call.answers k)) := by
  unfold pkt_burst_mac_retry_forward
  dsimp only
  rw [retry_tx_eq]
  rfl

end retry

/-! ## Section 3: What the engines do with a burst -/

/-- The engines that offer every packet that was received to the device. -/
inductive Engine
  | io
  | mac
  | macswap
  | mac_retry (burst_tx_retry_num : ℕ)
  deriving DecidableEq, Repr

/-- What is made of a packet. -/
def Engine.rewrite : Engine → Call → rte_mbuf → rte_mbuf
  | .io, _ => id
  | .mac, call => fun mb => call.describe (call.address mb)
  | .macswap, call => fun mb => call.describe (mb.edit swap_macs)
  | .mac_retry _, call => call.address

def Engine.packet_fwd : Engine → Call → Counters → Burst
  | .io => pkt_burst_io_forward
  | .mac => pkt_burst_mac_forward
  | .macswap => pkt_burst_mac_swap
  | .mac_retry burst_tx_retry_num => pkt_burst_mac_retry_forward burst_tx_retry_num

/-- What becomes of the packets `pkts` of a call: some at the front are sent, the others are
    freed and counted. -/
structure Forwarded (call : Call) (pkts : List rte_mbuf) (c : Counters) (burst : Burst) : Prop where
  all : burst.sent ++ burst.freed = pkts
  pool : burst.pool = call.pool
  rx : burst.counters.rx_packets ≡ c.rx_packets + pkts.length [MOD 2 ^ 32]
  tx : burst.counters.tx_packets ≡ c.tx_packets + burst.sent.length [MOD 2 ^ 32]
  dropped : burst.counters.fwd_dropped ≡ c.fwd_dropped + burst.freed.length [MOD 2 ^ 32]

section forwarded

variable {call : Call} {c : Counters}

theorem forwarded_idle (c : Counters) (h : call.received = []) (rewrite : rte_mbuf → rte_mbuf) :
    Forwarded call (call.received.map rewrite) c (call.idle c) := by
  rw [h]
  exact ⟨rfl, rfl, Nat.ModEq.refl _, Nat.ModEq.refl _, Nat.ModEq.refl _⟩

theorem forwarded_finish (call : Call) (c : Counters) (pkts : List rte_mbuf) {nb_tx : ℕ}
    (hle : nb_tx ≤ pkts.length) :
    Forwarded call pkts c (finish (c.receive pkts.length) call.pool pkts nb_tx) := by
  have hsent : (pkts.take nb_tx).length = nb_tx := by rw [List.length_take, Nat.min_eq_left hle]
  refine ⟨List.take_append_drop nb_tx pkts, rfl, count_modEq _ _, ?_, ?_⟩
  · show count c.tx_packets nb_tx ≡ c.tx_packets + (pkts.take nb_tx).length [MOD 2 ^ 32]
    rw [hsent]
    exact count_modEq _ _
  · exact dropped_modEq c.fwd_dropped pkts nb_tx

theorem forwarded_forward (rewrite : rte_mbuf → rte_mbuf) (c : Counters) :
    Forwarded call (call.received.map rewrite) c (forward rewrite call c) := by
  unfold forward
  split
  · next hidle => exact forwarded_idle c hidle rewrite
  · have hlen : (call.received.map rewrite).length = call.received.length := List.length_map _
    rw [← hlen]
    exact forwarded_finish call c _ (Nat.min_le_right _ _)

/-- Each of the engines. -/
theorem forwarded_packet_fwd (engine : Engine) (call : Call) (c : Counters) :
    Forwarded call (call.received.map (engine.rewrite call)) c (engine.packet_fwd call c) := by
  cases engine with
  | io => exact forwarded_forward id c
  | mac => exact forwarded_forward _ c
  | macswap => exact forwarded_forward _ c
  | mac_retry burst_tx_retry_num =>
    show Forwarded call (call.received.map call.address) c
      (pkt_burst_mac_retry_forward burst_tx_retry_num call c)
    rw [pkt_burst_mac_retry_forward_eq]
    split
    · next hidle => exact forwarded_idle c hidle call.address
    · have hforwarded := forwarded_finish call c (call.received.map call.address)
        (Nat.min_le_left (call.received.map call.address).length
          (∑ k ∈ Finset.range (burst_tx_retry_num + 1), call.answers k))
      rwa [List.length_map] at hforwarded ⊢

end forwarded

/-- **With retries a burst is sent as far as the rooms at all the calls go, from its front on**,
    and the rest is freed: the device is not offered a packet twice, and none is left out. -/
theorem mac_retry_sends (burst_tx_retry_num : ℕ) (call : Call) (c : Counters) :
    let room := ∑ k ∈ Finset.range (burst_tx_retry_num + 1), call.answers k
    let burst := pkt_burst_mac_retry_forward burst_tx_retry_num call c
    burst.sent = (call.received.map call.address).take room ∧
      burst.freed = (call.received.map call.address).drop room := by
  dsimp only
  generalize hroom : ∑ k ∈ Finset.range (burst_tx_retry_num + 1), call.answers k = room
  rw [pkt_burst_mac_retry_forward_eq, hroom]
  split
  · next hidle =>
    rw [hidle, List.map_nil, List.take_nil, List.drop_nil]
    exact ⟨rfl, rfl⟩
  · generalize call.received.map call.address = pkts
    show pkts.take (min pkts.length room) = _ ∧ pkts.drop (min pkts.length room) = _
    rcases Nat.le_total room pkts.length with hle | hle
    · rw [Nat.min_eq_right hle]
      exact ⟨rfl, rfl⟩
    · rw [Nat.min_eq_left hle, List.take_length, List.drop_length, List.take_of_length_le hle,
        List.drop_eq_nil_of_le hle]
      exact ⟨rfl, rfl⟩

theorem addr_swap_macs (seg : Segment) :
    (swap_macs seg).addr 0 = seg.addr 6 ∧ (swap_macs seg).addr 6 = seg.addr 0 := by
  unfold swap_macs
  constructor
  · rw [Segment.addr_store_addr_of_disjoint (by omega), Segment.addr_store_addr]
  · exact Segment.addr_store_addr

/-- Swapped twice, the bytes are as before. -/
theorem swap_macs_twice (seg : Segment) : swap_macs (swap_macs seg) = seg := by
  obtain ⟨hdst, hsrc⟩ := addr_swap_macs (swap_macs seg)
  obtain ⟨hdst', hsrc'⟩ := addr_swap_macs seg
  have hrest : ∀ (seg : Segment) (i : ℕ), 12 ≤ i → (swap_macs seg).data i = seg.data i := by
    intro seg i hi
    unfold swap_macs Segment.store_addr
    rw [Segment.store_data_of_not_mem (Or.inr (by rw [List.length_ofFn]; exact hi)),
      Segment.store_data_of_not_mem (Or.inr (by rw [List.length_ofFn]; omega))]
  have hdata : (swap_macs (swap_macs seg)).data = seg.data := by
    funext i
    rcases Nat.lt_or_ge i 6 with hi | hi
    · have hbyte := congrFun (hdst.trans hsrc') ⟨i, hi⟩
      simpa [Segment.addr] using hbyte
    · rcases Nat.lt_or_ge i 12 with hi12 | hi12
      · have hbyte := congrFun (hsrc.trans hdst') ⟨i - 6, by omega⟩
        simpa [Segment.addr, Nat.add_sub_cancel' hi] using hbyte
      · rw [hrest _ i hi12, hrest _ i hi12]
  exact congrArg (fun data => { seg with data }) hdata

/-! ## Section 4: A stream -/

/-- The counters of a stream, with the packets that its calls have sent and freed so far. -/
structure StreamLog where
  counters : Counters
  sent : List rte_mbuf
  freed : List rte_mbuf

def StreamLog.call (s : StreamLog) (engine : Engine) (call : Call) : StreamLog :=
  let burst := engine.packet_fwd call s.counters
  { counters := burst.counters
    sent := s.sent ++ burst.sent
    freed := s.freed ++ burst.freed }

def StreamLog.run (s : StreamLog) (calls : List (Engine × Call)) : StreamLog :=
  calls.foldl (fun s call => s.call call.1 call.2) s

/-- The packets that the calls receive, rewritten. -/
def rewritten (calls : List (Engine × Call)) : List rte_mbuf :=
  calls.flatMap fun call => call.2.received.map (call.1.rewrite call.2)

/-- **The packets of a stream leave in the order in which they came**, each at most once and
    rewritten by the engine of its call; those that do not leave are freed.  The counters are the
    numbers of packets, modulo `2 ^ 32`. -/
theorem stream_forwards (c : Counters) (calls : List (Engine × Call)) :
    let s := StreamLog.run ⟨c, [], []⟩ calls
    s.sent.Sublist (rewritten calls) ∧ (s.sent ++ s.freed).Perm (rewritten calls) ∧
      s.counters.rx_packets ≡ c.rx_packets + (rewritten calls).length [MOD 2 ^ 32] ∧
      s.counters.tx_packets ≡ c.tx_packets + s.sent.length [MOD 2 ^ 32] ∧
      s.counters.fwd_dropped ≡ c.fwd_dropped + s.freed.length [MOD 2 ^ 32] := by
  induction calls using List.reverseRecOn with
  | nil =>
    exact ⟨List.Sublist.refl _, List.Perm.refl _, Nat.ModEq.refl _, Nat.ModEq.refl _,
      Nat.ModEq.refl _⟩
  | append_singleton calls call ih =>
    obtain ⟨hsub, hperm, hrx, htx, hdropped⟩ := ih
    have hrun : StreamLog.run ⟨c, [], []⟩ (calls ++ [call]) =
        (StreamLog.run ⟨c, [], []⟩ calls).call call.1 call.2 := List.foldl_concat _ _ _ _
    have hrew : rewritten (calls ++ [call]) =
        rewritten calls ++ call.2.received.map (call.1.rewrite call.2) := by
      unfold rewritten
      rw [List.flatMap_append, List.flatMap_singleton]
    dsimp only
    rw [hrun, hrew]
    generalize StreamLog.run ⟨c, [], []⟩ calls = s at hsub hperm hrx htx hdropped
    obtain ⟨hall, -, brx, btx, bdropped⟩ := forwarded_packet_fwd call.1 call.2 s.counters
    unfold StreamLog.call
    dsimp only
    generalize call.1.packet_fwd call.2 s.counters = burst at hall brx btx bdropped
    rw [← hall] at brx ⊢
    refine ⟨?_, ?_, ?_, ?_, ?_⟩
    · exact hsub.append (List.sublist_append_left _ _)
    · -- what was freed comes behind what is sent now
      refine List.Perm.trans ?_ (hperm.append_right _)
      rw [List.append_assoc, List.append_assoc]
      refine List.Perm.append_left _ ?_
      rw [← List.append_assoc, ← List.append_assoc]
      exact List.perm_append_comm.append_right _
    · rw [List.length_append, ← Nat.add_assoc]
      exact brx.trans (hrx.add_right _)
    · rw [List.length_append, ← Nat.add_assoc]
      exact btx.trans (htx.add_right _)
    · rw [List.length_append, ← Nat.add_assoc]
      exact bdropped.trans (hdropped.add_right _)

end TestPmd
