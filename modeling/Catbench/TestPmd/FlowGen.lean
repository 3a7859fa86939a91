import Catbench.TestPmd.Words
import Mathlib.Data.Fin.VecNotation

/-! # The forwarding mode `flowgen`

    What is received is freed, and a burst of packets is made that differ in the
    destination address.  The number of the next packet, which is taken modulo the
    number of flows, is kept from call to call and set back for the packets that the
    device does not take.

    * The checksum that is computed is right, for a header of any number of words.
    * In every run the packets that are sent go through the flows in turn.
-/

open Checksum Machine

namespace TestPmd

/-! ## Section 1: The checksum -/

/-- The sum of the words from `hdr` on, which is kept below `2 ^ 31`. -/
def ip_sum_loop (seg : Segment) : ℕ → ℕ → ℕ → ℕ
  | hdr_len + 2, hdr, sum =>
    let sum := Arith.u32.wrap (sum + seg.le16 hdr)
    ip_sum_loop seg hdr_len (hdr + 2) (if 0x80000000 ≤ sum then fold sum else sum)
  | _, _, sum => sum

def ip_sum (seg : Segment) (hdr hdr_len : ℕ) : ℕ :=
  complement (reduce (ip_sum_loop seg hdr_len hdr 0))

section checksum

variable {seg : Segment} {hdr : ℕ}

/-- One word more: the sum stays below `2 ^ 31`, and a residue. -/
theorem ip_sum_step {sum w : ℕ} (hsum : sum < 2 ^ 31) (hw : w < 65536) :
    let next := if 0x80000000 ≤ Arith.u32.wrap (sum + w) then fold (Arith.u32.wrap (sum + w))
      else Arith.u32.wrap (sum + w)
    next < 2 ^ 31 ∧ next ≡ sum + w [MOD 65535] ∧ (0 < next ↔ 0 < sum + w) := by
  have hwrap : Arith.u32.wrap (sum + w) = sum + w := Nat.mod_eq_of_lt (by omega)
  rw [hwrap]
  dsimp only
  split
  · refine ⟨?_, fold_modEq _, fold_pos⟩
    unfold fold
    omega
  · exact ⟨by omega, Nat.ModEq.refl _, Iff.rfl⟩

theorem wordSum_front {n : ℕ} :
    wordSum seg hdr (n + 1) = seg.le16 hdr + wordSum seg (hdr + 2) n := by
  induction n with
  | zero => simp [wordSum]
  | succ n ih =>
    rw [wordSum_succ, ih, wordSum_succ]
    have hoff : hdr + 2 * (n + 1) = hdr + 2 + 2 * n := by omega
    rw [hoff, Nat.add_assoc]

/-- The loop over `n` words. -/
theorem ip_sum_loop_spec (seg : Segment) (hdr n : ℕ) {sum : ℕ} (hsum : sum < 2 ^ 31) :
    ip_sum_loop seg (2 * n) hdr sum < 2 ^ 31 ∧
    ip_sum_loop seg (2 * n) hdr sum ≡ sum + wordSum seg hdr n [MOD 65535] ∧
    (0 < ip_sum_loop seg (2 * n) hdr sum ↔ 0 < sum + wordSum seg hdr n) := by
  induction n generalizing hdr sum with
  | zero => exact ⟨hsum, Nat.ModEq.refl _, Iff.rfl⟩
  | succ n ih =>
    obtain ⟨hlt, hmod, hpos⟩ := ip_sum_step hsum (seg.le16_lt hdr)
    obtain ⟨ihlt, ihmod, ihpos⟩ := ih (hdr + 2) hlt
    rw [wordSum_front, ← Nat.add_assoc]
    refine ⟨ihlt, ihmod.trans (hmod.add_right _), ?_⟩
    exact ihpos.trans (by omega)

theorem ip_sum_lt (seg : Segment) (hdr hdr_len : ℕ) : ip_sum seg hdr hdr_len < 65536 := by
  unfold ip_sum complement
  omega

/-- The checksum of `n` words is right where one of them, which was zero, is the
    checksum, however often the sum was folded on the way. -/
theorem ip_sum_checks (seg : Segment) (hdr : ℕ) {n k : ℕ} (hk : k < n)
    (hzero : seg.le16 (hdr + 2 * k) = 0) :
    MessageChecks (seg.store_le16 (hdr + 2 * k) (ip_sum seg hdr (2 * n))) hdr (2 * n) := by
  obtain ⟨-, hmod, hpos⟩ := ip_sum_loop_spec seg hdr n (Nat.two_pow_pos 31)
  obtain ⟨hrlt, hrmod, hrpos⟩ := reduce_spec (ip_sum_loop seg (2 * n) hdr 0)
  rw [Nat.zero_add] at hmod hpos
  rw [messageChecks_even, wordSum_store hk hzero (ip_sum_lt seg hdr (2 * n))]
  exact checks_add_complement hrlt (hrmod.trans hmod) (hrpos.trans hpos)

end checksum

/-! ## Section 2: The packets -/

def cfg_n_flows : ℕ := 1024
def cfg_pkt_size : ℕ := 300

def IPv4 (a b c d : ℕ) : ℕ := a * 2 ^ 24 + b * 2 ^ 16 + c * 2 ^ 8 + d

def cfg_ip_src : ℕ := IPv4 10 254 0 0
def cfg_ip_dst : ℕ := IPv4 10 253 0 0
def cfg_udp_src : ℕ := 1000
def cfg_udp_dst : ℕ := 1001
def cfg_ether_src : ether_addr := ![0x00, 0x01, 0x02, 0x03, 0x04, 0x00]
def cfg_ether_dst : ether_addr := ![0x00, 0x01, 0x02, 0x03, 0x04, 0x01]

def pkt_size : ℕ := cfg_pkt_size - 4

/-- The address of a flow, an `int` added to an `uint32_t`. -/
def flow_dst (next_flow : ℤ) : ℕ := Arith.u32.ofInt (cfg_ip_dst + next_flow)

/-- The Ethernet and IP headers in a buffer, up to the IP checksum. -/
def flow_headers (next_flow : ℤ) (seg : Segment) : Segment :=
  let seg := { seg with data_len := pkt_size }
  let seg := seg.store_addr 0 cfg_ether_dst
  let seg := seg.store_addr 6 cfg_ether_src
  let seg := seg.store_be16 12 0x0800
  let seg := seg.store 14 (List.replicate 20 0)
  let seg := seg.store 14 [0x45]
  let seg := seg.store 15 [0]
  let seg := seg.store_le16 20 0
  let seg := seg.store 22 [64]
  let seg := seg.store 23 [17]
  let seg := seg.store_le16 18 0
  let seg := seg.store_be32 26 cfg_ip_src
  let seg := seg.store_be32 30 (flow_dst next_flow)
  seg.store_be16 16 (pkt_size - 14)

/-- The UDP header, without a checksum. -/
def udp_header (seg : Segment) : Segment :=
  let seg := seg.store_be16 34 cfg_udp_src
  let seg := seg.store_be16 36 cfg_udp_dst
  let seg := seg.store_le16 40 0
  seg.store_be16 38 (pkt_size - 14 - 20)

/-- A packet in a buffer of the pool; `ol_flags` goes through a variable of 16 bits. -/
def flow_pkt (txp : TxPort) (next_flow : ℤ) (seg : Segment) : rte_mbuf :=
  let seg := flow_headers next_flow seg
  let seg := seg.store_le16 24 (ip_sum seg 14 20)
  { first := udp_header seg
    next := []
    nb_segs := 1
    pkt_len := pkt_size
    ol_flags := txp.tx_ol_flags % 65536
    l2_len := 14
    l3_len := 20
    vlan_tci := txp.tx_vlan_id
    vlan_tci_outer := txp.tx_vlan_id_outer }

/-! ## Section 3: The bursts -/

/-- The packets that are made, until the burst is full or the pool is empty.  The sum is
    unsigned, which `% cfg_n_flows` does not see. -/
def flow_burst (txp : TxPort) : ℕ → List Segment → ℤ → List rte_mbuf × List Segment × ℤ
  | n + 1, seg :: pool, next_flow =>
    let rest := flow_burst txp n pool ((next_flow + 1) % cfg_n_flows)
    (flow_pkt txp next_flow seg :: rest.1, rest.2)
  | _, pool, next_flow => ([], pool, next_flow)

/-- `while (next_flow < 0) next_flow += cfg_n_flows` -/
def back_out (next_flow : ℤ) : ℤ :=
  if next_flow < 0 then back_out (next_flow + cfg_n_flows) else next_flow
termination_by (-next_flow).toNat
decreasing_by
  have hflows : (cfg_n_flows : ℤ) = 1024 := rfl
  omega

/-- What a call meets: the TX port of the stream, the burst that was received, the
    buffers that the pool can hand out, and how many packets the device has room for. -/
structure FlowCall where
  txp : TxPort
  nb_pkt_per_burst : ℕ
  received : List rte_mbuf
  pool : List Segment
  answer : ℕ

/-- A call, with the counters of its stream. -/
def pkt_burst_flow_gen (call : FlowCall) (c : Counters) (next_flow : ℤ) : Burst × ℤ :=
  let (pkts_burst, pool, next_flow) :=
    flow_burst call.txp call.nb_pkt_per_burst call.pool next_flow
  let nb_pkt := pkts_burst.length
  let nb_tx := tx_burst call.answer nb_pkt
  ({ counters :=
      { c with
        rx_packets := count c.rx_packets call.received.length
        tx_packets := count c.tx_packets nb_tx }
     sent := pkts_burst.take nb_tx
     freed := call.received ++ pkts_burst.drop nb_tx
     pool },
   if nb_tx < nb_pkt then back_out (next_flow - (nb_pkt - nb_tx : ℕ)) else next_flow)

/-! ## Section 4: What is in a packet -/

/-- A packet of a flow, with lengths that agree and an IP header that checks. -/
structure IsFlow (flow : ℕ) (pkt : rte_mbuf) : Prop where
  ether_type : pkt.first.be16 12 = 0x0800
  header : MessageChecks pkt.first 14 20
  src : pkt.first.be32 26 = cfg_ip_src
  dst : pkt.first.be32 30 = cfg_ip_dst + flow
  total_length : pkt.first.be16 16 = pkt.first.data_len - 14
  dgram_len : pkt.first.be16 38 = pkt.first.be16 16 - 20
  wellFormed : pkt.WellFormed

section packet

variable {seg : Segment} {flow : ℤ}

theorem byte_udp_header {i : ℕ} (h : i < 34) : (udp_header seg).byte i = seg.byte i := by
  unfold udp_header
  simp (disch := omega) only [Segment.byte_store_be16, Segment.byte_store_le16, if_neg]

theorem flow_dst_lt (flow : ℤ) : flow_dst flow < 2 ^ 32 := by
  show ((cfg_ip_dst + flow) % 2 ^ 32).toNat < 2 ^ 32
  omega

/-- The words of the headers; each is as it was stored, whatever is stored later. -/
theorem flow_headers_spec (flow : ℤ) (seg : Segment) : (flow_headers flow seg).be16 12 = 0x0800 ∧
    (flow_headers flow seg).le16 24 = 0 ∧ (flow_headers flow seg).be32 26 = cfg_ip_src ∧
    (flow_headers flow seg).be32 30 = flow_dst flow ∧
    (flow_headers flow seg).be16 16 = pkt_size - 14 := by
  have hsrc : cfg_ip_src < 2 ^ 32 := by decide
  unfold flow_headers
  dsimp only
  refine ⟨?_, ?_, ?_, ?_, ?_⟩
  · simp (disch := simp) only [Segment.be16_store_be16_of_disjoint,
      Segment.be16_store_be32_of_disjoint, Segment.be16_store_le16_of_disjoint,
      Segment.be16_store]
    exact Segment.be16_store_be16 (by decide)
  · -- the header is filled with zeros first
    simp (disch := simp) only [Segment.le16_store_be16_of_disjoint,
      Segment.le16_store_be32_of_disjoint, Segment.le16_store_le16_of_disjoint,
      Segment.le16_store]
    unfold Segment.le16 Segment.byte
    rw [Segment.store_data_of_mem (by decide) (by decide),
      Segment.store_data_of_mem (by decide) (by decide)]
    rfl
  · rw [Segment.be32_store_be16_of_disjoint (by decide),
      Segment.be32_store_be32_of_disjoint (by decide), Segment.be32_store_be32 hsrc]
  · rw [Segment.be32_store_be16_of_disjoint (by decide),
      Segment.be32_store_be32 (flow_dst_lt flow)]
  · exact Segment.be16_store_be16 (by decide)

/-- What the IP checksum and the UDP header leave of the headers. -/
theorem udp_header_store (hzero : seg.le16 24 = 0) :
    let pkt := udp_header (seg.store_le16 24 (ip_sum seg 14 20))
    MessageChecks pkt 14 20 ∧ (∀ i, i + 2 ≤ 24 → pkt.be16 i = seg.be16 i) ∧
    (∀ i, 26 ≤ i → i + 4 ≤ 34 → pkt.be32 i = seg.be32 i) ∧ pkt.data_len = seg.data_len ∧
    pkt.be16 38 = pkt_size - 14 - 20 := by
  have hchecks : MessageChecks (seg.store_le16 24 (ip_sum seg 14 20)) 14 20 :=
    ip_sum_checks seg 14 (n := 10) (k := 5) (by decide) hzero
  refine ⟨?_, ?_, ?_, rfl, ?_⟩
  · exact (messageChecks_congr fun i hi => byte_udp_header (by omega)).mpr hchecks
  · intro i hi
    trans (seg.store_le16 24 (ip_sum seg 14 20)).be16 i
    · exact Segment.be16_congr fun j _ => byte_udp_header (by omega)
    · exact Segment.be16_store_le16_of_disjoint (Or.inl hi)
  · intro i hi hend
    trans (seg.store_le16 24 (ip_sum seg 14 20)).be32 i
    · exact Segment.be32_congr fun j _ => byte_udp_header (by omega)
    · exact Segment.be32_store_le16_of_disjoint (Or.inr hi)
  · exact Segment.be16_store_be16 (by decide)

/-- The packets of the flows. -/
theorem isFlow_flow_pkt (txp : TxPort) (seg : Segment) {k : ℕ} (hk : k < cfg_n_flows) :
    IsFlow k (flow_pkt txp k seg) := by
  obtain ⟨htype, hzero, hsrc, hdst, htotal⟩ := flow_headers_spec k seg
  have hflow : flow_dst k = cfg_ip_dst + k := by
    have hn : cfg_n_flows = 1024 := rfl
    have hbase : cfg_ip_dst = 184352768 := by decide
    show ((cfg_ip_dst + (k : ℤ)) % 2 ^ 32).toNat = _
    omega
  have hlen : (flow_headers k seg).data_len = pkt_size := rfl
  obtain ⟨hchecks, hword, haddr, hsize, hdgram⟩ := udp_header_store hzero
  have htotal := (hword 16 (by decide)).trans htotal
  exact
    { ether_type := (hword 12 (by decide)).trans htype
      header := hchecks
      src := (haddr 26 (by decide) (by decide)).trans hsrc
      dst := by
        show (udp_header _).be32 30 = _
        rw [haddr 30 (by decide) (by decide), hdst, hflow]
      total_length := by
        show (udp_header _).be16 16 = (udp_header _).data_len - 14
        rw [htotal, hsize, hlen]
      dgram_len := by
        show (udp_header _).be16 38 = (udp_header _).be16 16 - 20
        rw [htotal, hdgram]
      wellFormed := by
        refine ⟨rfl, ?_⟩
        show pkt_size = (flat [_]).length
        rw [length_flat]
        exact hsize.symm }

end packet

/-! ## Section 5: Runs -/

/-- The counter, which the streams share, the counters of the streams, and the packets that
    have been sent. -/
structure FlowGen where
  next_flow : ℤ
  streams : ℕ → Counters
  sent : List rte_mbuf

/-- A call for the stream `fs`. -/
def FlowGen.forward (s : FlowGen) (fs : ℕ) (call : FlowCall) : FlowGen :=
  let (burst, next_flow) := pkt_burst_flow_gen call (s.streams fs) s.next_flow
  { next_flow
    streams := Function.update s.streams fs burst.counters
    sent := s.sent ++ burst.sent }

def FlowGen.run (s : FlowGen) (calls : List (ℕ × FlowCall)) : FlowGen :=
  calls.foldl (fun s call => s.forward call.1 call.2) s

/-- The flows from `k` on. -/
def flowsFrom (k n : ℕ) : List ℕ := (List.range n).map fun i => (k + i) % cfg_n_flows

theorem flowsFrom_succ (k n : ℕ) :
    flowsFrom k (n + 1) = k % cfg_n_flows :: flowsFrom (k + 1) n := by
  unfold flowsFrom
  rw [List.range_succ_eq_map, List.map_cons, List.map_map]
  congr 1
  apply List.map_congr_left
  intro i _
  show (k + (i + 1)) % cfg_n_flows = (k + 1 + i) % cfg_n_flows
  rw [Nat.add_right_comm, Nat.add_assoc]

theorem flowsFrom_add (k m n : ℕ) :
    flowsFrom k (m + n) = flowsFrom k m ++ flowsFrom (k + m) n := by
  unfold flowsFrom
  rw [List.range_add, List.map_append, List.map_map]
  congr 2
  funext i
  show (k + (m + i)) % cfg_n_flows = _
  rw [Nat.add_assoc]

theorem take_flowsFrom (k : ℕ) {m n : ℕ} (h : m ≤ n) :
    (flowsFrom k n).take m = flowsFrom k m := by
  unfold flowsFrom
  rw [← List.map_take, List.take_range, Nat.min_eq_left h]

/-- The burst goes on where the counter stands. -/
theorem flow_burst_spec (txp : TxPort) (n : ℕ) (pool : List Segment) (k : ℕ) :
    let (pkts, _, next_flow) := flow_burst txp n pool (k % cfg_n_flows : ℕ)
    List.Forall₂ IsFlow (flowsFrom k pkts.length) pkts ∧
      next_flow = ((k + pkts.length) % cfg_n_flows : ℕ) := by
  induction n generalizing pool k with
  | zero => exact ⟨List.Forall₂.nil, rfl⟩
  | succ n ih =>
    cases pool with
    | nil => exact ⟨List.Forall₂.nil, rfl⟩
    | cons seg pool =>
      have hnext : (((k % cfg_n_flows : ℕ) : ℤ) + 1) % cfg_n_flows =
          ((k + 1) % cfg_n_flows : ℕ) := by
        have hn : cfg_n_flows = 1024 := rfl
        rw [hn]
        omega
      obtain ⟨hpkts, hflow⟩ := ih pool (k + 1)
      unfold flow_burst
      rw [hnext]
      dsimp only
      rw [List.length_cons, flowsFrom_succ]
      have hk : k % cfg_n_flows < cfg_n_flows := Nat.mod_lt k (by decide)
      refine ⟨List.Forall₂.cons (isFlow_flow_pkt txp seg hk) hpkts, ?_⟩
      rw [hflow, Nat.add_right_comm, Nat.add_assoc]

/-- What is taken back of the counter leaves the number of the first packet that was not
    taken. -/
theorem back_out_spec {z : ℤ} (h : z < cfg_n_flows) :
    back_out z = z % cfg_n_flows := by
  induction z using back_out.induct with
  | case1 z hneg ih =>
    rw [back_out, if_pos hneg, ih (by omega), Int.add_emod_right]
  | case2 z hneg =>
    rw [back_out, if_neg hneg, Int.emod_eq_of_lt (by omega) h]

/-- One call keeps the flows in turn. -/
theorem forward_sent {s : FlowGen} {k : ℕ} (hnext : s.next_flow = (k % cfg_n_flows : ℕ))
    (fs : ℕ) (call : FlowCall) :
    ∃ sent, (s.forward fs call).sent = s.sent ++ sent ∧
      List.Forall₂ IsFlow (flowsFrom k sent.length) sent ∧
      (s.forward fs call).next_flow = ((k + sent.length) % cfg_n_flows : ℕ) := by
  obtain ⟨hpkts, hflow⟩ := flow_burst_spec call.txp call.nb_pkt_per_burst call.pool k
  unfold FlowGen.forward pkt_burst_flow_gen
  rw [hnext]
  generalize flow_burst call.txp call.nb_pkt_per_burst call.pool (k % cfg_n_flows : ℕ) = burst
    at hpkts hflow
  obtain ⟨pkts, pool, next_flow⟩ := burst
  dsimp only at hpkts hflow ⊢
  have hle : tx_burst call.answer pkts.length ≤ pkts.length := Nat.min_le_right _ _
  have hlen : (pkts.take (tx_burst call.answer pkts.length)).length =
      tx_burst call.answer pkts.length := by
    rw [List.length_take, Nat.min_eq_left hle]
  refine ⟨pkts.take (tx_burst call.answer pkts.length), rfl, ?_, ?_⟩
  · rw [hlen, ← take_flowsFrom k hle]
    exact List.forall₂_take _ hpkts
  · rw [hlen, hflow]
    generalize tx_burst call.answer pkts.length = nb_tx at hle
    split
    · next hlt =>
      -- the counter may be set back below zero
      have hmod : (k + pkts.length) % cfg_n_flows < cfg_n_flows := Nat.mod_lt _ (by decide)
      rw [back_out_spec (by omega)]
      have hn : cfg_n_flows = 1024 := rfl
      rw [hn] at hmod ⊢
      omega
    · next hall =>
      have : nb_tx = pkts.length := by omega
      rw [this]

/-- **The packets that are sent go through the flows in turn**, in every run of calls for any
    streams, whatever the pool and the devices answer: the packet with the number `j`
    belongs to the flow `j` modulo 1024. -/
theorem flowgen_sent (streams : ℕ → Counters) (calls : List (ℕ × FlowCall)) :
    let s := FlowGen.run ⟨0, streams, []⟩ calls
    List.Forall₂ IsFlow (flowsFrom 0 s.sent.length) s.sent := by
  have hrun : ∀ (s : FlowGen), List.Forall₂ IsFlow (flowsFrom 0 s.sent.length) s.sent →
      s.next_flow = (s.sent.length % cfg_n_flows : ℕ) →
      List.Forall₂ IsFlow (flowsFrom 0 (s.run calls).sent.length) (s.run calls).sent := by
    induction calls with
    | nil => exact fun s hsent _ => hsent
    | cons call calls ih =>
      intro s hsent hnext
      obtain ⟨sent, hsent', hflows, hnext'⟩ := forward_sent hnext call.1 call.2
      apply ih (s.forward call.1 call.2)
      · rw [hsent', List.length_append, flowsFrom_add, Nat.zero_add]
        exact List.rel_append hsent hflows
      · rw [hnext', hsent', List.length_append]
  exact hrun ⟨0, streams, []⟩ List.Forall₂.nil rfl

end TestPmd
