import Catbench.TestPmd.CsumDissect
import Catbench.TestPmd.Words

/-! # Checksums in the forwarding mode `csum`

    Where nothing is left to the device, the checksums of all layers are right when the
    packet leaves, whatever they were: the inner headers are done first, and what is written to
    the outer ones is in front of them.

    DPDK's functions are assumed to return what makes their words check: it says that the IPv4
    header has no options, and that the checksum is cleared first.
-/

open Checksum

namespace TestPmd

/-! ## Section 1: Checksums with a pseudo header -/

/-- The length of an IP header without options. -/
def ip_hdr_len (ethertype : ℕ) : ℕ := if ethertype = ETHER_TYPE_IPv4 then 20 else 40

/-- The length of the message that an IP header has. -/
def l4_length (seg : Segment) (ethertype l3_hdr : ℕ) : ℕ :=
  if ethertype = ETHER_TYPE_IPv4 then seg.be16 (l3_hdr + 2) - 20 else seg.be16 (l3_hdr + 4)

/-- The words of the pseudo header: addresses, length and protocol. -/
def psd_words (seg : Segment) (ethertype l3_hdr : ℕ) : List ℕ :=
  if ethertype = ETHER_TYPE_IPv4 then
    (List.range 4).map (fun k => seg.be16 (l3_hdr + 12 + 2 * k)) ++
      [l4_length seg ethertype l3_hdr, seg.byte (l3_hdr + 9)]
  else
    (List.range 16).map (fun k => seg.be16 (l3_hdr + 8 + 2 * k)) ++
      [l4_length seg ethertype l3_hdr, seg.byte (l3_hdr + 6)]

/-- The words that the checksum of UDP and TCP is over, in the order of the network. -/
def udptcp_words (seg : Segment) (ethertype l3_hdr l4_hdr : ℕ) : List ℕ :=
  let len := l4_length seg ethertype l3_hdr
  psd_words seg ethertype l3_hdr ++ (List.range ((len + 1) / 2)).map (word seg l4_hdr len)

/-- The checksum of the message at `l4_hdr` is right. -/
def UdptcpChecks (seg : Segment) (ethertype l3_hdr l4_hdr : ℕ) : Prop :=
  Checks (udptcp_words seg ethertype l3_hdr l4_hdr).sum

instance (seg : Segment) (ethertype l3_hdr l4_hdr : ℕ) :
    Decidable (UdptcpChecks seg ethertype l3_hdr l4_hdr) := inferInstanceAs (Decidable (Checks _))

/-- The sum of these words as the machine loads them. -/
def udptcp_sum (seg : Segment) (ethertype l3_hdr l4_hdr : ℕ) : ℕ :=
  ((udptcp_words seg ethertype l3_hdr l4_hdr).map swap).sum

/-- What DPDK says that its functions return: where the checksum is zero, what makes the sum
    check. -/
structure Dpdk.Cksums (dpdk : Dpdk) : Prop where
  ipv4_lt : ∀ seg l3_hdr, dpdk.rte_ipv4_cksum seg l3_hdr < 65536
  ipv4 : ∀ seg l3_hdr, seg.le16 (l3_hdr + 10) = 0 →
    Checks (wordSum seg l3_hdr 10 + dpdk.rte_ipv4_cksum seg l3_hdr)
  ipv4_udptcp_lt : ∀ seg l3_hdr l4_hdr, dpdk.rte_ipv4_udptcp_cksum seg l3_hdr l4_hdr < 65536
  ipv4_udptcp : ∀ seg l3_hdr l4_hdr, 20 ≤ seg.be16 (l3_hdr + 2) →
    Checks (udptcp_sum seg ETHER_TYPE_IPv4 l3_hdr l4_hdr +
      dpdk.rte_ipv4_udptcp_cksum seg l3_hdr l4_hdr)
  ipv6_udptcp_lt : ∀ seg l3_hdr l4_hdr, dpdk.rte_ipv6_udptcp_cksum seg l3_hdr l4_hdr < 65536
  ipv6_udptcp : ∀ seg l3_hdr l4_hdr,
    Checks (udptcp_sum seg ETHER_TYPE_IPv6 l3_hdr l4_hdr +
      dpdk.rte_ipv6_udptcp_cksum seg l3_hdr l4_hdr)

theorem get_udptcp_checksum_lt {dpdk : Dpdk} (hdpdk : dpdk.Cksums) (seg : Segment)
    (l3_hdr l4_hdr ethertype : ℕ) :
    get_udptcp_checksum dpdk seg l3_hdr l4_hdr ethertype < 65536 := by
  unfold get_udptcp_checksum
  split
  · exact hdpdk.ipv4_udptcp_lt seg l3_hdr l4_hdr
  · exact hdpdk.ipv6_udptcp_lt seg l3_hdr l4_hdr

section pseudo

variable {seg seg' : Segment} {ethertype l3_hdr l4_hdr : ℕ}

theorem l4_length_lt (seg : Segment) (ethertype l3_hdr : ℕ) :
    l4_length seg ethertype l3_hdr < 65536 := by
  have h4 := seg.be16_lt (l3_hdr + 2)
  have h6 := seg.be16_lt (l3_hdr + 4)
  unfold l4_length
  split <;> omega

theorem udptcp_words_lt : ∀ w ∈ udptcp_words seg ethertype l3_hdr l4_hdr, w < 65536 := by
  have hlen := l4_length_lt seg ethertype l3_hdr
  have hproto4 := seg.byte_lt (l3_hdr + 9)
  have hproto6 := seg.byte_lt (l3_hdr + 6)
  intro w hw
  unfold udptcp_words psd_words at hw
  dsimp only at hw
  rcases List.mem_append.mp hw with hw | hw
  · split at hw
    · rcases List.mem_append.mp hw with hw | hw
      · obtain ⟨k, -, rfl⟩ := List.mem_map.mp hw
        exact seg.be16_lt _
      · simp only [List.mem_cons, List.not_mem_nil, or_false] at hw
        omega
    · rcases List.mem_append.mp hw with hw | hw
      · obtain ⟨k, -, rfl⟩ := List.mem_map.mp hw
        exact seg.be16_lt _
      · simp only [List.mem_cons, List.not_mem_nil, or_false] at hw
        omega
  · obtain ⟨k, -, rfl⟩ := List.mem_map.mp hw
    exact word_lt seg l4_hdr _ k

/-- The words of a message with the same bytes. -/
theorem word_congr {off len k : ℕ} (h : ∀ i, off ≤ i → seg'.byte i = seg.byte i) :
    word seg' off len k = word seg off len k := by
  unfold word
  rw [h (off + 2 * k) (by omega), h (off + 2 * k + 1) (by omega)]

theorem psd_words_congr (ethertype l3_hdr : ℕ)
    (h : ∀ i, l3_hdr ≤ i → i < l3_hdr + ip_hdr_len ethertype → seg'.byte i = seg.byte i) :
    l4_length seg' ethertype l3_hdr = l4_length seg ethertype l3_hdr ∧
      psd_words seg' ethertype l3_hdr = psd_words seg ethertype l3_hdr := by
  have hbe16 : ∀ k, k + 2 ≤ ip_hdr_len ethertype →
      seg'.be16 (l3_hdr + k) = seg.be16 (l3_hdr + k) := by
    intro k hk
    apply Segment.be16_congr
    intro i hi
    exact h _ (by omega) (by omega)
  have hlen : l4_length seg' ethertype l3_hdr = l4_length seg ethertype l3_hdr := by
    unfold l4_length
    split
    · next hv4 => rw [hbe16 2 (by rw [ip_hdr_len, if_pos hv4]; omega)]
    · next hv6 => rw [hbe16 4 (by rw [ip_hdr_len, if_neg hv6]; omega)]
  refine ⟨hlen, ?_⟩
  unfold psd_words
  rw [hlen]
  split
  · next hv4 =>
    have hsize : ip_hdr_len ethertype = 20 := if_pos hv4
    rw [h (l3_hdr + 9) (by omega) (by omega)]
    congr 1
    apply List.map_congr_left
    intro k hk
    have hk := List.mem_range.mp hk
    rw [Nat.add_assoc]
    exact hbe16 _ (by omega)
  · next hv6 =>
    have hsize : ip_hdr_len ethertype = 40 := if_neg hv6
    rw [h (l3_hdr + 6) (by omega) (by omega)]
    congr 1
    apply List.map_congr_left
    intro k hk
    have hk := List.mem_range.mp hk
    rw [Nat.add_assoc]
    exact hbe16 _ (by omega)

theorem udptcpChecks_congr (hl4 : l3_hdr ≤ l4_hdr)
    (h : ∀ i, l3_hdr ≤ i → seg'.byte i = seg.byte i) :
    UdptcpChecks seg' ethertype l3_hdr l4_hdr ↔ UdptcpChecks seg ethertype l3_hdr l4_hdr := by
  obtain ⟨hlen, hpsd⟩ := psd_words_congr ethertype l3_hdr fun i hi _ => h i hi
  have hword : ∀ len, word seg' l4_hdr len = word seg l4_hdr len :=
    fun len => funext fun k => word_congr fun i hi => h i (Nat.le_trans hl4 hi)
  unfold UdptcpChecks udptcp_words
  rw [hlen, hpsd]
  dsimp only
  rw [hword]

theorem udptcp_sum_lt : udptcp_sum seg ethertype l3_hdr l4_hdr < 65536 * 65536 := by
  have hlen := l4_length_lt seg ethertype l3_hdr
  unfold udptcp_sum
  apply sum_lt
  · intro v hv
    obtain ⟨w, hw, rfl⟩ := List.mem_map.mp hv
    have hlt := udptcp_words_lt w hw
    unfold swap
    omega
  · -- half of the length, and at most 18 words of the pseudo header
    unfold udptcp_words psd_words
    simp only [List.length_map, List.length_append, List.length_range]
    split <;> simp <;> omega

end pseudo

/-- The checksum for a sum of words. -/
def raw_cksum (sum : ℕ) : ℕ := complement (fold (fold sum))

theorem raw_cksum_spec {sum : ℕ} (h : sum < 65536 * 65536) :
    raw_cksum sum < 65536 ∧ Checks (sum + raw_cksum sum) := by
  have hfold := fold_fold_lt h
  constructor
  · unfold raw_cksum complement
    omega
  · exact checks_add_complement hfold ((fold_modEq _).trans (fold_modEq _))
      (fold_pos.trans fold_pos)

/-- DPDK as it says it is, on a device that knows no tunnels. -/
def documented : Dpdk where
  rte_ipv4_cksum seg l3_hdr := raw_cksum (wordSum seg l3_hdr 10)
  rte_ipv4_udptcp_cksum seg l3_hdr l4_hdr :=
    raw_cksum (udptcp_sum seg ETHER_TYPE_IPv4 l3_hdr l4_hdr)
  rte_ipv6_udptcp_cksum seg l3_hdr l4_hdr :=
    raw_cksum (udptcp_sum seg ETHER_TYPE_IPv6 l3_hdr l4_hdr)
  rte_ipv4_phdr_cksum seg l3_hdr _ :=
    fold (fold ((psd_words seg ETHER_TYPE_IPv4 l3_hdr).map swap).sum)
  rte_ipv6_phdr_cksum seg l3_hdr _ :=
    fold (fold ((psd_words seg ETHER_TYPE_IPv6 l3_hdr).map swap).sum)
  RTE_ETH_IS_TUNNEL_PKT _ := false
  PKT_RX_IP_CKSUM_BAD := 2 ^ 4
  PKT_RX_L4_CKSUM_BAD := 2 ^ 3
  PKT_TX_IPV4 := 2 ^ 55
  PKT_TX_IPV6 := 2 ^ 56
  PKT_TX_IP_CKSUM := 2 ^ 54
  PKT_TX_UDP_CKSUM := 3 * 2 ^ 52
  PKT_TX_TCP_CKSUM := 2 ^ 52
  PKT_TX_SCTP_CKSUM := 2 ^ 53
  PKT_TX_TCP_SEG := 2 ^ 50
  PKT_TX_OUTER_IPV4 := 2 ^ 59
  PKT_TX_OUTER_IPV6 := 2 ^ 60
  PKT_TX_OUTER_IP_CKSUM := 2 ^ 58

theorem wordSum_lt (seg : Segment) (off : ℕ) : wordSum seg off 10 < 65536 * 65536 := by
  unfold wordSum
  apply sum_lt
  · intro v hv
    obtain ⟨k, -, rfl⟩ := List.mem_map.mp hv
    have hlow := seg.byte_lt (off + 2 * k)
    have hhigh := seg.byte_lt (off + 2 * k + 1)
    unfold Segment.le16
    omega
  · simp

theorem documented_cksums : documented.Cksums where
  ipv4_lt seg l3_hdr := (raw_cksum_spec (wordSum_lt seg l3_hdr)).1
  ipv4 seg l3_hdr _ := (raw_cksum_spec (wordSum_lt seg l3_hdr)).2
  ipv4_udptcp_lt _ _ _ := (raw_cksum_spec udptcp_sum_lt).1
  ipv4_udptcp _ _ _ _ := (raw_cksum_spec udptcp_sum_lt).2
  ipv6_udptcp_lt _ _ _ := (raw_cksum_spec udptcp_sum_lt).1
  ipv6_udptcp _ _ _ := (raw_cksum_spec udptcp_sum_lt).2

/-! ## Section 2: The checksums of one layer -/

/-- A layer of IP, without options. -/
structure Plain (ethertype l3_len : ℕ) : Prop where
  supported : ethertype = ETHER_TYPE_IPv4 ∨ ethertype = ETHER_TYPE_IPv6
  no_options : l3_len = ip_hdr_len ethertype

/-- The checksums of a layer of IP and UDP: `word` is that of UDP as it came, which is not
    touched if it is zero. -/
structure LayerChecks (word : ℕ) (seg : Segment) (ethertype l3_hdr l4_hdr l4_proto : ℕ) :
    Prop where
  header : ethertype = ETHER_TYPE_IPv4 → MessageChecks seg l3_hdr 20
  udp : l4_proto = IPPROTO_UDP →
    if word = 0 then seg.le16 (l4_hdr + 6) = 0
    else 8 ≤ l4_length seg ethertype l3_hdr → UdptcpChecks seg ethertype l3_hdr l4_hdr

section layer

variable {dpdk : Dpdk} {info : testpmd_offload_info} {seg seg' : Segment}
  {testpmd_ol_flags ethertype l3_hdr l4_hdr l4_proto : ℕ}

theorem LayerChecks.congr {word : ℕ} (hl4 : l3_hdr ≤ l4_hdr)
    (h : ∀ i, l3_hdr ≤ i → seg'.byte i = seg.byte i)
    (hseg : LayerChecks word seg ethertype l3_hdr l4_hdr l4_proto) :
    LayerChecks word seg' ethertype l3_hdr l4_hdr l4_proto := by
  have hlen : l4_length seg' ethertype l3_hdr = l4_length seg ethertype l3_hdr :=
    (psd_words_congr _ _ fun i hi _ => h i hi).1
  have hword : seg'.le16 (l4_hdr + 6) = seg.le16 (l4_hdr + 6) := by
    unfold Segment.le16
    rw [h _ (by omega), h _ (by omega)]
  constructor
  · intro hv4
    exact (messageChecks_congr fun i _ => h _ (by omega)).mpr (hseg.header hv4)
  · intro hudp
    rw [hlen, hword, udptcpChecks_congr hl4 h]
    exact hseg.udp hudp

end layer

/-! ## Section 3: The checksums of a packet -/

/-- The source address of a layer is the next one. -/
def NextSource (seg r : Segment) (ethertype l3_hdr : ℕ) : Prop :=
  if ethertype = ETHER_TYPE_IPv4 then
    r.be32 (l3_hdr + 12) = (seg.be32 (l3_hdr + 12) + 1) % 2 ^ 32
  else r.byte (l3_hdr + 23) = (seg.byte (l3_hdr + 23) + 1) % 256

section packet

variable {seg seg' r r' : Segment} {ethertype l3_hdr : ℕ}

theorem NextSource.congr (h : NextSource seg r ethertype l3_hdr)
    (hseg : ∀ i, l3_hdr + 12 ≤ i → i < l3_hdr + 24 → seg'.byte i = seg.byte i)
    (hr : ∀ i, l3_hdr + 12 ≤ i → i < l3_hdr + 24 → r'.byte i = r.byte i) :
    NextSource seg' r' ethertype l3_hdr := by
  have hbe32 : ∀ {a b : Segment}, (∀ i, l3_hdr + 12 ≤ i → i < l3_hdr + 24 → a.byte i = b.byte i) →
      a.be32 (l3_hdr + 12) = b.be32 (l3_hdr + 12) :=
    fun hab => Segment.be32_congr fun k hk => hab _ (by omega) (by omega)
  unfold NextSource at h ⊢
  rw [hbe32 hseg, hbe32 hr, hseg _ (by omega) (by omega), hr _ (by omega) (by omega)]
  exact h

/-- What is right about the innermost layer: `seg` is the packet as it came. -/
structure InnerChecks (info : testpmd_offload_info) (l3_hdr : ℕ) (seg r : Segment) : Prop where
  layer : LayerChecks (seg.le16 (l3_hdr + info.l3_len + 6)) r info.ethertype l3_hdr
    (l3_hdr + info.l3_len) info.l4_proto
  tcp : info.l4_proto = IPPROTO_TCP → 18 ≤ l4_length r info.ethertype l3_hdr →
    UdptcpChecks r info.ethertype l3_hdr (l3_hdr + info.l3_len)
  source : NextSource seg r info.ethertype l3_hdr

theorem InnerChecks.congr {info : testpmd_offload_info} (h : InnerChecks info l3_hdr seg r)
    (hr : ∀ i, l3_hdr ≤ i → r'.byte i = r.byte i) : InnerChecks info l3_hdr seg r' := by
  have hl4 : l3_hdr ≤ l3_hdr + info.l3_len := Nat.le_add_right _ _
  have hlen : l4_length r' info.ethertype l3_hdr = l4_length r info.ethertype l3_hdr :=
    (psd_words_congr _ _ fun i hi _ => hr i hi).1
  refine ⟨h.layer.congr hl4 hr, ?_, h.source.congr (fun _ _ _ => rfl) fun i hi _ => hr i ?_⟩
  · rw [hlen, udptcpChecks_congr hl4 hr]
    exact h.tcp
  · omega

/-- A call that looks for tunnels and leaves nothing to the device. -/
def software : CsumCall where
  dpdk := documented
  cfg := ⟨⟨0, 0⟩, 32, .TX_PKT_SPLIT_OFF, [64]⟩
  txp := { TxPort.plain with tx_ol_flags := TESTPMD_TX_OFFLOAD_PARSE_TUNNEL }
  tso_segsz := 0
  peer_addr := fun _ => 2
  tailroom := 2048
  random := id
  received := []
  pool := []
  answer := 32

/-- A message of UDP without data in VXLAN, all over IPv4 and with wrong checksums. -/
def in_vxlan : csum_mbuf where
  first :=
    { buf := 0
      data_len := 92
      data := fun i =>
        [2, 0, 0, 0, 0, 2, 2, 0, 0, 0, 0, 1, 8, 0,
          0x45, 0, 0, 78, 0, 0, 0, 0, 64, 17, 1, 1, 10, 0, 0, 1, 10, 0, 0, 2,
          0xc0, 0, 0x12, 0xb5, 0, 58, 1, 1, 8, 0, 0, 0, 0, 0, 7, 0,
          2, 0, 0, 0, 0, 4, 2, 0, 0, 0, 0, 3, 8, 0,
          0x45, 0, 0, 28, 0, 0, 0, 0, 64, 17, 1, 1, 192, 168, 0, 1, 192, 168, 0, 2,
          0, 53, 0, 53, 0, 8, 1, 1].getD i 0 }
  next := []
  nb_segs := 1
  pkt_len := 92
  ol_flags := 0
  l2_len := 0
  l3_len := 0
  vlan_tci := 0
  vlan_tci_outer := 0
  packet_type := 0
  l4_len := 0
  outer_l2_len := 0
  outer_l3_len := 0
  tso_segsz := 0

end packet

end TestPmd
