import Catbench.TestPmd.IcmpEcho
import Catbench.TestPmd.PktSplit
import Catbench.TestPmd.TxOnly

/-! # The forwarding mode `csum`

    Packets are dissected, with a tunnel inside them if that is asked for; the source
    addresses of all IP headers are changed, and the checksums are computed anew or left
    to the device.  What is found out about a packet is kept in `info`, which is cleared
    once for a burst.

    The checksums, the sums that the device goes on from, and the flags of the packets are
    DPDK's, and parameters here.
-/

namespace TestPmd

/-! ## Section 1: Dissecting packets -/

def ETHER_TYPE_IPv6 : ℕ := 0x86DD
def ETHER_TYPE_TEB : ℕ := 0x6558

def IPPROTO_IPIP : ℕ := 4
def IPPROTO_TCP : ℕ := 6
def IPPROTO_UDP : ℕ := 17
def IPPROTO_GRE : ℕ := 47
def IPPROTO_SCTP : ℕ := 132

def GRE_KEY_PRESENT : ℕ := 0x2000
def GRE_KEY_LEN : ℕ := 4

/-- The lengths of the headers of UDP and VXLAN together. -/
def ETHER_VXLAN_HLEN : ℕ := 16

/-- What is found out about a packet; the types are in the order of the host here. -/
structure testpmd_offload_info where
  ethertype : ℕ
  l2_len : ℕ
  l3_len : ℕ
  l4_len : ℕ
  l4_proto : ℕ
  is_tunnel : Bool
  outer_ethertype : ℕ
  outer_l2_len : ℕ
  outer_l3_len : ℕ
  outer_l4_proto : ℕ
  tso_segsz : ℕ
  deriving DecidableEq, Repr

/-- The length of a TCP header. -/
def tcp_hdr_len (seg : Segment) (tcp_hdr : ℕ) : ℕ := seg.byte (tcp_hdr + 12) / 16 * 4

def parse_ipv4 (seg : Segment) (ipv4_hdr : ℕ) (info : testpmd_offload_info) :
    testpmd_offload_info :=
  let l3_len := seg.byte ipv4_hdr % 16 * 4
  let l4_proto := seg.byte (ipv4_hdr + 9)
  { info with
    l3_len
    l4_proto
    l4_len := if l4_proto = IPPROTO_TCP then tcp_hdr_len seg (ipv4_hdr + l3_len) else 0 }

def parse_ipv6 (seg : Segment) (ipv6_hdr : ℕ) (info : testpmd_offload_info) :
    testpmd_offload_info :=
  let l4_proto := seg.byte (ipv6_hdr + 6)
  { info with
    l3_len := 40
    l4_proto
    l4_len := if l4_proto = IPPROTO_TCP then tcp_hdr_len seg (ipv6_hdr + 40) else 0 }

/-- The IP header of a type, or none. -/
def parse_l3 (seg : Segment) (l3_hdr : ℕ) (info : testpmd_offload_info) : testpmd_offload_info :=
  if info.ethertype = ETHER_TYPE_IPv4 then parse_ipv4 seg l3_hdr info
  else if info.ethertype = ETHER_TYPE_IPv6 then parse_ipv6 seg l3_hdr info
  else { info with l4_len := 0, l3_len := 0, l4_proto := 0 }

/-- The Ethernet header, with one VLAN header if there is one. -/
def parse_l2 (seg : Segment) (eth_hdr : ℕ) (info : testpmd_offload_info) : testpmd_offload_info :=
  let ether_type := seg.be16 (eth_hdr + 12)
  if ether_type = ETHER_TYPE_VLAN then
    { info with l2_len := 14 + 4, ethertype := seg.be16 (eth_hdr + 16) }
  else { info with l2_len := 14, ethertype := ether_type }

def parse_ethernet (seg : Segment) (eth_hdr : ℕ) (info : testpmd_offload_info) :
    testpmd_offload_info :=
  let info := parse_l2 seg eth_hdr info
  parse_l3 seg (eth_hdr + info.l2_len) info

/-- The headers so far are those outside of a tunnel. -/
def testpmd_offload_info.enter (info : testpmd_offload_info) : testpmd_offload_info :=
  { info with
    is_tunnel := true
    outer_ethertype := info.ethertype
    outer_l2_len := info.l2_len
    outer_l3_len := info.l3_len }

/-- `is_tunnel_pkt` is what the device says of the type of the packet. -/
def parse_vxlan (seg : Segment) (udp_hdr : ℕ) (is_tunnel_pkt : Bool)
    (info : testpmd_offload_info) : testpmd_offload_info :=
  if seg.be16 (udp_hdr + 2) ≠ 4789 ∧ is_tunnel_pkt = false then info
  else
    let info := { info.enter with outer_l4_proto := info.l4_proto }
    let info := parse_ethernet seg (udp_hdr + 8 + 8) info
    { info with l2_len := info.l2_len + ETHER_VXLAN_HLEN }

def parse_gre (seg : Segment) (gre_hdr : ℕ) (info : testpmd_offload_info) :
    testpmd_offload_info :=
  let flags := seg.be16 gre_hdr
  let proto := seg.be16 (gre_hdr + 2)
  if flags &&& (0xFFFF - GRE_KEY_PRESENT) ≠ 0 then info
  else
    let gre_len := if flags &&& GRE_KEY_PRESENT ≠ 0 then 4 + GRE_KEY_LEN else 4
    let outer := { info.enter with outer_l4_proto := info.l4_proto }
    if proto = ETHER_TYPE_IPv4 then
      let info := parse_ipv4 seg (gre_hdr + gre_len) outer
      { info with ethertype := ETHER_TYPE_IPv4, l2_len := 0 + gre_len }
    else if proto = ETHER_TYPE_IPv6 then
      let info := parse_ipv6 seg (gre_hdr + gre_len) outer
      { info with ethertype := ETHER_TYPE_IPv6, l2_len := 0 + gre_len }
    else if proto = ETHER_TYPE_TEB then
      let info := parse_ethernet seg (gre_hdr + gre_len) outer
      { info with l2_len := info.l2_len + gre_len }
    else info

/-- The protocol outside is not noted down. -/
def parse_encap_ip (seg : Segment) (encap_ip : ℕ) (info : testpmd_offload_info) :
    testpmd_offload_info :=
  let ip_version := seg.byte encap_ip / 16
  if ip_version ≠ 4 ∧ ip_version ≠ 6 then info
  else if ip_version = 4 then
    { parse_ipv4 seg encap_ip info.enter with ethertype := ETHER_TYPE_IPv4, l2_len := 0 }
  else { parse_ipv6 seg encap_ip info.enter with ethertype := ETHER_TYPE_IPv6, l2_len := 0 }

def TESTPMD_TX_OFFLOAD_IP_CKSUM : ℕ := 0x0001
def TESTPMD_TX_OFFLOAD_UDP_CKSUM : ℕ := 0x0002
def TESTPMD_TX_OFFLOAD_TCP_CKSUM : ℕ := 0x0004
def TESTPMD_TX_OFFLOAD_SCTP_CKSUM : ℕ := 0x0008
def TESTPMD_TX_OFFLOAD_OUTER_IP_CKSUM : ℕ := 0x0010
def TESTPMD_TX_OFFLOAD_PARSE_TUNNEL : ℕ := 0x0020

/-- The tunnel in a packet, if there is one that is supported; `l3_hdr` is the first IP
    header. -/
def parse_tunnel (seg : Segment) (l3_hdr : ℕ) (is_tunnel_pkt : Bool)
    (info : testpmd_offload_info) : testpmd_offload_info :=
  if info.l4_proto = IPPROTO_UDP then
    parse_vxlan seg (l3_hdr + info.l3_len) is_tunnel_pkt info
  else if info.l4_proto = IPPROTO_GRE then parse_gre seg (l3_hdr + info.l3_len) info
  else if info.l4_proto = IPPROTO_IPIP then parse_encap_ip seg (l3_hdr + info.l3_len) info
  else info

/-- A packet dissected, with the first IP header. -/
def dissect (testpmd_ol_flags : ℕ) (is_tunnel_pkt : Bool) (seg : Segment)
    (info : testpmd_offload_info) : testpmd_offload_info × ℕ :=
  let info := parse_ethernet seg 0 { info with is_tunnel := false }
  let l3_hdr := info.l2_len
  (if testpmd_ol_flags &&& TESTPMD_TX_OFFLOAD_PARSE_TUNNEL ≠ 0 then
    parse_tunnel seg l3_hdr is_tunnel_pkt info
  else info, l3_hdr)

/-- The innermost IP header, given the first one. -/
def testpmd_offload_info.inner (info : testpmd_offload_info) (l3_hdr : ℕ) : ℕ :=
  if info.is_tunnel = true then l3_hdr + info.outer_l3_len + info.l2_len else l3_hdr

/-! ## Section 2: Addresses and checksums -/

/-- What the mode uses of DPDK: checksums over an IPv4 header and over a message with its
    IP header, the sums over the IP header alone that the device goes on from, and flags. -/
structure Dpdk where
  rte_ipv4_cksum : Segment → ℕ → ℕ
  rte_ipv4_udptcp_cksum : Segment → ℕ → ℕ → ℕ
  rte_ipv6_udptcp_cksum : Segment → ℕ → ℕ → ℕ
  rte_ipv4_phdr_cksum : Segment → ℕ → ℕ → ℕ
  rte_ipv6_phdr_cksum : Segment → ℕ → ℕ → ℕ
  RTE_ETH_IS_TUNNEL_PKT : ℕ → Bool
  PKT_RX_IP_CKSUM_BAD : ℕ
  PKT_RX_L4_CKSUM_BAD : ℕ
  PKT_TX_IPV4 : ℕ
  PKT_TX_IPV6 : ℕ
  PKT_TX_IP_CKSUM : ℕ
  PKT_TX_UDP_CKSUM : ℕ
  PKT_TX_TCP_CKSUM : ℕ
  PKT_TX_SCTP_CKSUM : ℕ
  PKT_TX_TCP_SEG : ℕ
  PKT_TX_OUTER_IPV4 : ℕ
  PKT_TX_OUTER_IPV6 : ℕ
  PKT_TX_OUTER_IP_CKSUM : ℕ

def change_ip_addresses (l3_hdr ethertype : ℕ) (seg : Segment) : Segment :=
  if ethertype = ETHER_TYPE_IPv4 then
    seg.store_be32 (l3_hdr + 12) ((seg.be32 (l3_hdr + 12) + 1) % 2 ^ 32)
  else if ethertype = ETHER_TYPE_IPv6 then
    seg.store (l3_hdr + 8 + 15) [seg.data (l3_hdr + 8 + 15) + 1]
  else seg

section cksums

variable (dpdk : Dpdk)

def get_psd_sum (seg : Segment) (l3_hdr ethertype ol_flags : ℕ) : ℕ :=
  if ethertype = ETHER_TYPE_IPv4 then dpdk.rte_ipv4_phdr_cksum seg l3_hdr ol_flags
  else dpdk.rte_ipv6_phdr_cksum seg l3_hdr ol_flags

def get_udptcp_checksum (seg : Segment) (l3_hdr l4_hdr ethertype : ℕ) : ℕ :=
  if ethertype = ETHER_TYPE_IPv4 then dpdk.rte_ipv4_udptcp_cksum seg l3_hdr l4_hdr
  else dpdk.rte_ipv6_udptcp_cksum seg l3_hdr l4_hdr

/-- The header of the innermost IP. -/
def inner_ip_cksum (info : testpmd_offload_info) (testpmd_ol_flags l3_hdr : ℕ)
    (seg : Segment) : ℕ × Segment :=
  if info.ethertype = ETHER_TYPE_IPv4 then
    let seg := seg.store_le16 (l3_hdr + 10) 0
    if info.tso_segsz ≠ 0 ∧ info.l4_proto = IPPROTO_TCP then
      (dpdk.PKT_TX_IPV4 ||| dpdk.PKT_TX_IP_CKSUM, seg)
    else if testpmd_ol_flags &&& TESTPMD_TX_OFFLOAD_IP_CKSUM ≠ 0 then
      (dpdk.PKT_TX_IPV4 ||| dpdk.PKT_TX_IP_CKSUM, seg)
    else (dpdk.PKT_TX_IPV4, seg.store_le16 (l3_hdr + 10) (dpdk.rte_ipv4_cksum seg l3_hdr))
  else (dpdk.PKT_TX_IPV6, seg)

/-- The checksum of UDP, if there is one. -/
def udp_cksum (info : testpmd_offload_info) (testpmd_ol_flags l3_hdr ol_flags : ℕ)
    (seg : Segment) : ℕ × Segment :=
  let udp_hdr := l3_hdr + info.l3_len
  if seg.le16 (udp_hdr + 6) ≠ 0 then
    let seg := seg.store_le16 (udp_hdr + 6) 0
    if testpmd_ol_flags &&& TESTPMD_TX_OFFLOAD_UDP_CKSUM ≠ 0 then
      let ol_flags := ol_flags ||| dpdk.PKT_TX_UDP_CKSUM
      (ol_flags,
        seg.store_le16 (udp_hdr + 6) (get_psd_sum dpdk seg l3_hdr info.ethertype ol_flags))
    else
      (ol_flags,
        seg.store_le16 (udp_hdr + 6) (get_udptcp_checksum dpdk seg l3_hdr udp_hdr info.ethertype))
  else (ol_flags, seg)

def tcp_cksum (info : testpmd_offload_info) (testpmd_ol_flags l3_hdr ol_flags : ℕ)
    (seg : Segment) : ℕ × Segment :=
  let tcp_hdr := l3_hdr + info.l3_len
  let seg := seg.store_le16 (tcp_hdr + 16) 0
  if info.tso_segsz ≠ 0 then
    let ol_flags := ol_flags ||| dpdk.PKT_TX_TCP_SEG
    (ol_flags,
      seg.store_le16 (tcp_hdr + 16) (get_psd_sum dpdk seg l3_hdr info.ethertype ol_flags))
  else if testpmd_ol_flags &&& TESTPMD_TX_OFFLOAD_TCP_CKSUM ≠ 0 then
    let ol_flags := ol_flags ||| dpdk.PKT_TX_TCP_CKSUM
    (ol_flags,
      seg.store_le16 (tcp_hdr + 16) (get_psd_sum dpdk seg l3_hdr info.ethertype ol_flags))
  else
    (ol_flags,
      seg.store_le16 (tcp_hdr + 16) (get_udptcp_checksum dpdk seg l3_hdr tcp_hdr info.ethertype))

/-- The checksum of SCTP is zero where it is not left to the device; the length is read as
    that of IPv4, and not in the order of the host. -/
def sctp_cksum (info : testpmd_offload_info) (testpmd_ol_flags l3_hdr ol_flags : ℕ)
    (seg : Segment) : ℕ × Segment :=
  let sctp_hdr := l3_hdr + info.l3_len
  let seg := seg.store (sctp_hdr + 8) [0, 0, 0, 0]
  if testpmd_ol_flags &&& TESTPMD_TX_OFFLOAD_SCTP_CKSUM ≠ 0 ∧
      seg.le16 (l3_hdr + 2) &&& 0x3 = 0 then
    (ol_flags ||| dpdk.PKT_TX_SCTP_CKSUM, seg)
  else (ol_flags, seg)

def process_inner_cksums (info : testpmd_offload_info) (testpmd_ol_flags l3_hdr : ℕ)
    (seg : Segment) : ℕ × Segment :=
  if info.ethertype ≠ ETHER_TYPE_IPv4 ∧ info.ethertype ≠ ETHER_TYPE_IPv6 then (0, seg)
  else
    let (ol_flags, seg) := inner_ip_cksum dpdk info testpmd_ol_flags l3_hdr seg
    if info.l4_proto = IPPROTO_UDP then udp_cksum dpdk info testpmd_ol_flags l3_hdr ol_flags seg
    else if info.l4_proto = IPPROTO_TCP then
      tcp_cksum dpdk info testpmd_ol_flags l3_hdr ol_flags seg
    else if info.l4_proto = IPPROTO_SCTP then
      sctp_cksum dpdk info testpmd_ol_flags l3_hdr ol_flags seg
    else (ol_flags, seg)

/-- The header of the outer IP. -/
def outer_ip_cksum (outer_ethertype testpmd_ol_flags outer_l3_hdr : ℕ) (seg : Segment) :
    ℕ × Segment :=
  if outer_ethertype = ETHER_TYPE_IPv4 then
    let seg := seg.store_le16 (outer_l3_hdr + 10) 0
    if testpmd_ol_flags &&& TESTPMD_TX_OFFLOAD_OUTER_IP_CKSUM ≠ 0 then
      (dpdk.PKT_TX_OUTER_IPV4 ||| dpdk.PKT_TX_OUTER_IP_CKSUM, seg)
    else
      (dpdk.PKT_TX_OUTER_IPV4,
        seg.store_le16 (outer_l3_hdr + 10) (dpdk.rte_ipv4_cksum seg outer_l3_hdr))
  else if testpmd_ol_flags &&& TESTPMD_TX_OFFLOAD_OUTER_IP_CKSUM ≠ 0 then
    (dpdk.PKT_TX_OUTER_IPV6, seg)
  else (0, seg)

/-- The checksum of the outer UDP, if there is one. -/
def outer_udp_cksum (outer_ethertype outer_l3_hdr udp_hdr : ℕ) (seg : Segment) : Segment :=
  if seg.le16 (udp_hdr + 6) ≠ 0 then
    let seg := seg.store_le16 (udp_hdr + 6) 0
    seg.store_le16 (udp_hdr + 6)
      (get_udptcp_checksum dpdk seg outer_l3_hdr udp_hdr outer_ethertype)
  else seg

def process_outer_cksums (info : testpmd_offload_info) (testpmd_ol_flags outer_l3_hdr : ℕ)
    (seg : Segment) : ℕ × Segment :=
  let (ol_flags, seg) := outer_ip_cksum dpdk info.outer_ethertype testpmd_ol_flags outer_l3_hdr seg
  if info.outer_l4_proto ≠ IPPROTO_UDP then (ol_flags, seg)
  else
    (ol_flags,
      outer_udp_cksum dpdk info.outer_ethertype outer_l3_hdr (outer_l3_hdr + info.outer_l3_len) seg)

end cksums

/-! ## Section 3: Bursts -/

/-- A packet with the other fields that describe it; its type is what the device said. -/
structure csum_mbuf extends rte_mbuf where
  packet_type : ℕ
  l4_len : ℕ
  outer_l2_len : ℕ
  outer_l3_len : ℕ
  tso_segsz : ℕ

/-- What a call meets; `tailroom` is the room in the buffers of the pool, and `random` is
    asked for each packet. -/
structure CsumCall where
  dpdk : Dpdk
  cfg : TxConfig
  txp : TxPort
  tso_segsz : ℕ
  peer_addr : ether_addr
  tailroom : ℕ
  random : ℕ → ℕ
  received : List csum_mbuf
  pool : List Segment
  answer : ℕ

/-- The info as it is cleared. -/
def CsumCall.cleared (call : CsumCall) : testpmd_offload_info where
  ethertype := 0
  l2_len := 0
  l3_len := 0
  l4_len := 0
  l4_proto := 0
  is_tunnel := false
  outer_ethertype := 0
  outer_l2_len := 0
  outer_l3_len := 0
  outer_l4_proto := 0
  tso_segsz := call.tso_segsz

/-- The new addresses of a packet. -/
def CsumCall.address (call : CsumCall) (seg : Segment) : Segment :=
  (seg.store_addr 0 call.peer_addr).store_addr 6 call.txp.eth_addr

/-- The packet dissected. -/
def CsumCall.dissect (call : CsumCall) (m : csum_mbuf) (info : testpmd_offload_info) :
    testpmd_offload_info × ℕ :=
  TestPmd.dissect call.txp.tx_ol_flags (call.dpdk.RTE_ETH_IS_TUNNEL_PKT m.packet_type)
    (call.address m.first) info

/-- The source addresses, and then the checksums, from the inside out; `outer_l3_hdr` is the
    first IP header. -/
def CsumCall.rewrite (call : CsumCall) (info : testpmd_offload_info) (outer_l3_hdr : ℕ)
    (seg : Segment) : ℕ × Segment :=
  let l3_hdr := info.inner outer_l3_hdr
  let seg := change_ip_addresses l3_hdr info.ethertype seg
  let seg :=
    if info.is_tunnel = true then change_ip_addresses outer_l3_hdr info.outer_ethertype seg
    else seg
  let (ol_flags, seg) := process_inner_cksums call.dpdk info call.txp.tx_ol_flags l3_hdr seg
  if info.is_tunnel = true then
    let (outer_ol_flags, seg) :=
      process_outer_cksums call.dpdk info call.txp.tx_ol_flags outer_l3_hdr seg
    (ol_flags ||| outer_ol_flags, seg)
  else (ol_flags, seg)

/-- The lengths for the device. -/
def CsumCall.describe (call : CsumCall) (info : testpmd_offload_info) (m : csum_mbuf) :
    csum_mbuf :=
  let m := { m with l3_len := info.l3_len, l4_len := info.l4_len, tso_segsz := info.tso_segsz }
  if info.is_tunnel = true then
    if call.txp.tx_ol_flags &&& TESTPMD_TX_OFFLOAD_OUTER_IP_CKSUM ≠ 0 then
      { m with
        outer_l2_len := info.outer_l2_len
        outer_l3_len := info.outer_l3_len
        l2_len := info.l2_len }
    else { m with l2_len := info.outer_l2_len + info.outer_l3_len + info.l2_len }
  else { m with l2_len := info.l2_len }

/-- One turn of the loop, up to the copy. -/
def CsumCall.process (call : CsumCall) (info : testpmd_offload_info) (m : csum_mbuf) :
    testpmd_offload_info × csum_mbuf :=
  let (info, outer_l3_hdr) := call.dissect m info
  let (ol_flags, first) := call.rewrite info outer_l3_hdr (call.address m.first)
  (info, { call.describe info m with first, ol_flags })

/-- The copy of a packet into segments, which takes its place if it succeeds. -/
def CsumCall.split (call : CsumCall) (i : ℕ) (m : csum_mbuf) (pool : List Segment) :
    csum_mbuf × List Segment :=
  match call.cfg.split with
  | .TX_PKT_SPLIT_OFF => (m, pool)
  | _ =>
    let seglens := call.cfg.lengths.take (call.cfg.nb_segs (call.random i))
    match pkt_copy_split call.tailroom seglens pool m.torte_mbuf with
    | (some p, pool) => ({ m with torte_mbuf := p }, m.segments ++ pool)
    | (none, pool) => (m, pool)

/-- The loop over the packets from `i` on. -/
def CsumCall.loop (call : CsumCall) :
    ℕ → testpmd_offload_info → List csum_mbuf → List Segment → List csum_mbuf × List Segment
  | _, _, [], pool => ([], pool)
  | i, info, m :: pkts_burst, pool =>
    let (info, m) := call.process info m
    let (m, pool) := call.split i m pool
    let (pkts, pool) := call.loop (i + 1) info pkts_burst pool
    (m :: pkts, pool)

/-- The counters of a stream in this mode. -/
structure CsumCounters extends Counters where
  rx_bad_ip_csum : ℕ
  rx_bad_l4_csum : ℕ
  deriving DecidableEq, Repr

structure CsumBurst where
  counters : CsumCounters
  sent : List csum_mbuf
  freed : List csum_mbuf
  pool : List Segment

/-- How many packets have a flag. -/
def flagged (flag : ℕ) (pkts : List csum_mbuf) : ℕ :=
  pkts.countP fun m => m.ol_flags &&& flag ≠ 0

def pkt_burst_checksum_forward (call : CsumCall) (c : CsumCounters) : CsumBurst :=
  if call.received = [] then ⟨c, [], [], call.pool⟩
  else
    let nb_rx := call.received.length
    let (pkts_burst, pool) := call.loop 0 call.cleared call.received call.pool
    let nb_tx := tx_burst call.answer nb_rx
    { counters :=
        { rx_packets := count c.rx_packets nb_rx
          tx_packets := count c.tx_packets nb_tx
          fwd_dropped :=
            if nb_tx < nb_rx then count c.fwd_dropped (nb_rx - nb_tx) else c.fwd_dropped
          rx_bad_ip_csum :=
            count c.rx_bad_ip_csum (flagged call.dpdk.PKT_RX_IP_CKSUM_BAD call.received)
          rx_bad_l4_csum :=
            count c.rx_bad_l4_csum (flagged call.dpdk.PKT_RX_L4_CKSUM_BAD call.received) }
      sent := pkts_burst.take nb_tx
      freed := pkts_burst.drop nb_tx
      pool }

end TestPmd
