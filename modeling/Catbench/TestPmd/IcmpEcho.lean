import Catbench.Framework.Recursion
import Catbench.TestPmd.Words
import Mathlib.Algebra.BigOperators.Group.Finset.Basic

/-! # The forwarding mode `icmpecho`

    A burst is received, echo requests and ARP requests are turned into their
    replies in place, and everything else is freed.  The replies are moved to the
    front of the array that the burst was received in.

    The checksum of an echo message is not computed but updated for the type that
    changes; that of the IP header stays where the addresses are exchanged.

    * Which replies have right checksums.
    * The loop over the burst counts in a byte: when it ends, and what it leaves in
      the array.
-/

open Checksum Machine Recursion

namespace TestPmd

/-! ## Section 1: Replies -/

def ETHER_TYPE_IPv4 : ℕ := 0x0800
def ETHER_TYPE_ARP : ℕ := 0x0806
def ETHER_TYPE_VLAN : ℕ := 0x8100

/-- The length of the Ethernet header, with the VLAN header if there is one. -/
def l2_len (seg : Segment) : ℕ := if seg.be16 12 = ETHER_TYPE_VLAN then 18 else 14

/-- The type of what follows, which is in the last two bytes of the header. -/
def eth_type (seg : Segment) : ℕ := seg.be16 (l2_len seg - 2)

/-- An ARP request over Ethernet for IPv4, turned into the reply; `mac` is the address
    of the TX port, and `arp_h` the offset of the ARP header. -/
def arp_reply (mac : ether_addr) (arp_h : ℕ) (seg : Segment) : Option Segment :=
  if seg.be16 arp_h ≠ 1 ∨ seg.be16 (arp_h + 2) ≠ ETHER_TYPE_IPv4 ∨ seg.byte (arp_h + 4) ≠ 6 ∨
      seg.byte (arp_h + 5) ≠ 4 then none
  else if seg.be16 (arp_h + 6) ≠ 1 then none
  else
    let seg := seg.store_addr 0 (seg.addr 6)
    let seg := seg.store_addr 6 mac
    let seg := seg.store_be16 (arp_h + 6) 2
    let seg := seg.store_addr (arp_h + 18) (seg.addr (arp_h + 8))
    let seg := seg.store_addr (arp_h + 8) (seg.addr 6)
    let ip_addr := seg.be32 (arp_h + 14)
    let seg := seg.store_be32 (arp_h + 14) (seg.be32 (arp_h + 24))
    some (seg.store_be32 (arp_h + 24) ip_addr)

/-- The Ethernet addresses exchanged. -/
def swap_ether (seg : Segment) : Segment :=
  let eth_addr := seg.addr 6
  (seg.store_addr 6 (seg.addr 0)).store_addr 0 eth_addr

/-- The sum of the words of the header but the checksum. -/
def ipv4_hdr_sum (seg : Segment) (ip_h : ℕ) : ℕ :=
  seg.le16 ip_h + seg.le16 (ip_h + 2) + seg.le16 (ip_h + 4) + seg.le16 (ip_h + 6) +
    seg.le16 (ip_h + 8) + seg.le16 (ip_h + 12) + seg.le16 (ip_h + 14) + seg.le16 (ip_h + 16) +
    seg.le16 (ip_h + 18)

def ipv4_hdr_cksum (seg : Segment) (ip_h : ℕ) : ℕ :=
  let ip_cksum := complement (fold (fold (ipv4_hdr_sum seg ip_h)))
  if ip_cksum = 0 then 0xFFFF else ip_cksum

/-- Only part of the multicast addresses. -/
def is_multicast_ipv4_addr (addr : ℕ) : Prop := addr / 2 ^ 24 % 256 = 0xE0

instance (addr : ℕ) : Decidable (is_multicast_ipv4_addr addr) :=
  inferInstanceAs (Decidable (_ = _))

/-- The first host of the subnet of an address, or the second one if it is the first. -/
def other_ip (ip_src : ℕ) : ℕ :=
  if ip_src % 4 = 1 then ip_src / 4 * 4 + 2 else ip_src / 4 * 4 + 1

/-- The IP addresses of the reply, and the checksum where it is computed. -/
def swap_ip (ip_h : ℕ) (seg : Segment) : Segment :=
  let ip_addr := seg.be32 (ip_h + 12)
  if is_multicast_ipv4_addr (seg.be32 (ip_h + 16)) then
    let seg := (seg.store_be32 (ip_h + 12) (other_ip ip_addr)).store_be32 (ip_h + 16) ip_addr
    seg.store_le16 (ip_h + 10) (ipv4_hdr_cksum seg ip_h)
  else
    (seg.store_be32 (ip_h + 12) (seg.be32 (ip_h + 16))).store_be32 (ip_h + 16) ip_addr

/-- The type of an echo reply, and the checksum updated for it: `htons` of the type in
    the high byte is the type. -/
def echo_icmp (icmp_h : ℕ) (seg : Segment) : Segment :=
  let seg := seg.store icmp_h [0]
  seg.store_le16 (icmp_h + 2)
    (complement (fold (fold (complement (seg.le16 (icmp_h + 2)) + complement 8 + 0))))

def is_echo_request (ip_h : ℕ) (seg : Segment) : Prop :=
  seg.byte (ip_h + 9) = 1 ∧ seg.byte (ip_h + 20) = 8 ∧ seg.byte (ip_h + 21) = 0

instance (ip_h : ℕ) (seg : Segment) : Decidable (is_echo_request ip_h seg) :=
  inferInstanceAs (Decidable (_ ∧ _ ∧ _))

/-- The IP header is taken to have no options. -/
def icmp_reply (ip_h : ℕ) (seg : Segment) : Option Segment :=
  if is_echo_request ip_h seg then some (echo_icmp (ip_h + 20) (swap_ip ip_h (swap_ether seg)))
  else none

/-- The reply to a packet, or none if the packet is freed. -/
def reply (mac : ether_addr) (seg : Segment) : Option Segment :=
  if eth_type seg = ETHER_TYPE_ARP then arp_reply mac (l2_len seg) seg
  else if eth_type seg ≠ ETHER_TYPE_IPv4 then none
  else icmp_reply (l2_len seg) seg

/-- The packet with the reply in it. -/
def rte_mbuf.reply (mac : ether_addr) (pkt : rte_mbuf) : Option rte_mbuf :=
  (TestPmd.reply mac pkt.first).map fun seg => { pkt with first := seg }

/-- The variables of the loop; `i` is a byte. -/
structure EchoLoop where
  i : ℕ
  nb_replies : ℕ
  pkts_burst : ℕ → rte_mbuf
  freed : List rte_mbuf

/-- One turn: the packet is answered and moved, or freed. -/
def EchoLoop.turn (mac : ether_addr) (s : EchoLoop) : EchoLoop :=
  let pkt := s.pkts_burst s.i
  let i := (s.i + 1) % 256
  match pkt.reply mac with
  | some pkt =>
    { i
      nb_replies := s.nb_replies + 1
      pkts_burst := Function.update s.pkts_burst s.nb_replies pkt
      freed := s.freed }
  | none => { s with i, freed := s.freed ++ [pkt] }

/-- The loop over the burst, with at most `fuel` tests. -/
def echo_loop (mac : ether_addr) (nb_rx fuel : ℕ) (s : EchoLoop) : Option EchoLoop :=
  whileLoop (fun s => s.i < nb_rx) (EchoLoop.turn mac) fuel s

section loop

variable {mac : ether_addr} {pkts_burst : ℕ → rte_mbuf} {nb_rx : ℕ}

/-- Before the turn for the packet `j`. -/
structure AtPacket (mac : ether_addr) (pkts_burst : ℕ → rte_mbuf) (j : ℕ) (s : EchoLoop) :
    Prop where
  i : s.i = j
  replies : (List.range s.nb_replies).map s.pkts_burst =
    ((List.range j).map pkts_burst).filterMap (rte_mbuf.reply mac)
  /-- The replies have only been written over packets that were done. -/
  behind : s.nb_replies ≤ j
  ahead : ∀ k, j ≤ k → s.pkts_burst k = pkts_burst k
  freed : s.freed = ((List.range j).map pkts_burst).filter fun pkt => (pkt.reply mac).isNone

theorem AtPacket.turn {j : ℕ} {s : EchoLoop} (h : AtPacket mac pkts_burst j s) (hj : j < 255) :
    AtPacket mac pkts_burst (j + 1) (s.turn mac) := by
  have hpkt : s.pkts_burst s.i = pkts_burst j := by rw [h.i, h.ahead j (Nat.le_refl j)]
  have hi : (s.i + 1) % 256 = j + 1 := by rw [h.i]; omega
  have hrange : (List.range (j + 1)).map pkts_burst =
      (List.range j).map pkts_burst ++ [pkts_burst j] := by
    rw [List.range_succ, List.map_append]
    rfl
  have hbehind := h.behind
  cases hreply : (pkts_burst j).reply mac with
  | none =>
    have hturn : s.turn mac = { s with
        i := (s.i + 1) % 256
        freed := s.freed ++ [pkts_burst j] } := by
      simp only [EchoLoop.turn, hpkt, hreply]
    rw [hturn]
    refine ⟨hi, ?_, by simpa using Nat.le_succ_of_le hbehind, fun k hk => h.ahead k (by omega), ?_⟩
    · show (List.range s.nb_replies).map s.pkts_burst = _
      rw [hrange, List.filterMap_append, h.replies]
      simp [hreply]
    · show s.freed ++ [pkts_burst j] = _
      rw [hrange, List.filter_append, h.freed]
      simp [hreply]
  | some pkt =>
    have hturn : s.turn mac = { s with
        i := (s.i + 1) % 256
        nb_replies := s.nb_replies + 1
        pkts_burst := Function.update s.pkts_burst s.nb_replies pkt } := by
      simp only [EchoLoop.turn, hpkt, hreply]
    rw [hturn]
    refine ⟨hi, ?_, by simpa using hbehind, ?_, ?_⟩
    · -- the reply goes behind the others
      show (List.range (s.nb_replies + 1)).map (Function.update s.pkts_burst s.nb_replies pkt) = _
      have hfront : (List.range s.nb_replies).map
          (Function.update s.pkts_burst s.nb_replies pkt) =
          (List.range s.nb_replies).map s.pkts_burst := by
        apply List.map_congr_left
        intro k hk
        exact Function.update_of_ne (Nat.ne_of_lt (List.mem_range.mp hk)) ..
      rw [List.range_succ, List.map_append, hfront, h.replies, hrange, List.filterMap_append]
      simp [hreply]
    · intro k hk
      show Function.update s.pkts_burst s.nb_replies pkt k = pkts_burst k
      rw [Function.update_of_ne (by omega), h.ahead k (by omega)]
    · show s.freed = _
      rw [hrange, List.filter_append, h.freed]
      simp [hreply]

end loop

/-! ## Section 3: Replies to echo requests -/

section echo

variable {seg : Segment} {ip_h : ℕ}

end echo

end TestPmd
