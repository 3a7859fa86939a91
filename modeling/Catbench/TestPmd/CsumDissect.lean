import Catbench.TestPmd.CsumOnly

/-! # Packets of the forwarding mode `csum`, one by one

    What is outside of a tunnel is noted down, and the note of the protocol is not cleared for the
    next packet.  IP in IP does not write it, but reads it.

    * What is found out about a packet in the course of a burst and alone, and how it is
      processed.
    * Which bytes each function writes.
-/

namespace TestPmd

/-! ## Section 1: What is kept from one packet to the next -/

/-- What is found out about a packet of its own, with what was outside of a tunnel as it
    was before. -/
def testpmd_offload_info.over (info old : testpmd_offload_info) : testpmd_offload_info :=
  { info with
    outer_ethertype := old.outer_ethertype
    outer_l2_len := old.outer_l2_len
    outer_l3_len := old.outer_l3_len
    outer_l4_proto := old.outer_l4_proto }

section kept

variable {seg : Segment} {info old : testpmd_offload_info}

theorem parse_l2_spec (seg : Segment) (eth_hdr : ℕ) : ∃ ethertype l2_len, 14 ≤ l2_len ∧
    ∀ info, parse_l2 seg eth_hdr info = { info with ethertype, l2_len } := by
  unfold parse_l2
  dsimp only
  by_cases hvlan : seg.be16 (eth_hdr + 12) = ETHER_TYPE_VLAN
  · exact ⟨seg.be16 (eth_hdr + 16), 14 + 4, by decide, fun info => if_pos hvlan⟩
  · exact ⟨seg.be16 (eth_hdr + 12), 14, le_rfl, fun info => if_neg hvlan⟩

/-- What is found out about the Ethernet header and the IP header does not depend on what was
    known before, and nothing else is changed. -/
theorem parse_ethernet_spec (seg : Segment) (eth_hdr : ℕ) :
    ∃ ethertype l2_len l3_len l4_len l4_proto, 14 ≤ l2_len ∧
      (l4_proto ≠ 0 → ethertype = ETHER_TYPE_IPv4 ∨ ethertype = ETHER_TYPE_IPv6) ∧
      ∀ info, parse_ethernet seg eth_hdr info =
        { info with ethertype, l2_len, l3_len, l4_len, l4_proto } := by
  obtain ⟨ethertype, l2_len, hlen, hl2⟩ := parse_l2_spec seg eth_hdr
  unfold parse_ethernet parse_l3
  simp only [hl2]
  by_cases hv4 : ethertype = ETHER_TYPE_IPv4
  · exact ⟨ethertype, l2_len, _, _, _, hlen, fun _ => .inl hv4, fun info => if_pos hv4⟩
  · simp only [if_neg hv4]
    by_cases hv6 : ethertype = ETHER_TYPE_IPv6
    · exact ⟨ethertype, l2_len, _, _, _, hlen, fun _ => .inr hv6, fun info => if_pos hv6⟩
    · exact ⟨ethertype, l2_len, 0, 0, 0, hlen, fun h => absurd rfl h, fun info => if_neg hv6⟩

/-- `info` is what is known of a packet in a tunnel that has the headers of `p` outside. -/
structure Inside (p info : testpmd_offload_info) : Prop where
  is_tunnel : info.is_tunnel = true
  outer_ethertype : info.outer_ethertype = p.ethertype
  outer_l2_len : info.outer_l2_len = p.l2_len
  outer_l3_len : info.outer_l3_len = p.l3_len
  tso_segsz : info.tso_segsz = p.tso_segsz

theorem parse_vxlan_spec (seg : Segment) (udp_hdr : ℕ) (is_tunnel_pkt : Bool)
    (p : testpmd_offload_info) :
    (∀ old, parse_vxlan seg udp_hdr is_tunnel_pkt (p.over old) = p.over old) ∨
    ∃ info, Inside p info ∧ 30 ≤ info.l2_len ∧ info.outer_l4_proto = p.l4_proto ∧
      ∀ old, parse_vxlan seg udp_hdr is_tunnel_pkt (p.over old) = info := by
  unfold parse_vxlan
  by_cases hport : seg.be16 (udp_hdr + 2) ≠ 4789 ∧ is_tunnel_pkt = false
  · exact .inl fun old => if_pos hport
  · obtain ⟨ethertype, l2_len, l3_len, l4_len, l4_proto, hlen, -, heth⟩ :=
      parse_ethernet_spec seg (udp_hdr + 8 + 8)
    simp only [if_neg hport, heth]
    have hvxlan : 30 ≤ l2_len + ETHER_VXLAN_HLEN := Nat.add_le_add_right hlen 16
    exact .inr ⟨
      { p.enter with
        outer_l4_proto := p.l4_proto
        l2_len := l2_len + ETHER_VXLAN_HLEN
        ethertype, l3_len, l4_len, l4_proto },
      ⟨rfl, rfl, rfl, rfl, rfl⟩, hvxlan, rfl, fun old => rfl⟩

theorem parse_gre_spec (seg : Segment) (gre_hdr : ℕ) (p : testpmd_offload_info) :
    (∀ old, parse_gre seg gre_hdr (p.over old) = p.over old) ∨
    ∃ info, Inside p info ∧ info.outer_l4_proto = p.l4_proto ∧
      ∀ old, parse_gre seg gre_hdr (p.over old) = info := by
  unfold parse_gre
  dsimp only
  by_cases hflags : seg.be16 gre_hdr &&& (0xFFFF - GRE_KEY_PRESENT) ≠ 0
  · exact .inl fun old => if_pos hflags
  · simp only [if_neg hflags]
    generalize (if seg.be16 gre_hdr &&& GRE_KEY_PRESENT ≠ 0 then 4 + GRE_KEY_LEN else 4) = gre_len
    by_cases hv4 : seg.be16 (gre_hdr + 2) = ETHER_TYPE_IPv4
    · simp only [if_pos hv4]
      exact .inr ⟨
        { parse_ipv4 seg (gre_hdr + gre_len) { p.enter with outer_l4_proto := p.l4_proto } with
          ethertype := ETHER_TYPE_IPv4, l2_len := 0 + gre_len },
        ⟨rfl, rfl, rfl, rfl, rfl⟩, rfl, fun old => rfl⟩
    · simp only [if_neg hv4]
      by_cases hv6 : seg.be16 (gre_hdr + 2) = ETHER_TYPE_IPv6
      · simp only [if_pos hv6]
        exact .inr ⟨
          { parse_ipv6 seg (gre_hdr + gre_len) { p.enter with outer_l4_proto := p.l4_proto } with
            ethertype := ETHER_TYPE_IPv6, l2_len := 0 + gre_len },
          ⟨rfl, rfl, rfl, rfl, rfl⟩, rfl, fun old => rfl⟩
      · simp only [if_neg hv6]
        by_cases hteb : seg.be16 (gre_hdr + 2) = ETHER_TYPE_TEB
        · obtain ⟨ethertype, l2_len, l3_len, l4_len, l4_proto, -, -, heth⟩ :=
            parse_ethernet_spec seg (gre_hdr + gre_len)
          simp only [if_pos hteb, heth]
          exact .inr ⟨
            { p.enter with
              outer_l4_proto := p.l4_proto
              l2_len := l2_len + gre_len
              ethertype, l3_len, l4_len, l4_proto },
            ⟨rfl, rfl, rfl, rfl, rfl⟩, rfl, fun old => rfl⟩
        · exact .inl fun old => if_neg hteb

/-- The protocol outside is that of the tunnel before. -/
theorem parse_encap_ip_spec (seg : Segment) (encap_ip : ℕ) (p : testpmd_offload_info) :
    (∀ old, parse_encap_ip seg encap_ip (p.over old) = p.over old) ∨
    ∃ info, Inside p info ∧ ∀ old, parse_encap_ip seg encap_ip (p.over old) =
      { info with outer_l4_proto := old.outer_l4_proto } := by
  unfold parse_encap_ip
  dsimp only
  by_cases hver : seg.byte encap_ip / 16 ≠ 4 ∧ seg.byte encap_ip / 16 ≠ 6
  · exact .inl fun old => if_pos hver
  · simp only [if_neg hver]
    by_cases hv4 : seg.byte encap_ip / 16 = 4
    · simp only [if_pos hv4]
      exact .inr ⟨
        { parse_ipv4 seg encap_ip p.enter with ethertype := ETHER_TYPE_IPv4, l2_len := 0 },
        ⟨rfl, rfl, rfl, rfl, rfl⟩, fun old => rfl⟩
    · simp only [if_neg hv4]
      exact .inr ⟨
        { parse_ipv6 seg encap_ip p.enter with ethertype := ETHER_TYPE_IPv6, l2_len := 0 },
        ⟨rfl, rfl, rfl, rfl, rfl⟩, fun old => rfl⟩

theorem parse_tunnel_spec (seg : Segment) (l3_hdr : ℕ) (is_tunnel_pkt : Bool)
    (p : testpmd_offload_info) :
    (∀ old, parse_tunnel seg l3_hdr is_tunnel_pkt (p.over old) = p.over old) ∨
    p.l4_proto ≠ 0 ∧ ∃ info, Inside p info ∧
      ((info.outer_l4_proto ≠ 0 ∧ (info.outer_l4_proto = IPPROTO_UDP → 30 ≤ info.l2_len) ∧
          ∀ old, parse_tunnel seg l3_hdr is_tunnel_pkt (p.over old) = info) ∨
        ∀ old, parse_tunnel seg l3_hdr is_tunnel_pkt (p.over old) =
          { info with outer_l4_proto := old.outer_l4_proto }) := by
  unfold parse_tunnel
  have hproto : ∀ old, (p.over old).l4_proto = p.l4_proto := fun _ => rfl
  have hl3 : ∀ old, (p.over old).l3_len = p.l3_len := fun _ => rfl
  simp only [hproto, hl3]
  by_cases hudp : p.l4_proto = IPPROTO_UDP
  · have hne : p.l4_proto ≠ 0 := by rw [hudp]; decide
    simp only [if_pos hudp]
    rcases parse_vxlan_spec seg (l3_hdr + p.l3_len) is_tunnel_pkt p with h | h
    · exact .inl h
    · obtain ⟨info, hinside, hlen, houter, heq⟩ := h
      exact .inr ⟨hne, info, hinside, .inl ⟨houter ▸ hne, fun _ => hlen, heq⟩⟩
  · simp only [if_neg hudp]
    by_cases hgre : p.l4_proto = IPPROTO_GRE
    · have hne : p.l4_proto ≠ 0 := by rw [hgre]; decide
      simp only [if_pos hgre]
      rcases parse_gre_spec seg (l3_hdr + p.l3_len) p with h | h
      · exact .inl h
      · obtain ⟨info, hinside, houter, heq⟩ := h
        exact .inr ⟨hne, info, hinside,
          .inl ⟨houter ▸ hne, fun h => absurd (houter.symm.trans h) hudp, heq⟩⟩
    · simp only [if_neg hgre]
      by_cases hipip : p.l4_proto = IPPROTO_IPIP
      · have hne : p.l4_proto ≠ 0 := by rw [hipip]; decide
        simp only [if_pos hipip]
        rcases parse_encap_ip_spec seg (l3_hdr + p.l3_len) p with h | h
        · exact .inl h
        · obtain ⟨info, hinside, heq⟩ := h
          exact .inr ⟨hne, info, hinside, .inr heq⟩
      · exact .inl fun old => if_neg hipip

end kept

section turn

variable (call : CsumCall) (m : csum_mbuf)

/-- What is found out about a packet alone, and its first IP header. -/
def CsumCall.found : testpmd_offload_info × ℕ := call.dissect m call.cleared

/-- The protocol of the outer IP header that is noted down where a packet is in a tunnel; it
    is zero for IP in IP, where none is. -/
def CsumCall.tunnel : Option ℕ :=
  if (call.found m).1.is_tunnel = true then some (call.found m).1.outer_l4_proto else none

/-- The outer IP header of a packet in a tunnel, and where the inner one is. -/
structure Found (info : testpmd_offload_info) : Prop where
  outer_ethertype : info.outer_ethertype = ETHER_TYPE_IPv4 ∨ info.outer_ethertype = ETHER_TYPE_IPv6
  l2_len : info.outer_l4_proto = IPPROTO_UDP → 30 ≤ info.l2_len

/-- What is found out in the course of a burst. -/
theorem dissect_spec : 14 ≤ (call.found m).2 ∧ (call.found m).1.tso_segsz = call.tso_segsz ∧
    ((call.tunnel m = none ∧ (call.found m).1.is_tunnel = false ∧
        ∀ info, info.tso_segsz = call.tso_segsz →
          call.dissect m info = ((call.found m).1.over info, (call.found m).2)) ∨
      Found (call.found m).1 ∧ (call.found m).1.is_tunnel = true ∧
        ((∃ proto, proto ≠ 0 ∧ call.tunnel m = some proto ∧
            ∀ info, info.tso_segsz = call.tso_segsz → call.dissect m info = call.found m) ∨
          call.tunnel m = some 0 ∧
            ∀ info, info.tso_segsz = call.tso_segsz →
              call.dissect m info =
                ({ (call.found m).1 with outer_l4_proto := info.outer_l4_proto },
                  (call.found m).2))) := by
  obtain ⟨ethertype, l2_len, l3_len, l4_len, l4_proto, hlen, htype, heth⟩ :=
    parse_ethernet_spec (call.address m.first) 0
  -- the first headers, which every packet has
  let p : testpmd_offload_info :=
    { call.cleared with ethertype, l2_len, l3_len, l4_len, l4_proto }
  have hdissect : ∀ info, info.tso_segsz = call.tso_segsz → call.dissect m info =
      (if call.txp.tx_ol_flags &&& TESTPMD_TX_OFFLOAD_PARSE_TUNNEL ≠ 0 then
        parse_tunnel (call.address m.first) l2_len (call.dpdk.RTE_ETH_IS_TUNNEL_PKT m.packet_type)
          (p.over info)
      else p.over info, l2_len) := by
    intro info htso
    have hp : parse_ethernet (call.address m.first) 0 { info with is_tunnel := false } =
        p.over info := by
      rw [heth, htso]
      rfl
    unfold CsumCall.dissect dissect
    rw [hp]
    rfl
  have hcleared : call.cleared.tso_segsz = call.tso_segsz := rfl
  have hfound : call.found m = _ := hdissect call.cleared hcleared
  -- no tunnel is found, or none is looked for
  have hnone : (∀ info, info.tso_segsz = call.tso_segsz →
      call.dissect m info = (p.over info, l2_len)) →
      (call.found m).1.tso_segsz = call.tso_segsz ∧ call.tunnel m = none ∧
        (call.found m).1.is_tunnel = false ∧ ∀ info, info.tso_segsz = call.tso_segsz →
          call.dissect m info = ((call.found m).1.over info, (call.found m).2) := by
    intro h
    have hm : call.found m = (p.over call.cleared, l2_len) := h call.cleared hcleared
    unfold CsumCall.tunnel
    rw [hm]
    exact ⟨rfl, rfl, rfl, fun info htso => h info htso⟩
  refine ⟨by rw [hfound]; exact hlen, ?_⟩
  by_cases hflag : call.txp.tx_ol_flags &&& TESTPMD_TX_OFFLOAD_PARSE_TUNNEL ≠ 0
  · simp only [if_pos hflag] at hdissect hfound
    rcases parse_tunnel_spec (call.address m.first) l2_len
      (call.dpdk.RTE_ETH_IS_TUNNEL_PKT m.packet_type) p with h | ⟨hproto, info, hinside, h⟩
    · simp only [h] at hdissect
      exact ⟨(hnone hdissect).1, .inl (hnone hdissect).2⟩
    · have houter : info.outer_ethertype = ETHER_TYPE_IPv4 ∨
          info.outer_ethertype = ETHER_TYPE_IPv6 := hinside.outer_ethertype ▸ htype hproto
      rcases h with ⟨hne, hudp, h⟩ | h
      · simp only [h] at hdissect hfound
        unfold CsumCall.tunnel
        rw [hfound, if_pos hinside.is_tunnel]
        exact ⟨hinside.tso_segsz, .inr ⟨⟨houter, hudp⟩, hinside.is_tunnel,
          .inl ⟨_, hne, rfl, hdissect⟩⟩⟩
      · simp only [h] at hdissect hfound
        have hzero : IPPROTO_UDP ≠ 0 := by decide
        unfold CsumCall.tunnel
        rw [hfound, if_pos hinside.is_tunnel]
        exact ⟨hinside.tso_segsz, .inr ⟨⟨houter, fun h => absurd h.symm hzero⟩,
          hinside.is_tunnel, .inr ⟨rfl, hdissect⟩⟩⟩
  · simp only [if_neg hflag] at hdissect
    exact ⟨(hnone hdissect).1, .inl (hnone hdissect).2⟩

/-- A packet as it is processed alone. -/
def CsumCall.alone : csum_mbuf := (call.process call.cleared m).2

/-- A packet of IP in IP whose inner header has been taken for that of UDP. -/
def CsumCall.misread : csum_mbuf :=
  let (info, outer_l3_hdr) := call.found m
  { call.alone m with
    first := outer_udp_cksum call.dpdk info.outer_ethertype outer_l3_hdr
      (outer_l3_hdr + info.outer_l3_len) (call.alone m).first }

/-- The outer protocol that is known behind a packet. -/
def CsumCall.noted (old : ℕ) : ℕ :=
  match call.tunnel m with
  | none | some 0 => old
  | some proto => proto

variable {call m} {info : testpmd_offload_info}

/-- A packet outside of tunnels is rewritten whatever was outside of one before. -/
theorem rewrite_over (call : CsumCall) (found old : testpmd_offload_info) (l3_hdr : ℕ)
    (seg : Segment) (h : found.is_tunnel = false) :
    call.rewrite (found.over old) l3_hdr seg = call.rewrite found l3_hdr seg ∧
      call.describe (found.over old) = call.describe found := by
  cases found
  dsimp only at h
  subst h
  exact ⟨rfl, rfl⟩

/-- With the outer protocol that is left from before, IP in IP is rewritten as it would be
    without one, and then the checksum of UDP is put into it. -/
theorem rewrite_encap (found : testpmd_offload_info) (proto l3_hdr : ℕ) (seg : Segment)
    (htunnel : found.is_tunnel = true) (hzero : found.outer_l4_proto = 0) :
    call.rewrite { found with outer_l4_proto := proto } l3_hdr seg =
      ((call.rewrite found l3_hdr seg).1,
        if proto = IPPROTO_UDP then
          outer_udp_cksum call.dpdk found.outer_ethertype l3_hdr (l3_hdr + found.outer_l3_len)
            (call.rewrite found l3_hdr seg).2
        else (call.rewrite found l3_hdr seg).2) := by
  have hne : found.outer_l4_proto ≠ IPPROTO_UDP := by rw [hzero]; decide
  unfold CsumCall.rewrite testpmd_offload_info.inner process_outer_cksums
  simp only [htunnel, if_true, if_pos hne]
  by_cases hudp : proto = IPPROTO_UDP
  · rw [if_pos hudp, if_neg (not_not.mpr hudp)]
    rfl
  · rw [if_neg hudp, if_pos hudp]
    rfl

/-- One turn, in the course of a burst. -/
theorem process_spec (call : CsumCall) (m : csum_mbuf) (htso : info.tso_segsz = call.tso_segsz) :
    (call.process info m).1.tso_segsz = call.tso_segsz ∧
      (call.process info m).1.outer_l4_proto = call.noted m info.outer_l4_proto ∧
      (call.process info m).2 =
        if call.tunnel m = some 0 ∧ info.outer_l4_proto = IPPROTO_UDP then call.misread m
        else call.alone m := by
  obtain ⟨-, hm, ⟨hnone, htunnel, h⟩ | ⟨-, htunnel, ⟨proto, hne, hsome, h⟩ | ⟨hzero, h⟩⟩⟩ :=
    dissect_spec call m
  · have hcond : ¬(call.tunnel m = some 0 ∧ info.outer_l4_proto = IPPROTO_UDP) := by simp [hnone]
    obtain ⟨hrewrite, hdescribe⟩ :=
      rewrite_over call (call.found m).1 info (call.found m).2 (call.address m.first)
        htunnel
    have hnoted : call.noted m info.outer_l4_proto = info.outer_l4_proto := by
      unfold CsumCall.noted
      rw [hnone]
    rw [if_neg hcond, hnoted]
    unfold CsumCall.alone CsumCall.process
    rw [h info htso]
    dsimp only
    rw [hrewrite, hdescribe]
    exact ⟨hm, rfl, rfl⟩
  · have hcond : ¬(call.tunnel m = some 0 ∧ info.outer_l4_proto = IPPROTO_UDP) := by
      rw [hsome]
      exact fun h => hne (Option.some.inj h.1)
    have hproto : (call.found m).1.outer_l4_proto = proto := by
      unfold CsumCall.tunnel at hsome
      rw [if_pos htunnel] at hsome
      exact Option.some.inj hsome
    have hnoted : call.noted m info.outer_l4_proto = proto := by
      unfold CsumCall.noted
      rw [hsome]
      cases proto with
      | zero => exact absurd rfl hne
      | succ k => rfl
    rw [if_neg hcond, hnoted]
    unfold CsumCall.alone CsumCall.process
    rw [h info htso]
    exact ⟨hm, hproto, rfl⟩
  · have hproto : (call.found m).1.outer_l4_proto = 0 := by
      unfold CsumCall.tunnel at hzero
      rw [if_pos htunnel] at hzero
      exact Option.some.inj hzero
    have hnoted : call.noted m info.outer_l4_proto = info.outer_l4_proto := by
      unfold CsumCall.noted
      rw [hzero]
      rfl
    rw [hnoted]
    unfold CsumCall.misread CsumCall.alone CsumCall.process
    rw [h info htso]
    dsimp only
    rw [rewrite_encap (call.found m).1 info.outer_l4_proto _ _ htunnel hproto]
    refine ⟨hm, rfl, ?_⟩
    by_cases hudp : info.outer_l4_proto = IPPROTO_UDP
    · rw [if_pos hudp, if_pos ⟨hzero, hudp⟩]
      rfl
    · rw [if_neg hudp, if_neg fun h => hudp h.2]
      rfl

end turn

/-! ## Section 2: What is written -/

section written

open Segment (Edited)

variable (dpdk : Dpdk) (info : testpmd_offload_info)

theorem edited_change_ip_addresses (l3_hdr ethertype : ℕ) (seg : Segment) :
    Edited (fun i => l3_hdr + 12 ≤ i ∧ i < l3_hdr + 24) seg
      (change_ip_addresses l3_hdr ethertype seg) := by
  unfold change_ip_addresses
  split
  · exact (Edited.refl _ seg).store_be32 fun i hlow hhigh => ⟨hlow, by omega⟩
  · split
    · refine (Edited.refl _ seg).store fun i hlow hhigh => ?_
      have hi : i < l3_hdr + 8 + 15 + 1 := hhigh
      exact ⟨by omega, by omega⟩
    · exact Edited.refl _ seg

theorem edited_inner_ip_cksum (testpmd_ol_flags l3_hdr : ℕ) (seg : Segment) :
    Edited (fun i => l3_hdr + 10 ≤ i ∧ i < l3_hdr + 12) seg
      (inner_ip_cksum dpdk info testpmd_ol_flags l3_hdr seg).2 := by
  have hzero : Edited (fun i => l3_hdr + 10 ≤ i ∧ i < l3_hdr + 12) seg
      (seg.store_le16 (l3_hdr + 10) 0) :=
    (Edited.refl _ seg).store_le16 ⟨by omega, by omega⟩ ⟨by omega, by omega⟩
  unfold inner_ip_cksum
  split
  · dsimp only
    split
    · exact hzero
    · split
      · exact hzero
      · exact hzero.store_le16 ⟨by omega, by omega⟩ ⟨by omega, by omega⟩
  · exact Edited.refl _ seg

theorem edited_udp_cksum (testpmd_ol_flags l3_hdr ol_flags : ℕ) (seg : Segment) :
    Edited (l3_hdr + info.l3_len + 6 ≤ ·) seg
      (udp_cksum dpdk info testpmd_ol_flags l3_hdr ol_flags seg).2 := by
  have hstore : ∀ {seg'} w, Edited (l3_hdr + info.l3_len + 6 ≤ ·) seg seg' →
      Edited (l3_hdr + info.l3_len + 6 ≤ ·) seg
        (seg'.store_le16 (l3_hdr + info.l3_len + 6) w) :=
    fun w h => h.store_le16 (Nat.le_refl _) (Nat.le_succ _)
  unfold udp_cksum
  dsimp only
  split
  · split
    · exact hstore _ (hstore 0 (Edited.refl _ seg))
    · exact hstore _ (hstore 0 (Edited.refl _ seg))
  · exact Edited.refl _ seg

theorem edited_tcp_cksum (testpmd_ol_flags l3_hdr ol_flags : ℕ) (seg : Segment) :
    Edited (l3_hdr + info.l3_len + 6 ≤ ·) seg
      (tcp_cksum dpdk info testpmd_ol_flags l3_hdr ol_flags seg).2 := by
  have hstore : ∀ {seg'} w, Edited (l3_hdr + info.l3_len + 6 ≤ ·) seg seg' →
      Edited (l3_hdr + info.l3_len + 6 ≤ ·) seg
        (seg'.store_le16 (l3_hdr + info.l3_len + 16) w) :=
    fun w h => h.store_le16 (by omega) (by omega)
  unfold tcp_cksum
  dsimp only
  split
  · exact hstore _ (hstore 0 (Edited.refl _ seg))
  · split
    · exact hstore _ (hstore 0 (Edited.refl _ seg))
    · exact hstore _ (hstore 0 (Edited.refl _ seg))

theorem edited_sctp_cksum (testpmd_ol_flags l3_hdr ol_flags : ℕ) (seg : Segment) :
    Edited (l3_hdr + info.l3_len + 6 ≤ ·) seg
      (sctp_cksum dpdk info testpmd_ol_flags l3_hdr ol_flags seg).2 := by
  have hzero : Edited (l3_hdr + info.l3_len + 6 ≤ ·) seg
      (seg.store (l3_hdr + info.l3_len + 8) [0, 0, 0, 0]) :=
    (Edited.refl _ seg).store fun i hlow _ => by omega
  unfold sctp_cksum
  dsimp only
  split
  · exact hzero
  · exact hzero

/-- Of the inner headers, the checksum of IPv4 is written, and what is behind the IP header. -/
theorem edited_process_inner_cksums (testpmd_ol_flags l3_hdr : ℕ) (seg : Segment) :
    Edited (fun i => (l3_hdr + 10 ≤ i ∧ i < l3_hdr + 12) ∨ l3_hdr + info.l3_len + 6 ≤ i) seg
      (process_inner_cksums dpdk info testpmd_ol_flags l3_hdr seg).2 := by
  have hip := (edited_inner_ip_cksum dpdk info testpmd_ol_flags l3_hdr
    seg).mono fun i hi => Or.inl (b := l3_hdr + info.l3_len + 6 ≤ i) hi
  have hl4 : ∀ i, l3_hdr + info.l3_len + 6 ≤ i →
      (l3_hdr + 10 ≤ i ∧ i < l3_hdr + 12) ∨ l3_hdr + info.l3_len + 6 ≤ i := fun _ => .inr
  unfold process_inner_cksums
  split
  · exact Edited.refl _ seg
  · dsimp only
    split
    · exact hip.trans ((edited_udp_cksum _ _ _ _ _ _).mono hl4)
    · split
      · exact hip.trans ((edited_tcp_cksum _ _ _ _ _ _).mono hl4)
      · split
        · exact hip.trans ((edited_sctp_cksum _ _ _ _ _ _).mono hl4)
        · exact hip

theorem edited_outer_ip_cksum (outer_ethertype testpmd_ol_flags outer_l3_hdr : ℕ)
    (seg : Segment) :
    Edited (fun i => outer_l3_hdr + 10 ≤ i ∧ i < outer_l3_hdr + 12) seg
      (outer_ip_cksum dpdk outer_ethertype testpmd_ol_flags outer_l3_hdr seg).2 := by
  have hzero : Edited (fun i => outer_l3_hdr + 10 ≤ i ∧ i < outer_l3_hdr + 12) seg
      (seg.store_le16 (outer_l3_hdr + 10) 0) :=
    (Edited.refl _ seg).store_le16 ⟨by omega, by omega⟩ ⟨by omega, by omega⟩
  unfold outer_ip_cksum
  split
  · dsimp only
    split
    · exact hzero
    · exact hzero.store_le16 ⟨by omega, by omega⟩ ⟨by omega, by omega⟩
  · split
    · exact Edited.refl _ seg
    · exact Edited.refl _ seg

theorem edited_outer_udp_cksum (outer_ethertype outer_l3_hdr udp_hdr : ℕ) (seg : Segment) :
    Edited (fun i => udp_hdr + 6 ≤ i ∧ i < udp_hdr + 8) seg
      (outer_udp_cksum dpdk outer_ethertype outer_l3_hdr udp_hdr seg) := by
  unfold outer_udp_cksum
  split
  · rw [Segment.store_le16_store_le16]
    exact (Edited.refl _ seg).store_le16 ⟨by omega, by omega⟩ ⟨by omega, by omega⟩
  · exact Edited.refl _ seg

/-- Packets are rewritten in place. -/
theorem edited_rewrite (call : CsumCall) (outer_l3_hdr : ℕ) (seg : Segment) :
    Edited (fun _ => True) seg (call.rewrite info outer_l3_hdr seg).2 := by
  have hall : ∀ {places : ℕ → Prop} {seg seg'}, Edited places seg seg' →
      Edited (fun _ => True) seg seg' := fun h => h.mono fun _ _ => trivial
  unfold CsumCall.rewrite
  dsimp only
  have hinner := fun seg => hall (edited_process_inner_cksums call.dpdk info
    call.txp.tx_ol_flags (info.inner outer_l3_hdr) seg)
  have hchange := hall (edited_change_ip_addresses (info.inner outer_l3_hdr) info.ethertype seg)
  split
  · have houter := hall (edited_change_ip_addresses outer_l3_hdr info.outer_ethertype
      (change_ip_addresses (info.inner outer_l3_hdr) info.ethertype seg))
    refine ((hchange.trans houter).trans (hinner _)).trans ?_
    unfold process_outer_cksums
    dsimp only
    split
    · exact hall (edited_outer_ip_cksum _ _ _ _ _)
    · exact (hall (edited_outer_ip_cksum _ _ _ _ _)).trans (hall (edited_outer_udp_cksum _ _ _ _ _))
  · exact hchange.trans (hinner _)

end written

end TestPmd
