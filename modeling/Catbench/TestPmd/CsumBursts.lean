import Catbench.TestPmd.CsumChecks

/-! # Bursts in the forwarding mode `csum`

    * When the packets of a burst are processed as they would be alone.
    * No packet and no buffer is lost.
-/

namespace TestPmd

/-! ## Section 1: Packets of a burst and packets alone -/

/-- The packets of a burst, up to the copies. -/
def CsumCall.processed (call : CsumCall) :
    testpmd_offload_info → List csum_mbuf → List csum_mbuf
  | _, [] => []
  | info, m :: pkts_burst =>
    let (info, m) := call.process info m
    m :: call.processed info pkts_burst

theorem length_processed (call : CsumCall) (info : testpmd_offload_info)
    (pkts : List csum_mbuf) : (call.processed info pkts).length = pkts.length := by
  induction pkts generalizing info with
  | nil => rfl
  | cons m pkts ih => exact congrArg (· + 1) (ih (call.process info m).1)

/-- The outer protocol that is known behind some packets. -/
def CsumCall.outer_proto (call : CsumCall) (pkts : List csum_mbuf) : ℕ :=
  pkts.foldl (fun old m => call.noted m old) 0

section alone

variable {call : CsumCall} {info : testpmd_offload_info}

/-- The word that is taken for the checksum of UDP in a packet of IP in IP, and what is put in
    its place. -/
def CsumCall.misread_word (call : CsumCall) (m : csum_mbuf) : ℕ × ℕ :=
  let (info, outer_l3_hdr) := call.found m
  let udp_hdr := outer_l3_hdr + info.outer_l3_len
  let seg := (call.alone m).first
  (seg.le16 (udp_hdr + 6),
    get_udptcp_checksum call.dpdk (seg.store_le16 (udp_hdr + 6) 0) outer_l3_hdr udp_hdr
      info.outer_ethertype)

/-- It makes no difference where the word is zero or is what is put in its place. -/
theorem misread_eq_alone_iff (hdpdk : call.dpdk.Cksums) (m : csum_mbuf) :
    call.misread m = call.alone m ↔
      (call.misread_word m).1 = 0 ∨ (call.misread_word m).2 = (call.misread_word m).1 := by
  unfold CsumCall.misread_word CsumCall.misread outer_udp_cksum
  dsimp only
  generalize call.alone m = p
  generalize (call.found m).2 + (call.found m).1.outer_l3_len = udp_hdr
  have hlt := get_udptcp_checksum_lt hdpdk (p.first.store_le16 (udp_hdr + 6) 0)
    (call.found m).2 udp_hdr (call.found m).1.outer_ethertype
  generalize get_udptcp_checksum call.dpdk _ _ _ _ = cksum at hlt ⊢
  have hfirst : ∀ first, { p with first } = p ↔ first = p.first := by
    intro first
    constructor
    · intro h
      rw [← h]
    · intro h
      rw [h]
  rw [hfirst]
  split
  · next hne =>
    rw [Segment.store_le16_store_le16]
    constructor
    · intro h
      right
      rw [← Segment.le16_store_le16 hlt, h]
    · rintro (hzero | heq)
      · exact absurd hzero hne
      · exact Segment.store_le16_eq_self heq.symm
  · next hzero => exact iff_of_true rfl (.inl (not_not.mp hzero))

/-- The run of the loop: where the tunnel before was one of UDP, IP in IP is misread. -/
theorem processed_eq_alone_iff (call : CsumCall) (pkts : List csum_mbuf)
    (htso : info.tso_segsz = call.tso_segsz) :
    call.processed info pkts = pkts.map call.alone ↔
      ∀ front m, front ++ [m] <+: pkts → call.tunnel m = some 0 →
        front.foldl (fun old m => call.noted m old) info.outer_l4_proto = IPPROTO_UDP →
        call.misread m = call.alone m := by
  induction pkts generalizing info with
  | nil => simp [CsumCall.processed]
  | cons m pkts ih =>
    obtain ⟨hkept, hnoted, hm⟩ := process_spec call m htso
    show (call.process info m).2 :: call.processed (call.process info m).1 pkts =
      call.alone m :: pkts.map call.alone ↔ _
    rw [List.cons.injEq, ih hkept, hnoted, hm]
    -- a packet with those before it is the first one, or one of the others behind it
    constructor
    · intro ⟨hfirst, hrest⟩ front m' hpre htunnel hudp
      cases front with
      | nil =>
        obtain rfl : m' = m := (List.cons_prefix_cons.mp hpre).1
        rwa [if_pos ⟨htunnel, hudp⟩] at hfirst
      | cons m'' front =>
        obtain ⟨rfl, hpre'⟩ := List.cons_prefix_cons.mp hpre
        exact hrest front m' hpre' htunnel hudp
    · intro h
      constructor
      · split
        · next hcond => exact h [] m (List.prefix_append [m] pkts) hcond.1 hcond.2
        · rfl
      · intro front m' hpre
        exact h (m :: front) m' (List.cons_prefix_cons.mpr ⟨rfl, hpre⟩)

/-- **The packets of a burst are processed as they would be alone**, exactly if no packet of IP in
    IP comes behind one of VXLAN without one of GRE between them, except where it makes no
    difference: what `outer_l4_proto` is left from the tunnel before, and the inner header is
    taken for that of UDP. -/
theorem csum_alone_iff (call : CsumCall) (hdpdk : call.dpdk.Cksums) :
    call.processed call.cleared call.received = call.received.map call.alone ↔
      ∀ front m, front ++ [m] <+: call.received → call.tunnel m = some 0 →
        call.outer_proto front = IPPROTO_UDP →
        (call.misread_word m).1 = 0 ∨ (call.misread_word m).2 = (call.misread_word m).1 := by
  rw [processed_eq_alone_iff call call.received rfl]
  simp only [misread_eq_alone_iff hdpdk]
  rfl

/-- A message of UDP without data, in IPv4 that is not to be fragmented, in IPv4. -/
def in_ip : csum_mbuf :=
  { in_vxlan with
    first :=
      { buf := 1
        data_len := 62
        data := fun i =>
          [2, 0, 0, 0, 0, 2, 2, 0, 0, 0, 0, 1, 8, 0,
            0x45, 0, 0, 48, 0, 0, 0, 0, 64, 4, 1, 1, 10, 0, 0, 1, 10, 0, 0, 2,
            0x45, 0, 0, 28, 0, 0, 0x40, 0, 64, 17, 1, 1, 192, 168, 0, 1, 192, 168, 0, 2,
            0, 53, 0, 53, 0, 8, 1, 1].getD i 0 }
    pkt_len := 62 }

/-- It comes behind one of VXLAN. -/
theorem csum_alone_iff_misread :
    let call := { software with received := [in_vxlan, in_ip] }
    call.processed call.cleared call.received ≠ call.received.map call.alone := by
  intro call
  rw [Ne, csum_alone_iff call documented_cksums]
  intro h
  have hword := h [in_vxlan] in_ip (List.prefix_refl _) (by decide +kernel) (by decide +kernel)
  revert hword
  decide +kernel

end alone

/-! ## Section 2: What is sent -/

section sent

/-- A packet with other bytes in its first segment, and other fields for the device. -/
structure csum_mbuf.Kept (m p : csum_mbuf) : Prop where
  next : p.next = m.next
  nb_segs : p.nb_segs = m.nb_segs
  pkt_len : p.pkt_len = m.pkt_len
  buf : p.first.buf = m.first.buf
  data_len : p.first.data_len = m.first.data_len

theorem csum_mbuf.Kept.wellFormed {m p : csum_mbuf} (h : m.Kept p) (hm : m.WellFormed) :
    p.WellFormed := by
  have hlens : p.segments.map Segment.data_len = m.segments.map Segment.data_len := by
    show p.first.data_len :: _ = m.first.data_len :: _
    rw [h.data_len, h.next]
  constructor
  · rw [h.nb_segs, hm.nb_segs]
    show (m.first :: m.next).length = (p.first :: p.next).length
    rw [h.next]
    rfl
  · rw [h.pkt_len, hm.pkt_len]
    show (flat m.segments).length = (flat p.segments).length
    rw [length_flat, length_flat, hlens]

theorem csum_mbuf.Kept.bufs {m p : csum_mbuf} (h : m.Kept p) :
    p.segments.map Segment.buf = m.segments.map Segment.buf := by
  show p.first.buf :: _ = m.first.buf :: _
  rw [h.buf, h.next]

theorem kept_process (call : CsumCall) (info : testpmd_offload_info) (m : csum_mbuf) :
    m.Kept (call.process info m).2 := by
  have hdescribe : ∀ info, (call.describe info m).next = m.next ∧
      (call.describe info m).nb_segs = m.nb_segs ∧
      (call.describe info m).pkt_len = m.pkt_len := by
    intro info
    unfold CsumCall.describe
    dsimp only
    split
    · split <;> exact ⟨rfl, rfl, rfl⟩
    · exact ⟨rfl, rfl, rfl⟩
  -- the headers are rewritten in place
  have hrewrite := edited_rewrite (call.dissect m info).1 call (call.dissect m info).2
    (call.address m.first)
  obtain ⟨hnext, hsegs, hlen⟩ := hdescribe (call.dissect m info).1
  exact ⟨hnext, hsegs, hlen, hrewrite.buf, hrewrite.data_len⟩

/-- `p` is `m`, or a copy of it in other segments. -/
structure csum_mbuf.CopiedTo (m p : csum_mbuf) : Prop where
  data : p.data = m.data
  wellFormed : p.WellFormed
  fields : p = { m with
    torte_mbuf := { m.torte_mbuf with first := p.first, next := p.next, nb_segs := p.nb_segs } }

theorem csum_mbuf.CopiedTo.refl {m : csum_mbuf} (hm : m.WellFormed) : m.CopiedTo m :=
  ⟨rfl, hm, rfl⟩

/-- The packet that leaves one turn, and the pool. -/
theorem split_spec (call : CsumCall) (hlengths : call.cfg.lengths ≠ []) (i : ℕ) {m : csum_mbuf}
    (hm : m.WellFormed) (hpos : 0 < m.pkt_len) (pool : List Segment) :
    m.CopiedTo (call.split i m pool).1 ∧
      (((call.split i m pool).1.segments ++ (call.split i m pool).2).map Segment.buf).Perm
        ((m.segments ++ pool).map Segment.buf) := by
  have hne : call.cfg.lengths.take (call.cfg.nb_segs (call.random i)) ≠ [] := by
    have hpos := List.length_pos_iff.mpr hlengths
    rw [Ne, List.take_eq_nil_iff]
    unfold TxConfig.nb_segs
    split
    · simp [hlengths]
    · simp [hlengths]
  unfold CsumCall.split
  split
  · exact ⟨.refl hm, List.Perm.refl _⟩
  · have hspec := pkt_copy_split_spec call.tailroom pool hm hpos hne
    dsimp only
    generalize pkt_copy_split call.tailroom _ pool m.torte_mbuf = result at hspec ⊢
    obtain ⟨_ | p, rest⟩ := result
    · -- the packet stays, and the pool has its buffers back
      refine ⟨.refl hm, ?_⟩
      show ((m.segments ++ rest).map Segment.buf).Perm _
      rw [List.map_append, List.map_append]
      exact hspec.append_left _
    · obtain ⟨hdata, hwf, hfields, -, hbufs⟩ := hspec
      -- the packet is freed, behind the copy
      have hfreed : ((p.segments ++ (m.segments ++ rest)).map Segment.buf).Perm
          ((m.segments ++ pool).map Segment.buf) := by
        rw [List.map_append] at hbufs
        simp only [List.map_append]
        exact (List.perm_append_comm_assoc _ _ _).trans (hbufs.append_left _)
      refine ⟨⟨hdata, hwf, ?_⟩, hfreed⟩
      dsimp only
      rw [← hfields]

theorem segments_cons (m : rte_mbuf) (pkts : List rte_mbuf) :
    segments (m :: pkts) = m.segments ++ segments pkts := List.flatMap_cons

theorem loop_cons (call : CsumCall) (i : ℕ) (info : testpmd_offload_info) (m : csum_mbuf)
    (pkts : List csum_mbuf) (pool : List Segment) :
    call.loop i info (m :: pkts) pool =
      ((call.split i (call.process info m).2 pool).1 ::
          (call.loop (i + 1) (call.process info m).1 pkts
            (call.split i (call.process info m).2 pool).2).1,
        (call.loop (i + 1) (call.process info m).1 pkts
          (call.split i (call.process info m).2 pool).2).2) := rfl

/-- The run of the loop. -/
theorem loop_spec (call : CsumCall) (hlengths : call.cfg.lengths ≠ []) (i : ℕ)
    (info : testpmd_offload_info) (pkts : List csum_mbuf) (pool : List Segment)
    (hpkts : ∀ m ∈ pkts, m.WellFormed ∧ 0 < m.pkt_len) :
    List.Forall₂ csum_mbuf.CopiedTo (call.processed info pkts) (call.loop i info pkts pool).1 ∧
      ((segments ((call.loop i info pkts pool).1.map csum_mbuf.torte_mbuf) ++
          (call.loop i info pkts pool).2).map Segment.buf).Perm
        ((segments (pkts.map csum_mbuf.torte_mbuf) ++ pool).map Segment.buf) := by
  induction pkts generalizing i info pool with
  | nil => exact ⟨.nil, List.Perm.refl _⟩
  | cons m pkts ih =>
    have hkept := kept_process call info m
    obtain ⟨hm, hpos⟩ := hpkts m (List.mem_cons_self)
    obtain ⟨hcopied, hbufs⟩ := split_spec call hlengths i (hkept.wellFormed hm)
      (hkept.pkt_len.symm ▸ hpos) pool
    obtain ⟨hrest, hrestbufs⟩ := ih (i + 1) (call.process info m).1
      (call.split i (call.process info m).2 pool).2 fun m' hm' =>
        hpkts m' (List.mem_cons_of_mem m hm')
    refine ⟨.cons hcopied hrest, ?_⟩
    -- the pool that this turn leaves is the one that the others begin with
    rw [loop_cons, List.map_cons, List.map_cons, segments_cons, segments_cons]
    generalize call.split i (call.process info m).2 pool = r at hbufs hrestbufs ⊢
    generalize call.loop (i + 1) (call.process info m).1 pkts r.2 = s at hrestbufs ⊢
    rw [List.map_append, List.map_append, hkept.bufs] at hbufs
    rw [List.map_append, List.map_append] at hrestbufs
    simp only [List.map_append, List.append_assoc]
    exact (hrestbufs.append_left _).trans <| (List.perm_append_comm_assoc _ _ _).trans <|
      (hbufs.append_left _).trans (List.perm_append_comm_assoc _ _ _)

/-- **A call loses no packet and no buffer.**  The packets of the burst, rewritten and possibly
    copied, are sent or freed in their order; the buffers of these and of the pool that is
    left are those that were received or in the pool; and the counters are the numbers of
    packets, modulo `2 ^ 32`. -/
theorem csum_forward_sends (call : CsumCall) (c : CsumCounters)
    (hlengths : call.cfg.lengths ≠ [])
    (hpkts : ∀ m ∈ call.received, m.WellFormed ∧ 0 < m.pkt_len) :
    let burst := pkt_burst_checksum_forward call c
    List.Forall₂ csum_mbuf.CopiedTo (call.processed call.cleared call.received)
        (burst.sent ++ burst.freed) ∧
      ((segments ((burst.sent ++ burst.freed).map csum_mbuf.torte_mbuf) ++ burst.pool).map
          Segment.buf).Perm
        ((segments (call.received.map csum_mbuf.torte_mbuf) ++ call.pool).map Segment.buf) ∧
      burst.counters.rx_packets ≡ c.rx_packets + call.received.length [MOD 2 ^ 32] ∧
      burst.counters.tx_packets ≡ c.tx_packets + burst.sent.length [MOD 2 ^ 32] ∧
      burst.counters.fwd_dropped ≡ c.fwd_dropped + burst.freed.length [MOD 2 ^ 32] := by
  dsimp only
  obtain ⟨hcopied, hbufs⟩ := loop_spec call hlengths 0 call.cleared call.received call.pool hpkts
  unfold pkt_burst_checksum_forward
  split
  · next hnone =>
    -- nothing is received
    rw [hnone]
    exact ⟨.nil, List.Perm.refl _, rfl, rfl, rfl⟩
  · dsimp only
    rw [List.take_append_drop]
    have hlen : (call.loop 0 call.cleared call.received call.pool).1.length =
        call.received.length := by
      rw [← hcopied.length_eq, length_processed]
    have htx : ((call.loop 0 call.cleared call.received call.pool).1.take
        (tx_burst call.answer call.received.length)).length =
          tx_burst call.answer call.received.length := by
      have hle : tx_burst call.answer call.received.length ≤ call.received.length :=
        Nat.min_le_right _ _
      rw [List.length_take, hlen, Nat.min_eq_left hle]
    refine ⟨hcopied, hbufs, count_modEq _ _, ?_, ?_⟩
    · rw [htx]
      exact count_modEq _ _
    · rw [← hlen]
      exact dropped_modEq _ _ _

/-- With a copy for the first packet only. -/
theorem csum_forward_sends_two :
    let call := { software with
      cfg := ⟨⟨0, 0⟩, 32, .TX_PKT_SPLIT_ON, [64, 64]⟩
      received := [in_vxlan, in_ip]
      pool := [blank 2 0, blank 3 0]
      answer := 1 }
    let burst := pkt_burst_checksum_forward call ⟨⟨5, 2 ^ 32 - 1, 0⟩, 0, 0⟩
    ((segments ((burst.sent ++ burst.freed).map csum_mbuf.torte_mbuf) ++ burst.pool).map
        Segment.buf).Perm [0, 1, 2, 3] ∧
      burst.counters.tx_packets ≡ 2 ^ 32 - 1 + burst.sent.length [MOD 2 ^ 32] := by
  intro call burst
  have hpkts : ∀ m ∈ call.received, m.WellFormed ∧ 0 < m.pkt_len := by
    intro m hm
    rcases List.mem_cons.mp hm with rfl | hm
    · exact ⟨⟨rfl, by decide +kernel⟩, by decide⟩
    · rw [List.mem_singleton.mp hm]
      exact ⟨⟨rfl, by decide +kernel⟩, by decide⟩
  have hsends := csum_forward_sends call ⟨⟨5, 2 ^ 32 - 1, 0⟩, 0, 0⟩ (by decide) hpkts
  exact ⟨hsends.2.1, hsends.2.2.2.1⟩

end sent

end TestPmd
