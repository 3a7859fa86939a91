import Catbench.TestPmd.Mbuf

/-! # The forwarding mode `txonly`

    Packets are made of as many segments as the command `set txpkts` gives lengths
    for, or, with `set txsplit rand`, of a random number of them.  The Ethernet header is
    copied into the first segments.

    The function that copies does not look at the length of the segments that it gets
    to: it takes them to be as long as what it had room for in the first.

    * When what is copied is found in the data of the packet.
    * For which lengths of segments the packets that are sent have the header.
-/

open Machine

namespace TestPmd

/-! ## Section 1: Copying into segments -/

/-- The loop over the segments, `copy_len` bytes into each; `none` is where the null pointer
    is read that follows the last one. -/
def copy_segs (copy_len : ℕ) : List UInt8 → ℕ → List Segment → Option (List Segment)
  | _, _, [] => none
  | buf, off, seg :: segs =>
    if copy_len < buf.length then
      (copy_segs copy_len (buf.drop copy_len) 0 segs).map (seg.store off (buf.take copy_len) :: ·)
    else some (seg.store off buf :: segs)

def copy_buf_to_pkt_segs (buf : List UInt8) : ℕ → List Segment → Option (List Segment)
  | _, [] => none
  | offset, seg :: segs =>
    if seg.data_len ≤ offset then
      (copy_buf_to_pkt_segs buf (offset - seg.data_len) segs).map (seg :: ·)
    else copy_segs (seg.data_len - offset) buf offset (seg :: segs)

def copy_buf_to_pkt (buf : List UInt8) (offset : ℕ) : List Segment → Option (List Segment)
  | [] => none
  | seg :: segs =>
    if offset + buf.length ≤ seg.data_len then some (seg.store offset buf :: segs)
    else copy_buf_to_pkt_segs buf offset (seg :: segs)

/-! ## Section 2: Packets -/

inductive tx_pkt_split
  | TX_PKT_SPLIT_OFF
  | TX_PKT_SPLIT_ON
  | TX_PKT_SPLIT_RND
  deriving DecidableEq, Repr

/-- The flags of packets that the device has to insert tags into. -/
structure TxFlags where
  PKT_TX_VLAN_PKT : ℕ
  PKT_TX_QINQ_PKT : ℕ

def TESTPMD_TX_OFFLOAD_INSERT_VLAN : ℕ := 0x0040
def TESTPMD_TX_OFFLOAD_INSERT_QINQ : ℕ := 0x0080

/-- The flags of the packets that are sent on a port. -/
def TxPort.ol_flags (flags : TxFlags) (txp : TxPort) : ℕ :=
  let ol_flags :=
    if txp.tx_ol_flags &&& TESTPMD_TX_OFFLOAD_INSERT_VLAN ≠ 0 then flags.PKT_TX_VLAN_PKT else 0
  if txp.tx_ol_flags &&& TESTPMD_TX_OFFLOAD_INSERT_QINQ ≠ 0 then
    ol_flags ||| flags.PKT_TX_QINQ_PKT
  else ol_flags

/-- The configuration of the mode; `lengths` are the first `tx_pkt_nb_segs` elements of
    `tx_pkt_seg_lengths`. -/
structure TxConfig where
  flags : TxFlags
  nb_pkt_per_burst : ℕ
  split : tx_pkt_split
  lengths : List ℕ

/-- The number of segments, given what `random` returns. -/
def TxConfig.nb_segs (cfg : TxConfig) (random : ℕ) : ℕ :=
  match cfg.split with
  | .TX_PKT_SPLIT_RND => random % cfg.lengths.length + 1
  | _ => cfg.lengths.length

/-- A chain of segments from the pool, with what is left of it.  If there are not enough of
    them, those that were taken are given back. -/
def alloc_segs : List ℕ → List Segment → Option (List Segment) × List Segment
  | [], pool => (some [], pool)
  | _ :: _, [] => (none, [])
  | data_len :: lengths, seg :: pool =>
    match alloc_segs lengths pool with
    | (some segs, pool) => (some ({ seg with data_len } :: segs), pool)
    | (none, pool) => (none, { seg with data_len } :: pool)

/-- The Ethernet header, with the type 0. -/
def eth_hdr (peer_addr eth_addr : ether_addr) : List UInt8 :=
  List.ofFn peer_addr ++ List.ofFn eth_addr ++ [0, 0]

/-- The stream, the buffers that the pool can hand out, what `random` returns for each
    packet, and how many packets the device has room for. -/
structure TxCall where
  txp : TxPort
  peer_addr : ether_addr
  pool : List Segment
  random : ℕ → ℕ
  answer : ℕ

/-- The packet of a chain with the header. -/
def TxCall.packet (cfg : TxConfig) (call : TxCall) : List Segment → Option rte_mbuf
  | [] => none
  | first :: next =>
    some
      { first
        next
        nb_segs := (first :: next).length
        pkt_len := ((first :: next).map Segment.data_len).sum
        ol_flags := call.txp.ol_flags cfg.flags
        l2_len := 14
        l3_len := 20
        vlan_tci := call.txp.tx_vlan_id
        vlan_tci_outer := call.txp.tx_vlan_id_outer }

/-- The packets from `nb_pkt` on, until the burst is full or the pool is empty. -/
def tx_loop (cfg : TxConfig) (call : TxCall) :
    ℕ → ℕ → List Segment → Option (List rte_mbuf × List Segment)
  | 0, _, pool => some ([], pool)
  | n + 1, nb_pkt, pool =>
    match alloc_segs (cfg.lengths.take (cfg.nb_segs (call.random nb_pkt))) pool with
    | (none, pool) => some ([], pool)
    | (some segs, pool) => do
      let segs ← copy_buf_to_pkt (eth_hdr call.peer_addr call.txp.eth_addr) 0 segs
      let pkt ← call.packet cfg segs
      let (pkts, pool) ← tx_loop cfg call n (nb_pkt + 1) pool
      some (pkt :: pkts, pool)

/-- A call, with the counters of its stream. -/
def pkt_burst_transmit (cfg : TxConfig) (call : TxCall) (c : Counters) : Option Burst := do
  let (pkts_burst, pool) ← tx_loop cfg call cfg.nb_pkt_per_burst 0 call.pool
  if pkts_burst = [] then
    some { counters := c, sent := [], freed := [], pool }
  else some (finish c pool pkts_burst (tx_burst call.answer pkts_burst.length))

/-! ## Section 3: What the copy needs -/

/-- Bytes written over others, from an offset on. -/
def splice (bytes : List UInt8) (off : ℕ) (buf : List UInt8) : List UInt8 :=
  bytes.take off ++ buf ++ bytes.drop (off + buf.length)

/-- The rooms in a chain of segments, from the one of an offset on. -/
def rooms : ℕ → List ℕ → List ℕ
  | _, [] => []
  | off, data_len :: lens =>
    if data_len ≤ off then rooms (off - data_len) lens else (data_len - off) :: lens

/-- Every segment but the last one that is reached has exactly `copy_len` bytes, and that has
    room for the rest. -/
def Fits (copy_len : ℕ) : ℕ → List ℕ → Prop
  | _, [] => False
  | len, room :: rooms =>
    if copy_len < len then room = copy_len ∧ Fits copy_len (len - copy_len) rooms
    else len ≤ room

/-- What is needed to copy `len` bytes to an offset. -/
def CopyFits (off len : ℕ) (lens : List ℕ) : Prop :=
  Fits ((rooms off lens).headD 0) len (rooms off lens)

instance Fits.decidable (copy_len : ℕ) : (len : ℕ) → (rooms : List ℕ) →
    Decidable (Fits copy_len len rooms)
  | _, [] => isFalse id
  | len, room :: rooms =>
    have := Fits.decidable copy_len (len - copy_len) rooms
    inferInstanceAs (Decidable (if copy_len < len then room = copy_len ∧ _ else len ≤ room))

instance (off len : ℕ) (lens : List ℕ) : Decidable (CopyFits off len lens) :=
  inferInstanceAs (Decidable (Fits _ _ _))

section copy

variable {seg : Segment} {segs : List Segment} {off len copy_len : ℕ} {bytes buf : List UInt8}

theorem splice_getElem? {i : ℕ} (hoff : off ≤ bytes.length) (hi : i < buf.length) :
    (splice bytes off buf)[off + i]? = buf[i]? := by
  have hlen : (bytes.take off).length = off := by rw [List.length_take, Nat.min_eq_left hoff]
  rw [splice, List.append_assoc, List.getElem?_append_right (by omega), hlen,
    Nat.add_sub_cancel_left, List.getElem?_append_left hi]

/-- Bytes that stay in front. -/
theorem splice_append (rest : List UInt8) (h : off + buf.length ≤ bytes.length) :
    splice (bytes ++ rest) off buf = splice bytes off buf ++ rest := by
  unfold splice
  rw [List.take_append_of_le_length (by omega), List.drop_append_of_le_length h]
  simp only [List.append_assoc]

/-- Bytes that go over the end of a segment. -/
theorem splice_append_of_eq (copy_len : ℕ) (rest : List UInt8) (h : off + copy_len = bytes.length)
    (hbuf : copy_len ≤ buf.length) :
    splice (bytes ++ rest) off buf =
      splice bytes off (buf.take copy_len) ++ splice rest 0 (buf.drop copy_len) := by
  have htake : (buf.take copy_len).length = copy_len := by
    rw [List.length_take, Nat.min_eq_left hbuf]
  have hdrop : bytes.length + (buf.length - copy_len) = off + buf.length := by omega
  unfold splice
  rw [htake, h, List.drop_length, List.append_nil, List.length_drop, Nat.zero_add, List.take_zero,
    List.nil_append, ← List.append_assoc, List.append_assoc (bytes.take off),
    List.take_append_drop, List.take_append_of_le_length (by omega), ← hdrop,
    List.drop_length_add_append]

theorem bytes_store (h : off + buf.length ≤ seg.data_len) :
    (seg.store off buf).bytes = splice seg.bytes off buf := by
  apply List.ext_getElem?
  intro i
  rcases Nat.lt_or_ge i off with hlow | hlow
  · rw [Segment.bytes_getElem? _ (by rw [Segment.store_data_len]; omega),
      Segment.store_data_of_not_mem (Or.inl hlow), splice, List.append_assoc,
      List.getElem?_append_left, List.getElem?_take_of_lt hlow,
      Segment.bytes_getElem? _ (by omega)]
    rw [List.length_take, Segment.length_bytes]
    omega
  · obtain ⟨j, rfl⟩ := Nat.exists_eq_add_of_le hlow
    rcases Nat.lt_or_ge j buf.length with hin | hin
    · rw [splice_getElem? (by rw [Segment.length_bytes]; omega) hin,
        Segment.bytes_getElem? _ (by rw [Segment.store_data_len]; omega),
        Segment.store_data_of_mem hlow (by omega), List.getElem?_eq_getElem hin]
      simp only [Nat.add_sub_cancel_left]
    · have hfront : (seg.bytes.take off ++ buf).length = off + buf.length := by
        rw [List.length_append, List.length_take, Segment.length_bytes]
        omega
      have hback : off + buf.length + (off + j - (off + buf.length)) = off + j := by omega
      rw [splice, List.getElem?_append_right (by omega), List.getElem?_drop, hfront, hback]
      rcases Nat.lt_or_ge (off + j) seg.data_len with hend | hend
      · rw [Segment.bytes_getElem? _ hend,
          Segment.bytes_getElem? _ (by rwa [Segment.store_data_len]),
          Segment.store_data_of_not_mem (Or.inr (by omega))]
      · rw [List.getElem?_eq_none (by rw [Segment.length_bytes]; exact hend),
          List.getElem?_eq_none (by rw [Segment.length_bytes]; exact hend)]

/-- The copy succeeds with these bytes. -/
def Copied (result : Option (List Segment)) (segs : List Segment) (off : ℕ) (buf : List UInt8) :
    Prop :=
  ∃ segs', result = some segs' ∧ flat segs' = splice (flat segs) off buf

/-- One segment, if what follows it is copied. -/
theorem copied_cons
    (h : Fits copy_len buf.length ((seg.data_len - off) :: segs.map Segment.data_len))
    (hoff : off ≤ seg.data_len)
    (ih : ∀ buf, Fits copy_len buf.length (segs.map Segment.data_len) →
      Copied (copy_segs copy_len buf 0 segs) segs 0 buf) :
    Copied (copy_segs copy_len buf off (seg :: segs)) (seg :: segs) off buf := by
  unfold Fits at h
  unfold copy_segs
  split at h
  · next hlt =>
    obtain ⟨hroom, hrest⟩ := h
    have hdrop : (buf.drop copy_len).length = buf.length - copy_len := List.length_drop
    have htake : (buf.take copy_len).length = copy_len := by
      rw [List.length_take, Nat.min_eq_left (Nat.le_of_lt hlt)]
    obtain ⟨rest, hcopy, hflat⟩ := ih (buf.drop copy_len) (by rwa [hdrop])
    rw [if_pos hlt, hcopy]
    refine ⟨_, rfl, ?_⟩
    rw [flat_cons, flat_cons, hflat, bytes_store (by omega),
      splice_append_of_eq copy_len _ (by rw [Segment.length_bytes]; omega)
        (Nat.le_of_lt hlt)]
  · next hle =>
    rw [if_neg hle]
    refine ⟨_, rfl, ?_⟩
    rw [flat_cons, flat_cons, bytes_store (by omega),
      splice_append _ (by rw [Segment.length_bytes]; omega)]

theorem copied_zero (segs : List Segment) (buf : List UInt8)
    (h : Fits copy_len buf.length (segs.map Segment.data_len)) :
    Copied (copy_segs copy_len buf 0 segs) segs 0 buf := by
  induction segs generalizing buf with
  | nil => exact absurd h id
  | cons seg segs ih => exact copied_cons h (Nat.zero_le _) ih

/-- The byte behind a segment depends on the next ones only. -/
theorem getElem?_of_copied {segs' : List Segment} {seg' : Segment} {i : ℕ}
    (hflat : flat (seg' :: segs') = splice (flat (seg :: segs)) off buf)
    (hoff : off ≤ seg.data_len) (hi : i < buf.length) :
    (flat (seg' :: segs'))[off + i]? = buf[i]? := by
  rw [hflat, splice_getElem? _ hi]
  rw [flat_cons, List.length_append, Segment.length_bytes]
  omega

theorem fits_cons (hoff : off ≤ seg.data_len)
    (h : ∀ buf : List UInt8, buf.length = len →
      Copied (copy_segs copy_len buf off (seg :: segs)) (seg :: segs) off buf)
    (ih : ∀ len, (∀ buf : List UInt8, buf.length = len →
      Copied (copy_segs copy_len buf 0 segs) segs 0 buf) →
        Fits copy_len len (segs.map Segment.data_len)) :
    Fits copy_len len ((seg.data_len - off) :: segs.map Segment.data_len) := by
  have hrep : ∀ b : UInt8, (List.replicate len b).length = len := fun b => List.length_replicate
  unfold Fits
  split
  · next hlt =>
    -- what is copied, with what follows the segment
    have hcopied : ∀ buf : List UInt8, buf.length = len → ∃ rest,
        copy_segs copy_len (buf.drop copy_len) 0 segs = some rest ∧
        flat (seg.store off (buf.take copy_len) :: rest) = splice (flat (seg :: segs)) off buf := by
      intro buf hbuf
      obtain ⟨segs', hcopy, hflat⟩ := h buf hbuf
      unfold copy_segs at hcopy
      rw [if_pos (by omega), Option.map_eq_some_iff] at hcopy
      obtain ⟨rest, hrest, rfl⟩ := hcopy
      exact ⟨rest, hrest, hflat⟩
    have hbehind : ∀ (bs : List UInt8) (rest : List Segment),
        (flat (seg.store off bs :: rest))[seg.data_len]? = (flat rest)[0]? := by
      intro bs rest
      rw [flat_cons, List.getElem?_append_right (by rw [Segment.length_bytes]; exact Nat.le_refl _),
        Segment.length_bytes, Segment.store_data_len, Nat.sub_self]
    have hroom : seg.data_len - off = copy_len := by
      rcases Nat.lt_trichotomy (seg.data_len - off) copy_len with hless | heq | hmore
      · -- two texts that differ where the segment ends
        exfalso
        obtain ⟨rest, hrest, hflat⟩ := hcopied (List.replicate len 0) (hrep 0)
        have hset : ((List.replicate len (0 : UInt8)).set (seg.data_len - off) 1).length = len := by
          rw [List.length_set, hrep]
        obtain ⟨rest', hrest', hflat'⟩ := hcopied _ hset
        have hsame : ((List.replicate len (0 : UInt8)).set (seg.data_len - off) 1).drop copy_len =
            (List.replicate len 0).drop copy_len := List.drop_set_of_lt hless
        rw [hsame, hrest, Option.some.injEq] at hrest'
        subst hrest'
        have hend : off + (seg.data_len - off) = seg.data_len := by omega
        have hzero := getElem?_of_copied hflat hoff (i := seg.data_len - off) (by rw [hrep]; omega)
        have hone := getElem?_of_copied hflat' hoff (i := seg.data_len - off) (by rw [hset]; omega)
        rw [hend, hbehind, List.getElem?_replicate, if_pos (by omega)] at hzero
        rw [hend, hbehind, hzero, List.getElem?_set_self (by rw [hrep]; omega)] at hone
        exact absurd hone (by decide)
      · exact heq
      · -- a text of a byte that is not the one behind the copy
        exfalso
        obtain ⟨rest, hrest, hflat⟩ :=
          hcopied (List.replicate len (seg.data (off + copy_len) + 1)) (hrep _)
        have hbyte := getElem?_of_copied hflat hoff (i := copy_len) (by rw [hrep]; omega)
        rw [flat_cons, List.getElem?_append_left (by
            rw [Segment.length_bytes, Segment.store_data_len]; omega),
          Segment.bytes_getElem? _ (by rw [Segment.store_data_len]; omega),
          Segment.store_data_of_not_mem (by rw [List.length_take, hrep]; omega),
          List.getElem?_replicate, if_pos (by omega), Option.some.injEq] at hbyte
        have hnat := congrArg UInt8.toNat hbyte
        rw [UInt8.toNat_add] at hnat
        have hone : (1 : UInt8).toNat = 1 := rfl
        omega
    refine ⟨hroom, ih _ ?_⟩
    intro buf hbuf
    obtain ⟨rest, hrest, hflat⟩ := hcopied (List.replicate copy_len 0 ++ buf) (by
      rw [List.length_append, List.length_replicate]
      omega)
    rw [List.drop_left' List.length_replicate] at hrest
    refine ⟨rest, hrest, ?_⟩
    rw [flat_cons, flat_cons, splice_append_of_eq copy_len _
      (by rw [Segment.length_bytes]; omega)
      (by rw [List.length_append, List.length_replicate]; omega),
      List.drop_left' List.length_replicate] at hflat
    refine List.append_inj_right hflat ?_
    rw [← bytes_store]
    rw [List.length_take, List.length_append, List.length_replicate]
    omega
  · next hle =>
    by_contra hshort
    have hcopied : ∀ buf : List UInt8, buf.length = len →
        flat (seg.store off buf :: segs) = splice (flat (seg :: segs)) off buf := by
      intro buf hbuf
      obtain ⟨segs', hcopy, hflat⟩ := h buf hbuf
      unfold copy_segs at hcopy
      rw [if_neg (by omega), Option.some.injEq] at hcopy
      rw [hcopy, hflat]
    -- the byte behind the segment would be any
    have hany : ∀ b : UInt8, (flat segs)[0]? = some b := by
      intro b
      have hbyte := getElem?_of_copied (hcopied _ (hrep b)) hoff (i := seg.data_len - off)
        (by rw [hrep]; omega)
      have hend : off + (seg.data_len - off) = seg.data_len := by omega
      rw [hend, flat_cons,
        List.getElem?_append_right (by rw [Segment.length_bytes]; exact Nat.le_refl _),
        Segment.length_bytes, Segment.store_data_len, Nat.sub_self, List.getElem?_replicate,
        if_pos (by omega)] at hbyte
      exact hbyte
    have hne := (hany 0).symm.trans (hany 1)
    exact absurd hne (by decide)

theorem fits_zero (segs : List Segment) (len : ℕ)
    (h : ∀ buf : List UInt8, buf.length = len →
      Copied (copy_segs copy_len buf 0 segs) segs 0 buf) :
    Fits copy_len len (segs.map Segment.data_len) := by
  induction segs generalizing len with
  | nil =>
    obtain ⟨segs', hcopy, -⟩ := h (List.replicate len 0) List.length_replicate
    cases hcopy
  | cons seg segs ih => exact fits_cons (Nat.zero_le _) h ih

/-- The chain from the segment of an offset on. -/
theorem copy_buf_to_pkt_segs_iff (segs : List Segment) (off len : ℕ) :
    (∀ buf : List UInt8, buf.length = len →
      Copied (copy_buf_to_pkt_segs buf off segs) segs off buf) ↔
    CopyFits off len (segs.map Segment.data_len) := by
  induction segs generalizing off with
  | nil =>
    constructor
    · intro h
      obtain ⟨segs', hcopy, -⟩ := h (List.replicate len 0) List.length_replicate
      cases hcopy
    · exact fun h => absurd h id
  | cons seg segs ih =>
    by_cases hskip : seg.data_len ≤ off
    · have hrooms : rooms off ((seg :: segs).map Segment.data_len) =
          rooms (off - seg.data_len) (segs.map Segment.data_len) := if_pos hskip
      have hlen : (seg.bytes).length = seg.data_len := Segment.length_bytes seg
      rw [CopyFits, hrooms, ← CopyFits, ← ih]
      refine forall_congr' fun buf => imp_congr_right fun _ => ?_
      have hsplice : splice (flat (seg :: segs)) off buf =
          seg.bytes ++ splice (flat segs) (off - seg.data_len) buf := by
        have hend : off = seg.bytes.length + (off - seg.data_len) := by omega
        unfold splice
        rw [flat_cons]
        nth_rewrite 1 2 [hend]
        rw [List.take_length_add_append, Nat.add_assoc, List.drop_length_add_append,
          List.append_assoc, List.append_assoc, List.append_assoc]
      have hcopy : copy_buf_to_pkt_segs buf off (seg :: segs) =
          (copy_buf_to_pkt_segs buf (off - seg.data_len) segs).map (seg :: ·) := if_pos hskip
      unfold Copied
      rw [hcopy, hsplice]
      constructor
      · intro ⟨segs', hsegs, hflat⟩
        rw [Option.map_eq_some_iff] at hsegs
        obtain ⟨rest, hrest, rfl⟩ := hsegs
        exact ⟨rest, hrest, List.append_cancel_left hflat⟩
      · intro ⟨rest, hrest, hflat⟩
        refine ⟨seg :: rest, by rw [hrest]; rfl, ?_⟩
        rw [flat_cons, hflat]
    · have hrooms : rooms off ((seg :: segs).map Segment.data_len) =
          (seg.data_len - off) :: segs.map Segment.data_len := if_neg hskip
      have hcopy : ∀ buf, copy_buf_to_pkt_segs buf off (seg :: segs) =
          copy_segs (seg.data_len - off) buf off (seg :: segs) := fun buf => if_neg hskip
      rw [CopyFits, hrooms]
      simp only [hcopy]
      constructor
      · intro h
        exact fits_cons (by omega) h (fits_zero segs)
      · intro h buf hbuf
        subst hbuf
        exact copied_cons h (by omega) (copied_zero segs)

/-- The short way, where the first segment has room for it all, does the same. -/
theorem copy_buf_to_pkt_eq (seg : Segment) (segs : List Segment) (off : ℕ) {buf : List UInt8}
    (hlen : 0 < buf.length) :
    copy_buf_to_pkt buf off (seg :: segs) = copy_buf_to_pkt_segs buf off (seg :: segs) := by
  show (if off + buf.length ≤ seg.data_len then some (seg.store off buf :: segs)
    else copy_buf_to_pkt_segs buf off (seg :: segs)) = _
  split
  · next hle =>
    have hskip : ¬seg.data_len ≤ off := by omega
    have hroom : ¬seg.data_len - off < buf.length := by omega
    show _ = if seg.data_len ≤ off then _ else copy_segs _ buf off (seg :: segs)
    rw [if_neg hskip]
    show _ = if seg.data_len - off < buf.length then _ else _
    rw [if_neg hroom]
  · rfl

end copy

/-! ## Section 4: The packets that are sent -/

/-- The lengths that a packet may have, one after another. -/
def TxConfig.Lengths (cfg : TxConfig) (lens : List ℕ) : Prop :=
  ∃ random, lens = cfg.lengths.take (cfg.nb_segs random)

theorem alloc_segs_bufs (lengths : List ℕ) (pool : List Segment) :
    ((alloc_segs lengths pool).1.getD [] ++ (alloc_segs lengths pool).2).map Segment.buf =
      pool.map Segment.buf ∧
    ∀ segs ∈ (alloc_segs lengths pool).1, segs.map Segment.data_len = lengths := by
  induction lengths generalizing pool with
  | nil =>
    refine ⟨rfl, ?_⟩
    intro segs hsegs
    cases hsegs
    rfl
  | cons data_len lengths ih =>
    cases pool with
    | nil => exact ⟨rfl, fun segs hsegs => nomatch hsegs⟩
    | cons seg pool =>
      obtain ⟨hbufs, hlens⟩ := ih pool
      unfold alloc_segs
      generalize alloc_segs lengths pool = result at hbufs hlens
      obtain ⟨_ | segs, rest⟩ := result
      · exact ⟨congrArg (seg.buf :: ·) hbufs, fun segs hsegs => nomatch hsegs⟩
      · refine ⟨congrArg (seg.buf :: ·) hbufs, ?_⟩
        intro segs' hsegs'
        cases hsegs'
        exact congrArg (data_len :: ·) (hlens segs rfl)

/-- Copying changes the bytes only. -/
def SameShape (segs segs' : List Segment) : Prop :=
  segs'.map Segment.buf = segs.map Segment.buf ∧
    segs'.map Segment.data_len = segs.map Segment.data_len

theorem SameShape.cons {seg seg' : Segment} {segs segs' : List Segment} (h : SameShape segs segs')
    (hbuf : seg'.buf = seg.buf) (hlen : seg'.data_len = seg.data_len) :
    SameShape (seg :: segs) (seg' :: segs') := by
  constructor
  · rw [List.map_cons, List.map_cons, hbuf, h.1]
  · rw [List.map_cons, List.map_cons, hlen, h.2]

theorem copy_segs_shape {copy_len : ℕ} {buf : List UInt8} {off : ℕ} {segs segs' : List Segment}
    (h : copy_segs copy_len buf off segs = some segs') : SameShape segs segs' := by
  induction segs generalizing buf off segs' with
  | nil => cases h
  | cons seg segs ih =>
    unfold copy_segs at h
    split at h
    · rw [Option.map_eq_some_iff] at h
      obtain ⟨rest, hrest, rfl⟩ := h
      exact (ih hrest).cons rfl rfl
    · cases h
      exact ⟨rfl, rfl⟩

theorem copy_buf_to_pkt_shape {buf : List UInt8} {off : ℕ} {segs segs' : List Segment}
    (h : copy_buf_to_pkt buf off segs = some segs') : SameShape segs segs' := by
  have hsegs : ∀ off segs', copy_buf_to_pkt_segs buf off segs = some segs' →
      SameShape segs segs' := by
    clear h
    induction segs with
    | nil => exact fun off segs' h => nomatch h
    | cons seg segs ih =>
      intro off segs' h
      unfold copy_buf_to_pkt_segs at h
      split at h
      · rw [Option.map_eq_some_iff] at h
        obtain ⟨rest, hrest, rfl⟩ := h
        exact (ih _ _ hrest).cons rfl rfl
      · exact copy_segs_shape h
  cases segs with
  | nil => cases h
  | cons seg segs =>
    by_cases hfirst : off + buf.length ≤ seg.data_len
    · have hshort : copy_buf_to_pkt buf off (seg :: segs) = some (seg.store off buf :: segs) :=
        if_pos hfirst
      rw [hshort] at h
      cases h
      exact ⟨rfl, rfl⟩
    · have hlong : copy_buf_to_pkt buf off (seg :: segs) =
          copy_buf_to_pkt_segs buf off (seg :: segs) := if_neg hfirst
      rw [hlong] at h
      exact hsegs off segs' h

/-- Every buffer of the pool is in a packet or still in it. -/
theorem tx_loop_bufs {cfg : TxConfig} {call : TxCall} {n nb_pkt : ℕ} {pool rest : List Segment}
    {pkts : List rte_mbuf} (h : tx_loop cfg call n nb_pkt pool = some (pkts, rest)) :
    (segments pkts ++ rest).map Segment.buf = pool.map Segment.buf := by
  induction n generalizing nb_pkt pool pkts rest with
  | zero =>
    cases h
    rfl
  | succ n ih =>
    obtain ⟨hbufs, -⟩ :=
      alloc_segs_bufs (cfg.lengths.take (cfg.nb_segs (call.random nb_pkt))) pool
    unfold tx_loop at h
    generalize alloc_segs (cfg.lengths.take (cfg.nb_segs (call.random nb_pkt))) pool = result
      at h hbufs
    obtain ⟨_ | segs, left⟩ := result
    · -- the segments of the packet that is not complete are back in the pool
      cases h
      exact hbufs
    · obtain ⟨segs', hcopy, h⟩ := Option.bind_eq_some_iff.mp h
      obtain ⟨pkt, hpkt, h⟩ := Option.bind_eq_some_iff.mp h
      obtain ⟨⟨pkts', rest'⟩, hloop, h⟩ := Option.bind_eq_some_iff.mp h
      cases h
      have hsegs : pkt.segments = segs' := by
        cases segs' with
        | nil => cases hpkt
        | cons first next =>
          cases hpkt
          rfl
      show ((pkt.segments ++ segments pkts') ++ rest).map Segment.buf = _
      rw [List.append_assoc, List.map_append, hsegs, (copy_buf_to_pkt_shape hcopy).1, ih hloop,
        ← List.map_append]
      exact hbufs

theorem pkt_burst_transmit_bufs {cfg : TxConfig} {call : TxCall} {c : Counters} {burst : Burst}
    (h : pkt_burst_transmit cfg call c = some burst) :
    (segments burst.sent ++ segments burst.freed ++ burst.pool).map Segment.buf =
      call.pool.map Segment.buf := by
  obtain ⟨⟨pkts, rest⟩, hloop, h⟩ := Option.bind_eq_some_iff.mp h
  have hbufs := tx_loop_bufs hloop
  by_cases hnone : pkts = []
  · subst hnone
    cases h
    exact hbufs
  · have hburst : some (finish c rest pkts (tx_burst call.answer pkts.length)) = some burst := by
      rw [← h]
      exact (if_neg hnone).symm
    cases hburst
    show (segments (pkts.take _) ++ segments (pkts.drop _) ++ rest).map Segment.buf = _
    rw [← segments_append, List.take_append_drop]
    exact hbufs

/-- A packet that is sent: the header, over as many bytes of segments of these lengths. -/
structure IsTxPacket (cfg : TxConfig) (call : TxCall) (pkt : rte_mbuf) : Prop where
  lengths : cfg.Lengths (pkt.segments.map Segment.data_len)
  header : eth_hdr call.peer_addr call.txp.eth_addr <+: pkt.data
  wellFormed : pkt.WellFormed

/-- One packet. -/
theorem packet_spec {cfg : TxConfig} (hfits : ∀ lens, cfg.Lengths lens → CopyFits 0 14 lens)
    (call : TxCall) {segs : List Segment} (hlens : cfg.Lengths (segs.map Segment.data_len)) :
    ∃ segs' pkt, copy_buf_to_pkt (eth_hdr call.peer_addr call.txp.eth_addr) 0 segs = some segs' ∧
      call.packet cfg segs' = some pkt ∧ IsTxPacket cfg call pkt := by
  have hfit := hfits _ hlens
  cases segs with
  | nil => exact absurd hfit id
  | cons seg segs =>
    have hlen : (eth_hdr call.peer_addr call.txp.eth_addr).length = 14 := by simp [eth_hdr]
    obtain ⟨segs', hcopy, hflat⟩ :=
      (copy_buf_to_pkt_segs_iff (seg :: segs) 0 14).mpr hfit _ hlen
    rw [← copy_buf_to_pkt_eq seg segs 0 (by omega)] at hcopy
    obtain ⟨hbufs, hlen⟩ := copy_buf_to_pkt_shape hcopy
    cases segs' with
    | nil => cases hbufs
    | cons first next =>
      refine ⟨first :: next, _, hcopy, rfl, ?_, ?_, rfl, (length_flat (first :: next)).symm⟩
      · show cfg.Lengths ((first :: next).map Segment.data_len)
        rwa [hlen]
      · show _ <+: flat (first :: next)
        rw [hflat]
        exact List.prefix_append _ _

theorem tx_loop_spec {cfg : TxConfig} (hfits : ∀ lens, cfg.Lengths lens → CopyFits 0 14 lens)
    (call : TxCall) (n nb_pkt : ℕ) (pool : List Segment) :
    ∃ pkts rest, tx_loop cfg call n nb_pkt pool = some (pkts, rest) ∧
      ∀ pkt ∈ pkts, IsTxPacket cfg call pkt := by
  induction n generalizing nb_pkt pool with
  | zero => exact ⟨[], pool, rfl, List.forall_mem_nil _⟩
  | succ n ih =>
    obtain ⟨-, hlens⟩ :=
      alloc_segs_bufs (cfg.lengths.take (cfg.nb_segs (call.random nb_pkt))) pool
    unfold tx_loop
    generalize alloc_segs (cfg.lengths.take (cfg.nb_segs (call.random nb_pkt))) pool = result
      at hlens
    obtain ⟨_ | segs, rest⟩ := result
    · exact ⟨[], rest, rfl, List.forall_mem_nil _⟩
    · obtain ⟨segs', pkt, hcopy, hpkt, hok⟩ := packet_spec hfits call
        ⟨call.random nb_pkt, hlens segs rfl⟩
      obtain ⟨pkts, left, hloop, hall⟩ := ih (nb_pkt + 1) rest
      refine ⟨pkt :: pkts, left, ?_, List.forall_mem_cons.mpr ⟨hok, hall⟩⟩
      simp only [hcopy, hpkt, hloop, Option.bind_eq_bind, Option.bind_some]

/-- **No call fails, every packet that is sent has the header, and every buffer of the pool is
    in a packet that is sent or given back, or still in it**, whatever the pool, the
    device and `random` answer, if the header fits into the segments of every packet that
    the configuration allows. -/
theorem pkt_burst_transmit_sends (cfg : TxConfig)
    (hfits : ∀ lens, cfg.Lengths lens → CopyFits 0 14 lens) (call : TxCall) (c : Counters) :
    ∃ burst, pkt_burst_transmit cfg call c = some burst ∧
      (∀ pkt ∈ burst.sent, IsTxPacket cfg call pkt) ∧
      (segments burst.sent ++ segments burst.freed ++ burst.pool).map Segment.buf =
        call.pool.map Segment.buf := by
  obtain ⟨pkts, rest, hloop, hall⟩ := tx_loop_spec hfits call cfg.nb_pkt_per_burst 0 call.pool
  have hburst : ∃ burst, pkt_burst_transmit cfg call c = some burst ∧
      ∀ pkt ∈ burst.sent, IsTxPacket cfg call pkt := by
    unfold pkt_burst_transmit
    rw [hloop]
    by_cases hnone : pkts = []
    · subst hnone
      exact ⟨_, rfl, List.forall_mem_nil _⟩
    · refine ⟨finish c rest pkts (tx_burst call.answer pkts.length), ?_, ?_⟩
      · show (if pkts = [] then _ else _) = _
        rw [if_neg hnone]
      · exact fun pkt hpkt => hall pkt (List.mem_of_mem_take hpkt)
  obtain ⟨burst, hburst, hsent⟩ := hburst
  exact ⟨burst, hburst, hsent, pkt_burst_transmit_bufs hburst⟩

/-- Two segments, of which the first has the header; `set txsplit rand` may leave the
    second one out. -/
def two_segments : TxConfig where
  flags := ⟨0, 0⟩
  nb_pkt_per_burst := 32
  split := .TX_PKT_SPLIT_RND
  lengths := [40, 24]

theorem pkt_burst_transmit_sends_two :
    let call : TxCall := ⟨.plain, fun _ => 0, [blank 0 0, blank 1 0, blank 2 0], id, 1⟩
    ∃ burst, pkt_burst_transmit two_segments call ⟨0, 0, 0⟩ = some burst ∧
      (∀ pkt ∈ burst.sent, IsTxPacket two_segments call pkt) ∧
      (segments burst.sent ++ segments burst.freed ++ burst.pool).map Segment.buf = [0, 1, 2] := by
  apply pkt_burst_transmit_sends two_segments
  intro lens hlens
  obtain ⟨random, rfl⟩ := hlens
  show CopyFits 0 14 ([40, 24].take (random % 2 + 1))
  rcases Nat.mod_two_eq_zero_or_one random with hmod | hmod
  · rw [hmod]
    decide
  · rw [hmod]
    decide

end TestPmd
