import Catbench.Framework.Machine
import Mathlib.Algebra.BigOperators.Group.List.Basic
import Mathlib.Data.List.Perm.Basic
import Mathlib.Logic.Function.Basic

/-! # Packets and counters of the forwarding modes

    A packet is a chain of segments, each in a buffer of the pool.  Headers are
    read and written in the first segment, from its data pointer on and whatever
    the length of the data is: what is behind the data is still in the buffer.

    The functions that forward packets have the same end: the burst goes to
    `rte_eth_tx_burst`, which takes packets from the front, and what it does not
    take is counted and freed.
-/

open Machine

namespace TestPmd

/-! ## Section 1: Segments -/

abbrev ether_addr := Fin 6 → UInt8

/-- A buffer with its number in the pool, and the bytes from its data pointer on. -/
structure Segment where
  buf : ℕ
  data_len : ℕ
  data : ℕ → UInt8

/-- A buffer with zeros in it. -/
def blank (buf data_len : ℕ) : Segment := ⟨buf, data_len, fun _ => 0⟩

namespace Segment

/-- The data of the segment. -/
def bytes (seg : Segment) : List UInt8 := (List.range seg.data_len).map seg.data

/-- A byte as a number. -/
def byte (seg : Segment) (off : ℕ) : ℕ := (seg.data off).toNat

/-- `RTE_BE_TO_CPU_16` of the two bytes at an offset. -/
def be16 (seg : Segment) (off : ℕ) : ℕ := 256 * seg.byte off + seg.byte (off + 1)

/-- The two bytes at an offset as the machine loads them, the low one first. -/
def le16 (seg : Segment) (off : ℕ) : ℕ := seg.byte off + 256 * seg.byte (off + 1)

def be32 (seg : Segment) (off : ℕ) : ℕ := 65536 * seg.be16 off + seg.be16 (off + 2)

def addr (seg : Segment) (off : ℕ) : ether_addr := fun k => seg.data (off + k)

/-- The bytes written one after another from an offset on. -/
def store (seg : Segment) (off : ℕ) (bs : List UInt8) : Segment :=
  { seg with data := fun i => if off ≤ i then bs.getD (i - off) (seg.data i) else seg.data i }

def store_be16 (seg : Segment) (off w : ℕ) : Segment :=
  seg.store off [UInt8.ofNat (w / 256), UInt8.ofNat w]

def store_le16 (seg : Segment) (off w : ℕ) : Segment :=
  seg.store off [UInt8.ofNat w, UInt8.ofNat (w / 256)]

def store_be32 (seg : Segment) (off w : ℕ) : Segment :=
  (seg.store_be16 off (w / 65536)).store_be16 (off + 2) w

/-- `ether_addr_copy` to an offset. -/
def store_addr (seg : Segment) (off : ℕ) (a : ether_addr) : Segment := seg.store off (List.ofFn a)

end Segment

/-! ## Section 2: Packets -/

/-- A packet; the fields after `next` are those that describe it to the device. -/
structure rte_mbuf where
  first : Segment
  next : List Segment
  nb_segs : ℕ
  pkt_len : ℕ
  ol_flags : ℕ
  l2_len : ℕ
  l3_len : ℕ
  vlan_tci : ℕ
  vlan_tci_outer : ℕ

/-- The segments, which `rte_pktmbuf_free` gives back. -/
def rte_mbuf.segments (pkt : rte_mbuf) : List Segment := pkt.first :: pkt.next

/-- The packet with something done to its first segment. -/
def rte_mbuf.edit (pkt : rte_mbuf) (f : Segment → Segment) : rte_mbuf :=
  { pkt with first := f pkt.first }

/-- The segments of a burst. -/
def segments (pkts : List rte_mbuf) : List Segment := pkts.flatMap rte_mbuf.segments

/-- The data of a chain. -/
def flat (segs : List Segment) : List UInt8 := segs.flatMap Segment.bytes

/-- The data of a packet. -/
def rte_mbuf.data (pkt : rte_mbuf) : List UInt8 := flat pkt.segments

/-- A packet whose counts are those of its segments. -/
structure rte_mbuf.WellFormed (pkt : rte_mbuf) : Prop where
  nb_segs : pkt.nb_segs = pkt.segments.length
  pkt_len : pkt.pkt_len = pkt.data.length

/-- The fields of the port that packets are sent on. -/
structure TxPort where
  eth_addr : ether_addr
  tx_ol_flags : ℕ
  tx_vlan_id : ℕ
  tx_vlan_id_outer : ℕ

/-- A port without tags, with an address of zeros. -/
def TxPort.plain : TxPort := ⟨fun _ => 0, 0, 0, 0⟩

/-! ## Section 3: Counters -/

/-- The counters of a stream, which are `unsigned`. -/
structure Counters where
  rx_packets : ℕ
  tx_packets : ℕ
  fwd_dropped : ℕ
  deriving DecidableEq, Repr

/-- `+=` on a counter. -/
def count (c n : ℕ) : ℕ := Arith.u32.wrap (c + n)

theorem count_modEq (c n : ℕ) : count c n ≡ c + n [MOD 2 ^ 32] := wrap_modEq .u32 (c + n)

/-- The packets behind the first `nb_tx` are counted where there are any. -/
theorem dropped_modEq {α : Type*} (c : ℕ) (pkts : List α) (nb_tx : ℕ) :
    (if nb_tx < pkts.length then count c (pkts.length - nb_tx) else c) ≡
      c + (pkts.drop nb_tx).length [MOD 2 ^ 32] := by
  rw [List.length_drop]
  split
  · exact count_modEq _ _
  · next hall =>
    have hnone : pkts.length - nb_tx = 0 := by omega
    rw [hnone]
    exact Nat.ModEq.refl _

/-- What a call of `packet_fwd` makes of the counters, the packets that the device has
    taken, those that were freed, and what is left of the buffers that the pool can hand
    out. -/
structure Burst where
  counters : Counters
  sent : List rte_mbuf
  freed : List rte_mbuf
  pool : List Segment

/-- The end of the functions: of the burst `pkts`, `nb_tx` packets are taken. -/
def finish (c : Counters) (pool : List Segment) (pkts : List rte_mbuf) (nb_tx : ℕ) : Burst where
  counters :=
    { c with
      tx_packets := count c.tx_packets nb_tx
      fwd_dropped :=
        if nb_tx < pkts.length then count c.fwd_dropped (pkts.length - nb_tx) else c.fwd_dropped }
  sent := pkts.take nb_tx
  -- the loop that frees the packets from `nb_tx` on
  freed := pkts.drop nb_tx
  pool

/-- `rte_eth_tx_burst` takes at most what it is offered. -/
def tx_burst (answer nb : ℕ) : ℕ := min answer nb

/-! ## Section 4: What is read after it was written -/

namespace Segment

variable {seg : Segment} {off i : ℕ} {bs : List UInt8}

@[simp] theorem store_data_len : (seg.store off bs).data_len = seg.data_len := rfl

/-- The written bytes are there. -/
theorem store_data_of_mem (hlow : off ≤ i) (hhigh : i < off + bs.length) :
    (seg.store off bs).data i = bs[i - off] := by
  show (if off ≤ i then bs.getD (i - off) (seg.data i) else seg.data i) = _
  rw [if_pos hlow, List.getD_eq_getElem?_getD, List.getElem?_eq_getElem (by omega)]
  rfl

/-- The others are as before. -/
theorem store_data_of_not_mem (h : i < off ∨ off + bs.length ≤ i) :
    (seg.store off bs).data i = seg.data i := by
  show (if off ≤ i then bs.getD (i - off) (seg.data i) else seg.data i) = _
  rcases h with h | h
  · rw [if_neg (Nat.not_le.mpr h)]
  · rw [if_pos (by omega), List.getD_eq_getElem?_getD, List.getElem?_eq_none (by omega)]
    rfl

theorem length_bytes (seg : Segment) : seg.bytes.length = seg.data_len := by
  rw [bytes, List.length_map, List.length_range]

theorem bytes_getElem? (seg : Segment) {i : ℕ} (h : i < seg.data_len) :
    seg.bytes[i]? = some (seg.data i) := by
  rw [bytes, List.getElem?_map, List.getElem?_range h]
  rfl

theorem byte_lt (seg : Segment) (off : ℕ) : seg.byte off < 256 := (seg.data off).toNat_lt

/-- A segment is known by its bytes. -/
theorem eq_of_byte {seg' : Segment} (hbuf : seg'.buf = seg.buf)
    (hlen : seg'.data_len = seg.data_len) (h : ∀ i, seg'.byte i = seg.byte i) : seg' = seg := by
  cases seg
  cases seg'
  obtain rfl : _ = _ := hbuf
  obtain rfl : _ = _ := hlen
  congr 1
  funext i
  exact UInt8.toNat_inj.mp (h i)

theorem le16_lt (seg : Segment) (off : ℕ) : seg.le16 off < 65536 := by
  have hlow := seg.byte_lt off
  have hhigh := seg.byte_lt (off + 1)
  unfold le16
  omega

theorem be16_lt (seg : Segment) (off : ℕ) : seg.be16 off < 65536 := by
  have hlow := seg.byte_lt off
  have hhigh := seg.byte_lt (off + 1)
  unfold be16
  omega

/-- A byte that is not written to. -/
theorem byte_store (h : i < off ∨ off + bs.length ≤ i) :
    (seg.store off bs).byte i = seg.byte i := by
  rw [byte, store_data_of_not_mem h]
  rfl

theorem le16_store (h : i + 1 < off ∨ off + bs.length ≤ i) :
    (seg.store off bs).le16 i = seg.le16 i := by
  rw [le16, byte_store (by omega), byte_store (by omega)]
  rfl

theorem addr_store_addr {a : ether_addr} : (seg.store_addr off a).addr off = a := by
  funext k
  show (seg.store off (List.ofFn a)).data (off + k) = a k
  rw [store_data_of_mem (Nat.le_add_right off k) (by rw [List.length_ofFn]; omega),
    List.getElem_ofFn]
  congr 1
  exact Fin.ext (Nat.add_sub_cancel_left off k)

theorem addr_store_addr_of_disjoint {a : ether_addr} {k : ℕ} (h : k + 6 ≤ off ∨ off + 6 ≤ k) :
    (seg.store_addr off a).addr k = seg.addr k := by
  funext j
  show (seg.store off (List.ofFn a)).data (k + j) = seg.data (k + j)
  rw [store_data_of_not_mem]
  rw [List.length_ofFn]
  omega

/-- A word that is stored with the low byte first. -/
theorem byte_store_le16 {w : ℕ} : (seg.store_le16 off w).byte i =
    if i = off then w % 256 else if i = off + 1 then w / 256 % 256 else seg.byte i := by
  unfold byte store_le16
  split_ifs with h0 h1
  · rw [store_data_of_mem (by omega) (by simp; omega)]
    simp [h0]
  · rw [store_data_of_mem (by omega) (by simp; omega)]
    simp [h1]
  · rw [store_data_of_not_mem (by simp; omega)]

theorem le16_store_le16 {w : ℕ} (h : w < 65536) : (seg.store_le16 off w).le16 off = w := by
  unfold le16
  rw [byte_store_le16, byte_store_le16, if_pos rfl, if_neg (Nat.succ_ne_self off), if_pos rfl]
  omega

/-- A word stored over itself. -/
theorem store_le16_eq_self {w : ℕ} (h : seg.le16 off = w) : seg.store_le16 off w = seg := by
  subst h
  refine eq_of_byte rfl rfl ?_
  intro i
  have hlow := seg.byte_lt off
  have hhigh := seg.byte_lt (off + 1)
  rw [byte_store_le16]
  split_ifs with h0 h1
  · subst h0
    unfold le16
    omega
  · subst h1
    unfold le16
    omega
  · rfl

theorem store_le16_store_le16 {v w : ℕ} :
    (seg.store_le16 off v).store_le16 off w = seg.store_le16 off w := by
  refine eq_of_byte rfl rfl ?_
  intro i
  rw [byte_store_le16, byte_store_le16, byte_store_le16]
  split_ifs <;> rfl

/-- A word elsewhere. -/
theorem le16_store_le16_of_disjoint {w : ℕ} (h : i + 1 < off ∨ off + 1 < i) :
    (seg.store_le16 off w).le16 i = seg.le16 i := by
  unfold le16
  rw [byte_store_le16, byte_store_le16, if_neg (by omega), if_neg (by omega), if_neg (by omega),
    if_neg (by omega)]

/-- A word that is stored with the high byte first. -/
theorem byte_store_be16 {w : ℕ} : (seg.store_be16 off w).byte i =
    if i = off then w / 256 % 256 else if i = off + 1 then w % 256 else seg.byte i := by
  unfold byte store_be16
  split_ifs with h0 h1
  · rw [store_data_of_mem (by omega) (by simp; omega)]
    simp [h0]
  · rw [store_data_of_mem (by omega) (by simp; omega)]
    simp [h1]
  · rw [store_data_of_not_mem (by simp; omega)]

theorem byte_store_be32 {w : ℕ} : (seg.store_be32 off w).byte i =
    if i = off then w / 16777216 % 256 else if i = off + 1 then w / 65536 % 256
    else if i = off + 2 then w / 256 % 256 else if i = off + 3 then w % 256
    else seg.byte i := by
  unfold store_be32
  rw [byte_store_be16, byte_store_be16]
  split_ifs <;> omega

theorem byte_store_be32_of_disjoint {w : ℕ} (h : i < off ∨ off + 4 ≤ i) :
    (seg.store_be32 off w).byte i = seg.byte i := by
  rw [byte_store_be32, if_neg (by omega), if_neg (by omega), if_neg (by omega),
    if_neg (by omega)]

theorem be32_eq (seg : Segment) (off : ℕ) : seg.be32 off =
    16777216 * seg.byte off + 65536 * seg.byte (off + 1) + 256 * seg.byte (off + 2) +
      seg.byte (off + 3) := by
  show 65536 * (256 * seg.byte off + seg.byte (off + 1)) +
    (256 * seg.byte (off + 2) + seg.byte (off + 3)) = _
  omega

theorem be32_store_be32 {w : ℕ} (h : w < 2 ^ 32) : (seg.store_be32 off w).be32 off = w := by
  rw [be32_eq]
  simp only [byte_store_be32]
  split_ifs <;> omega

/-! ### Words that are the same -/

theorem le16_store_be16_of_disjoint {w : ℕ} (h : i + 1 < off ∨ off + 1 < i) :
    (seg.store_be16 off w).le16 i = seg.le16 i := by
  unfold le16
  rw [byte_store_be16, byte_store_be16]
  split_ifs <;> omega

theorem le16_store_be32_of_disjoint {w : ℕ} (h : i + 1 < off ∨ off + 3 < i) :
    (seg.store_be32 off w).le16 i = seg.le16 i := by
  unfold le16
  rw [byte_store_be32, byte_store_be32]
  split_ifs <;> omega

theorem be16_congr {seg' : Segment} {off' : ℕ}
    (h : ∀ k < 2, seg'.byte (off' + k) = seg.byte (off + k)) : seg'.be16 off' = seg.be16 off := by
  have h0 := h 0 (by decide)
  rw [Nat.add_zero, Nat.add_zero] at h0
  rw [be16, be16, h0, h 1 (by decide)]

theorem be32_congr {seg' : Segment} {off' : ℕ}
    (h : ∀ k < 4, seg'.byte (off' + k) = seg.byte (off + k)) : seg'.be32 off' = seg.be32 off := by
  have h0 := h 0 (by decide)
  rw [Nat.add_zero, Nat.add_zero] at h0
  rw [be32_eq, be32_eq, h0, h 1 (by decide), h 2 (by decide), h 3 (by decide)]

theorem be16_store_be16 {w : ℕ} (h : w < 65536) : (seg.store_be16 off w).be16 off = w := by
  rw [be16, byte_store_be16, byte_store_be16, if_pos rfl, if_neg (Nat.succ_ne_self off), if_pos rfl]
  omega

theorem be16_store (h : i + 2 ≤ off ∨ off + bs.length ≤ i) :
    (seg.store off bs).be16 i = seg.be16 i := by
  apply be16_congr
  intro k hk
  exact byte_store (by omega)

theorem be16_store_be16_of_disjoint {w : ℕ} (h : i + 2 ≤ off ∨ off + 2 ≤ i) :
    (seg.store_be16 off w).be16 i = seg.be16 i := be16_store h

theorem be16_store_le16_of_disjoint {w : ℕ} (h : i + 2 ≤ off ∨ off + 2 ≤ i) :
    (seg.store_le16 off w).be16 i = seg.be16 i := be16_store h

theorem be16_store_be32_of_disjoint {w : ℕ} (h : i + 2 ≤ off ∨ off + 4 ≤ i) :
    (seg.store_be32 off w).be16 i = seg.be16 i := by
  apply be16_congr
  intro k hk
  rw [byte_store_be32]
  split_ifs <;> omega

theorem be32_store_le16_of_disjoint {w : ℕ} (h : i + 4 ≤ off ∨ off + 2 ≤ i) :
    (seg.store_le16 off w).be32 i = seg.be32 i := by
  apply be32_congr
  intro k hk
  rw [byte_store_le16]
  split_ifs <;> omega

theorem be32_store_be16_of_disjoint {w : ℕ} (h : i + 4 ≤ off ∨ off + 2 ≤ i) :
    (seg.store_be16 off w).be32 i = seg.be32 i := by
  apply be32_congr
  intro k hk
  rw [byte_store_be16]
  split_ifs <;> omega

theorem be32_store_be32_of_disjoint {w : ℕ} (h : i + 4 ≤ off ∨ off + 4 ≤ i) :
    (seg.store_be32 off w).be32 i = seg.be32 i := by
  apply be32_congr
  intro k hk
  rw [byte_store_be32]
  split_ifs <;> omega

/-! ### What is written to -/

/-- The second segment is the first one with bytes changed at some places only. -/
structure Edited (places : ℕ → Prop) (seg seg' : Segment) : Prop where
  buf : seg'.buf = seg.buf
  data_len : seg'.data_len = seg.data_len
  byte : ∀ i, ¬places i → seg'.byte i = seg.byte i

namespace Edited

variable {places : ℕ → Prop} {seg' seg'' : Segment}

theorem refl (places : ℕ → Prop) (seg : Segment) : Edited places seg seg :=
  ⟨rfl, rfl, fun _ _ => rfl⟩

theorem trans (h : Edited places seg seg') (h' : Edited places seg' seg'') :
    Edited places seg seg'' :=
  ⟨h'.buf.trans h.buf, h'.data_len.trans h.data_len,
    fun i hi => (h'.byte i hi).trans (h.byte i hi)⟩

theorem mono {more : ℕ → Prop} (h : Edited places seg seg') (hmore : ∀ i, places i → more i) :
    Edited more seg seg' :=
  ⟨h.buf, h.data_len, fun i hi => h.byte i fun hp => hi (hmore i hp)⟩

theorem store (h : Edited places seg seg')
    (hall : ∀ i, off ≤ i → i < off + bs.length → places i) :
    Edited places seg (seg'.store off bs) := by
  refine ⟨h.buf, h.data_len, fun i hi => ?_⟩
  rw [byte_store, h.byte i hi]
  by_contra hin
  exact hi (hall i (by omega) (by omega))

theorem store_le16 {w : ℕ} (h : Edited places seg seg') (h0 : places off)
    (h1 : places (off + 1)) : Edited places seg (seg'.store_le16 off w) := by
  refine h.store fun i hlow hhigh => ?_
  obtain rfl | rfl : i = off ∨ i = off + 1 := by
    simp only [List.length_cons, List.length_nil] at hhigh
    omega
  · exact h0
  · exact h1

theorem store_be32 {w : ℕ} (h : Edited places seg seg')
    (hall : ∀ i, off ≤ i → i < off + 4 → places i) :
    Edited places seg (seg'.store_be32 off w) := by
  refine ⟨h.buf, h.data_len, fun i hi => ?_⟩
  rw [byte_store_be32_of_disjoint, h.byte i hi]
  by_contra hin
  exact hi (hall i (by omega) (by omega))

end Edited

end Segment

theorem segments_append (pkts pkts' : List rte_mbuf) :
    segments (pkts ++ pkts') = segments pkts ++ segments pkts' := List.flatMap_append

theorem flat_cons {seg : Segment} {segs : List Segment} :
    flat (seg :: segs) = seg.bytes ++ flat segs := List.flatMap_cons

theorem length_flat (segs : List Segment) :
    (flat segs).length = (segs.map Segment.data_len).sum := by
  induction segs with
  | nil => rfl
  | cons seg segs ih =>
    rw [flat_cons, List.length_append, Segment.length_bytes, ih, List.map_cons, List.sum_cons]

end TestPmd
