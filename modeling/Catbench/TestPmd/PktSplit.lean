import Catbench.TestPmd.Mbuf
import Mathlib.Algebra.Order.BigOperators.Group.List
import Mathlib.Algebra.Order.Group.Nat

/-! # Splitting packets in the forwarding mode `csum`

    Where `set txsplit` is on, a packet is copied into segments of the lengths of
    `set txpkts`, as many of them as it takes.  If that fails the packet is sent as it is,
    and all that was allocated for the copy is given back.

    * A copy has the data of the packet, and no buffer is lost, either way.
    * When a packet in one segment is copied.
    * The lengths are compared with the room in the buffers, but for the first segment,
      which is the last one to be allocated: when a copy runs over the end of a buffer.
-/

namespace TestPmd

/-! ## Section 1: Copying -/

/-- What the loop has done: the segments that it filled, those that it did not get to, what
    is left of the source, and how many bytes it copied. -/
structure SplitCopy where
  filled : List Segment
  unused : List Segment
  rest : List Segment
  tlen : ℕ

/-- The loop, with `slen` bytes of the first segment of `ms` left, or all of them if that is
    zero, and with the segments to fill and their lengths.  `dlen` is never more than `slen`, so
    that each turn fills a segment. -/
def copy_loop : List Segment → ℕ → List (ℕ × Segment) → SplitCopy
  | [], _, md => ⟨[], md.map Prod.snd, [], 0⟩
  | ms, _, [] => ⟨[], [], ms, 0⟩
  | seg :: ms, slen, (seglen, d) :: md =>
    let slen := if slen = 0 then seg.data_len else slen
    let dlen := min seglen slen
    let src := (seg.bytes.drop (seg.data_len - slen)).take dlen
    let rest := copy_loop (if slen - dlen = 0 then ms else seg :: ms) (slen - dlen) md
    { rest with
      filled := { d with data_len := dlen }.store 0 src :: rest.filled
      tlen := dlen + rest.tlen }

/-- The copy, or none if it fails.  The chain ends with the first segment that was not
    filled. -/
def mbuf_copy_split (m : rte_mbuf) (md : List (ℕ × Segment)) : Option rte_mbuf :=
  let copy := copy_loop m.segments 0 md
  if copy.rest ≠ [] then none
  else if copy.tlen ≠ m.pkt_len then none
  else
    match copy.filled ++ copy.unused.take 1 with
    | [] => none
    | first :: next => some { m with first, next, nb_segs := md.length, pkt_len := copy.tlen }

/-- The lengths that are used, with those before them making up `len`. -/
def used_lens (pkt_len : ℕ) : List ℕ → ℕ → List ℕ
  | [], _ => []
  | seglen :: seglens, len =>
    if len < pkt_len then seglen :: used_lens pkt_len seglens (len + seglen) else []

/-- The lengths of the segments of the copy; what is left of the packet is added to the last
    one, in 16 bits. -/
def split_lens (pkt_len : ℕ) (seglens : List ℕ) : List ℕ :=
  let lens := used_lens pkt_len seglens 0
  if lens ≠ [] ∧ lens.sum ≤ pkt_len then
    lens.dropLast ++ [(lens.getLastD 0 + (pkt_len - lens.sum)) % 65536]
  else lens

/-- The segments are allocated from the last one to the first; the result says whether the
    index got to zero.  It has gone down when a length is compared with the room. -/
def alloc_split (tailroom : ℕ) :
    List ℕ → List Segment → List Segment → Bool × List Segment × List Segment
  | [], md, pool => (true, md, pool)
  | _ :: _, md, [] => (false, md, [])
  | len :: lens, md, seg :: pool =>
    let md := { seg with data_len := 0 } :: md
    if tailroom < len then (lens.isEmpty, md, pool) else alloc_split tailroom lens md pool

/-- The copy with the pool that is left, where `seglens` are the lengths of the configuration,
    or as many of them as `random` says. -/
def pkt_copy_split (tailroom : ℕ) (seglens : List ℕ) (pool : List Segment) (pkt : rte_mbuf) :
    Option rte_mbuf × List Segment :=
  let lens := split_lens pkt.pkt_len seglens
  let (ok, md, pool) := alloc_split tailroom lens.reverse [] pool
  if ok then
    match mbuf_copy_split pkt (lens.zip md) with
    | some p => (some p, pool)
    | none => (none, md ++ pool)
  else (none, md ++ pool)

/-! ## Section 2: What the loop copies -/

section copy

variable {ms : List Segment} {slen : ℕ} {md : List (ℕ × Segment)}

/-- What is left of the source. -/
def remaining : List Segment → ℕ → List UInt8
  | [], _ => []
  | seg :: ms, slen =>
    seg.bytes.drop (seg.data_len - if slen = 0 then seg.data_len else slen) ++ flat ms

theorem remaining_zero (ms : List Segment) : remaining ms 0 = flat ms := by
  cases ms with
  | nil => rfl
  | cons seg ms =>
    show seg.bytes.drop (seg.data_len - seg.data_len) ++ flat ms = flat (seg :: ms)
    rw [Nat.sub_self, List.drop_zero, flat_cons]

/-- The data of a segment that was filled. -/
theorem bytes_filled (d : Segment) (src : List UInt8) :
    ({ d with data_len := src.length }.store 0 src).bytes = src := by
  apply List.ext_getElem?
  intro i
  rcases Nat.lt_or_ge i src.length with hin | hout
  · rw [Segment.bytes_getElem? _ hin, Segment.store_data_of_mem (Nat.zero_le i) (by omega),
      List.getElem?_eq_getElem hin]
    rfl
  · rw [List.getElem?_eq_none hout, List.getElem?_eq_none]
    rw [Segment.length_bytes]
    exact hout

/-- What every turn does. -/
theorem copy_loop_spec (ms : List Segment) (slen : ℕ) (md : List (ℕ × Segment))
    (hslen : ∀ seg ∈ ms.head?, slen ≤ seg.data_len) :
    ((copy_loop ms slen md).rest = [] → flat (copy_loop ms slen md).filled = remaining ms slen) ∧
    (copy_loop ms slen md).tlen = (flat (copy_loop ms slen md).filled).length ∧
    ((copy_loop ms slen md).filled ++ (copy_loop ms slen md).unused).map Segment.buf =
      md.map (fun d => d.2.buf) ∧
    List.Forall₂ (fun d seglen => d.data_len ≤ seglen) (copy_loop ms slen md).filled
      ((md.map Prod.fst).take (copy_loop ms slen md).filled.length) := by
  induction md generalizing ms slen with
  | nil =>
    cases ms with
    | nil => exact ⟨fun _ => rfl, rfl, rfl, List.Forall₂.nil⟩
    | cons seg ms => exact ⟨fun h => (List.cons_ne_nil _ _ h).elim, rfl, rfl, List.Forall₂.nil⟩
  | cons d md ih =>
    obtain ⟨seglen, d⟩ := d
    cases ms with
    | nil =>
      refine ⟨fun _ => rfl, rfl, ?_, List.Forall₂.nil⟩
      show ([] ++ ((seglen, d) :: md).map Prod.snd).map Segment.buf = _
      rw [List.nil_append, List.map_map]
      rfl
    | cons seg ms =>
      have hslen := hslen seg rfl
      unfold copy_loop remaining
      dsimp only
      generalize hs : (if slen = 0 then seg.data_len else slen) = s
      have hle : s ≤ seg.data_len := by
        rw [← hs]
        split <;> omega
      have hdlen : ((seg.bytes.drop (seg.data_len - s)).take (min seglen s)).length =
          min seglen s := by
        rw [List.length_take, List.length_drop, Segment.length_bytes]
        omega
      obtain ⟨hflat, htlen, hbufs, hlens⟩ := ih
        (if s - min seglen s = 0 then ms else seg :: ms) (s - min seglen s) (by
          intro first hfirst
          split at hfirst
          · omega
          · cases hfirst
            omega)
      generalize copy_loop (if s - min seglen s = 0 then ms else seg :: ms) (s - min seglen s) md =
        rest at hflat htlen hbufs hlens
      have hbytes := bytes_filled d ((seg.bytes.drop (seg.data_len - s)).take (min seglen s))
      rw [hdlen] at hbytes
      refine ⟨?_, ?_, ?_, ?_⟩
      · intro hrest
        rw [flat_cons, hbytes, hflat hrest]
        -- what was copied, and what the next turn finds
        split
        · next hall =>
          rw [hall, remaining_zero, List.take_of_length_le]
          rw [List.length_drop, Segment.length_bytes]
          omega
        · next hmore =>
          show _ ++ (seg.bytes.drop (seg.data_len - if s - min seglen s = 0 then seg.data_len
            else s - min seglen s) ++ flat ms) = _
          rw [if_neg hmore, ← List.append_assoc]
          congr 1
          have hskip : seg.data_len - (s - min seglen s) = seg.data_len - s + min seglen s := by
            omega
          rw [hskip, ← List.drop_drop, List.take_append_drop]
      · rw [flat_cons, List.length_append, hbytes, hdlen, htlen]
      · exact congrArg (d.buf :: ·) hbufs
      · exact List.Forall₂.cons (Nat.min_le_left _ _) hlens

/-- A source in one segment is exhausted if the lengths make it up. -/
theorem copy_loop_single {seg : Segment} (hpos : 0 < slen) (hslen : slen ≤ seg.data_len) :
    (copy_loop [seg] slen md).rest = [] ↔ slen ≤ (md.map Prod.fst).sum := by
  induction md generalizing slen with
  | nil =>
    refine ⟨fun h => (List.cons_ne_nil _ _ h).elim, fun h => ?_⟩
    exact absurd h (Nat.not_le.mpr hpos)
  | cons d md ih =>
    obtain ⟨seglen, d⟩ := d
    unfold copy_loop
    dsimp only
    rw [if_neg (Nat.pos_iff_ne_zero.mp hpos), List.map_cons, List.sum_cons]
    split
    · next hall =>
      have hdone : (copy_loop [] (slen - min seglen slen) md).rest = [] := by
        cases md <;> rfl
      exact ⟨fun _ => by omega, fun _ => hdone⟩
    · next hmore =>
      rw [ih (by omega) (by omega)]
      omega

end copy

/-! ## Section 3: The lengths -/

section lens

variable {pkt_len : ℕ} {seglens : List ℕ}

theorem used_lens_spec (pkt_len : ℕ) (seglens : List ℕ) (len : ℕ) :
    used_lens pkt_len seglens len = [] ∨
      len + (used_lens pkt_len seglens len).dropLast.sum < pkt_len := by
  induction seglens generalizing len with
  | nil => exact Or.inl rfl
  | cons seglen seglens ih =>
    unfold used_lens
    split
    · next hlt =>
      right
      rcases ih (len + seglen) with hnil | hsum
      · rw [hnil]
        exact hlt
      · by_cases hnil : used_lens pkt_len seglens (len + seglen) = []
        · rw [hnil]
          exact hlt
        · rw [List.dropLast_cons_of_ne_nil hnil, List.sum_cons]
          omega
    · exact Or.inl rfl

theorem dropLast_split_lens :
    (split_lens pkt_len seglens).dropLast = (used_lens pkt_len seglens 0).dropLast := by
  unfold split_lens
  dsimp only
  split
  · rw [List.dropLast_concat]
  · rfl

/-- The packet does not fit into the segments but the last one. -/
theorem split_lens_spec (h : split_lens pkt_len seglens ≠ []) :
    (split_lens pkt_len seglens).dropLast.sum < pkt_len := by
  rw [dropLast_split_lens]
  rcases used_lens_spec pkt_len seglens 0 with hnil | hsum
  · exact absurd (by unfold split_lens; rw [hnil]; rfl) h
  · omega

end lens

/-! ## Section 4: The segments -/

theorem alloc_split_spec (tailroom : ℕ) (lens : List ℕ) (md pool : List Segment) :
    let (ok, md', pool') := alloc_split tailroom lens md pool
    (ok = true ↔ lens.length ≤ pool.length ∧ ∀ len ∈ lens.dropLast, len ≤ tailroom) ∧
      (ok = true → md'.length = lens.length + md.length) ∧
      ((md' ++ pool').map Segment.buf).Perm ((md ++ pool).map Segment.buf) := by
  induction lens generalizing md pool with
  | nil => exact ⟨by simp, fun _ => (Nat.zero_add _).symm, List.Perm.refl _⟩
  | cons len lens ih =>
    cases pool with
    | nil => exact ⟨by simp, fun h => absurd h Bool.false_ne_true, List.Perm.refl _⟩
    | cons seg pool =>
      -- the segment has moved to the others
      have hmove : ((({ seg with data_len := 0 } :: md) ++ pool).map Segment.buf).Perm
          ((md ++ seg :: pool).map Segment.buf) := by
        rw [List.map_append, List.map_append, List.map_cons, List.map_cons, List.cons_append]
        exact List.perm_middle.symm
      unfold alloc_split
      dsimp only
      split
      · next hroom =>
        cases lens with
        | nil =>
          refine ⟨by simp, fun _ => ?_, hmove⟩
          rw [List.length_cons, List.length_singleton, Nat.add_comm]
        | cons last lens =>
          refine ⟨?_, fun h => absurd h Bool.false_ne_true, hmove⟩
          constructor
          · exact fun h => absurd h Bool.false_ne_true
          · intro ⟨_, hall⟩
            have hlen := hall len (by simp)
            omega
      · next hroom =>
        have hnext := ih ({ seg with data_len := 0 } :: md) pool
        generalize alloc_split tailroom lens ({ seg with data_len := 0 } :: md) pool = result
          at hnext
        obtain ⟨ok, md', pool'⟩ := result
        obtain ⟨hok, hlen, hbufs⟩ := hnext
        refine ⟨?_, ?_, hbufs.trans hmove⟩
        · rw [hok, List.length_cons, List.length_cons, Nat.succ_le_succ_iff]
          cases lens with
          | nil => simp
          | cons last lens =>
            rw [List.dropLast_cons_of_ne_nil (List.cons_ne_nil _ _), List.forall_mem_cons]
            have hle : len ≤ tailroom := by omega
            simp only [hle, true_and]
        · intro h
          rw [hlen h, List.length_cons, List.length_cons]
          omega

/-- A copy of the whole source fills all the segments. -/
theorem unused_eq_nil {m : rte_mbuf} {md : List (ℕ × Segment)} (hm : m.WellFormed)
    (hsum : (md.map Prod.fst).dropLast.sum < m.pkt_len)
    (hrest : (copy_loop m.segments 0 md).rest = []) :
    flat (copy_loop m.segments 0 md).filled = m.data ∧
      (copy_loop m.segments 0 md).tlen = m.pkt_len ∧
      (copy_loop m.segments 0 md).unused = [] := by
  obtain ⟨hflat, htlen, hbufs, hlens⟩ := copy_loop_spec m.segments 0 md
    (fun seg _ => Nat.zero_le _)
  have hdata := (hflat hrest).trans (remaining_zero _)
  have hlen : (copy_loop m.segments 0 md).tlen = m.pkt_len := by rw [htlen, hdata, hm.pkt_len]; rfl
  refine ⟨hdata, hlen, ?_⟩
  have hcount := congrArg List.length hbufs
  rw [List.length_map, List.length_append, List.length_map] at hcount
  by_contra hunused
  have hpos := List.length_pos_iff.mpr hunused
  -- the bytes in fewer segments are fewer than those of the packet
  have hle : (flat (copy_loop m.segments 0 md).filled).length ≤
      ((md.map Prod.fst).take (copy_loop m.segments 0 md).filled.length).sum := by
    rw [length_flat]
    exact List.Forall₂.sum_le_sum (List.forall₂_map_left_iff.mpr hlens)
  have hmono : ((md.map Prod.fst).take (copy_loop m.segments 0 md).filled.length).sum ≤
      (md.map Prod.fst).dropLast.sum := by
    have htake : (md.map Prod.fst).take (copy_loop m.segments 0 md).filled.length =
        ((md.map Prod.fst).dropLast).take (copy_loop m.segments 0 md).filled.length := by
      rw [List.dropLast_eq_take, List.take_take, List.length_map, Nat.min_eq_left (by omega)]
    rw [htake]
    exact List.Sublist.sum_le_sum (List.take_sublist _ _) (fun _ _ => Nat.zero_le _)
  omega

/-- The packet of a copy that succeeds. -/
theorem mbuf_copy_split_spec {m : rte_mbuf} {md : List (ℕ × Segment)} (hm : m.WellFormed)
    (hsum : (md.map Prod.fst).dropLast.sum < m.pkt_len) :
    (∀ p, mbuf_copy_split m md = some p →
      p.data = m.data ∧ p.WellFormed ∧ p.segments.map Segment.buf = md.map (fun d => d.2.buf) ∧
      List.Forall₂ (fun d seglen => d.data_len ≤ seglen) p.segments (md.map Prod.fst) ∧
      p.first.data_len = min ((md.map Prod.fst).headD 0) m.first.data_len ∧
      p = { m with first := p.first, next := p.next, nb_segs := p.nb_segs }) ∧
    ((mbuf_copy_split m md).isSome ↔ (copy_loop m.segments 0 md).rest = []) := by
  by_cases hrest : (copy_loop m.segments 0 md).rest = []
  · obtain ⟨hdata, htlen, hunused⟩ := unused_eq_nil hm hsum hrest
    obtain ⟨-, -, hbufs, hlens⟩ := copy_loop_spec m.segments 0 md
      (fun seg _ => Nat.zero_le _)
    cases md with
    | nil => exact absurd hrest (List.cons_ne_nil _ _)
    | cons d md =>
      obtain ⟨seglen, d⟩ := d
      have hfirst : ∃ first next, (copy_loop m.segments 0 ((seglen, d) :: md)).filled =
          first :: next ∧ first.data_len = min seglen m.first.data_len := ⟨_, _, rfl, rfl⟩
      obtain ⟨first, next, hfilled, hlen⟩ := hfirst
      rw [hunused, List.append_nil, hfilled] at hbufs
      rw [hfilled] at hdata hlens
      have hcount : (first :: next).length = ((seglen, d) :: md).length := by
        rw [← List.length_map Segment.buf, hbufs, List.length_map]
      have hcopy : mbuf_copy_split m ((seglen, d) :: md) =
          some { m with
            first
            next
            nb_segs := ((seglen, d) :: md).length } := by
        unfold mbuf_copy_split
        dsimp only
        rw [if_neg (not_not.mpr hrest), if_neg (not_not.mpr htlen), hfilled, hunused, htlen]
        simp only [List.take_nil, List.append_nil]
      rw [hcopy]
      refine ⟨?_, iff_of_true rfl hrest⟩
      intro p hp
      cases hp
      refine ⟨hdata, ⟨hcount.symm, ?_⟩, hbufs, ?_, hlen, rfl⟩
      · exact hm.pkt_len.trans (congrArg List.length hdata).symm
      · rwa [hcount, List.take_of_length_le (by rw [List.length_map])] at hlens
  · have hcopy : mbuf_copy_split m md = none := by
      unfold mbuf_copy_split
      dsimp only
      rw [if_pos hrest]
    rw [hcopy]
    exact ⟨fun p hp => (Option.some_ne_none p hp.symm).elim, iff_of_false Bool.false_ne_true hrest⟩

/-! ## Section 5: Copies of packets -/

section split

variable {tailroom : ℕ} {seglens : List ℕ} {pool : List Segment} {pkt : rte_mbuf}

theorem split_lens_ne_nil (hpos : 0 < pkt.pkt_len) (hseg : seglens ≠ []) :
    split_lens pkt.pkt_len seglens ≠ [] := by
  obtain ⟨seglen, rest, rfl⟩ := List.exists_cons_of_ne_nil hseg
  have hused : used_lens pkt.pkt_len (seglen :: rest) 0 ≠ [] := by
    unfold used_lens
    rw [if_pos hpos]
    exact List.cons_ne_nil _ _
  unfold split_lens
  dsimp only
  split
  · exact List.append_ne_nil_of_right_ne_nil _ (List.cons_ne_nil _ _)
  · exact hused

theorem le_of_forall₂ {segs : List Segment} {lens : List ℕ}
    (h : List.Forall₂ (fun d seglen => d.data_len ≤ seglen) segs lens)
    (hroom : ∀ len ∈ lens, len ≤ tailroom) : ∀ seg ∈ segs, seg.data_len ≤ tailroom := by
  induction h with
  | nil => exact List.forall_mem_nil _
  | cons hle _ ih =>
    rw [List.forall_mem_cons] at hroom ⊢
    exact ⟨Nat.le_trans hle hroom.1, ih hroom.2⟩

/-- A call in terms of the segments that it allocates. -/
theorem pkt_copy_split_eq (tailroom : ℕ) (seglens : List ℕ) (pool : List Segment)
    (pkt : rte_mbuf) :
    ∃ ok md rest, ((md ++ rest).map Segment.buf).Perm (pool.map Segment.buf) ∧
      (ok = true ↔ (split_lens pkt.pkt_len seglens).length ≤ pool.length ∧
        ∀ len ∈ (split_lens pkt.pkt_len seglens).tail, len ≤ tailroom) ∧
      (ok = true → md.length = (split_lens pkt.pkt_len seglens).length) ∧
      pkt_copy_split tailroom seglens pool pkt =
        if ok then
          match mbuf_copy_split pkt ((split_lens pkt.pkt_len seglens).zip md) with
          | some p => (some p, rest)
          | none => (none, md ++ rest)
        else (none, md ++ rest) := by
  have halloc := alloc_split_spec tailroom (split_lens pkt.pkt_len seglens).reverse [] pool
  unfold pkt_copy_split
  dsimp only
  generalize alloc_split tailroom (split_lens pkt.pkt_len seglens).reverse [] pool = result
    at halloc
  obtain ⟨ok, md, rest⟩ := result
  obtain ⟨hok, hlen, hbufs⟩ := halloc
  rw [List.length_reverse, List.dropLast_reverse] at hok
  simp only [List.mem_reverse] at hok
  rw [List.length_reverse] at hlen
  exact ⟨ok, md, rest, hbufs, hok, hlen, rfl⟩

/-- A copy has the data and the fields of the packet, in segments of at most the lengths that
    are used, and no buffer is lost: those of the copy and the pool that is left, or the
    pool alone if there is no copy, are those that the pool had. -/
theorem pkt_copy_split_spec (tailroom : ℕ) (pool : List Segment) (hpkt : pkt.WellFormed)
    (hpos : 0 < pkt.pkt_len) (hseg : seglens ≠ []) :
    match pkt_copy_split tailroom seglens pool pkt with
    | (some p, rest) =>
      p.data = pkt.data ∧ p.WellFormed ∧
        p = { pkt with first := p.first, next := p.next, nb_segs := p.nb_segs } ∧
        List.Forall₂ (fun d seglen => d.data_len ≤ seglen) p.segments
          (split_lens pkt.pkt_len seglens) ∧
        ((p.segments ++ rest).map Segment.buf).Perm (pool.map Segment.buf)
    | (none, rest) => (rest.map Segment.buf).Perm (pool.map Segment.buf) := by
  have hsum := split_lens_spec (split_lens_ne_nil hpos hseg)
  obtain ⟨ok, md, rest, hbufs, -, hlen, heq⟩ := pkt_copy_split_eq tailroom seglens pool pkt
  rw [heq]
  cases ok with
  | false => exact hbufs
  | true =>
    have hfst : ((split_lens pkt.pkt_len seglens).zip md).map Prod.fst =
        split_lens pkt.pkt_len seglens := List.map_fst_zip (Nat.le_of_eq (hlen rfl).symm)
    have hsnd : ((split_lens pkt.pkt_len seglens).zip md).map (fun d => d.2.buf) =
        md.map Segment.buf := by
      have hzip : ((split_lens pkt.pkt_len seglens).zip md).map Prod.snd = md :=
        List.map_snd_zip (Nat.le_of_eq (hlen rfl))
      nth_rewrite 2 [← hzip]
      rw [List.map_map]
      rfl
    obtain ⟨hcopy, -⟩ := mbuf_copy_split_spec hpkt (by rwa [hfst])
    rw [if_pos rfl]
    cases hp : mbuf_copy_split pkt ((split_lens pkt.pkt_len seglens).zip md) with
    | none => exact hbufs
    | some p =>
      obtain ⟨hdata, hwf, hsegs, hlens, -, hfields⟩ := hcopy p hp
      rw [hfst] at hlens
      refine ⟨hdata, hwf, hfields, hlens, ?_⟩
      rwa [List.map_append, hsegs, hsnd, ← List.map_append]

/-- A packet of 12 bytes. -/
def twelve_bytes : rte_mbuf where
  first := ⟨0, 12, fun i => UInt8.ofNat i⟩
  next := []
  nb_segs := 1
  pkt_len := 12
  ol_flags := 0
  l2_len := 14
  l3_len := 20
  vlan_tci := 0
  vlan_tci_outer := 0

/-- **When a copy runs over the end of a buffer**: exactly if the first segment is to take more
    than there is room for; the others have been compared with it. -/
theorem pkt_copy_split_overruns_iff (hpkt : pkt.WellFormed) (hpos : 0 < pkt.pkt_len)
    (hseg : seglens ≠ []) :
    (∃ p, (pkt_copy_split tailroom seglens pool pkt).1 = some p ∧
      ∃ seg ∈ p.segments, tailroom < seg.data_len) ↔
    (pkt_copy_split tailroom seglens pool pkt).1.isSome ∧
      tailroom < min ((split_lens pkt.pkt_len seglens).headD 0) pkt.first.data_len := by
  have hsum := split_lens_spec (split_lens_ne_nil hpos hseg)
  obtain ⟨ok, md, rest, -, hok, hlen, heq⟩ := pkt_copy_split_eq tailroom seglens pool pkt
  rw [heq]
  cases ok with
  | false => simp
  | true =>
    have hfst : ((split_lens pkt.pkt_len seglens).zip md).map Prod.fst =
        split_lens pkt.pkt_len seglens := List.map_fst_zip (Nat.le_of_eq (hlen rfl).symm)
    obtain ⟨hcopy, -⟩ := mbuf_copy_split_spec hpkt (by rwa [hfst])
    rw [if_pos rfl]
    cases hp : mbuf_copy_split pkt ((split_lens pkt.pkt_len seglens).zip md) with
    | none => simp
    | some p =>
      obtain ⟨-, -, -, hlens, hfirst, -⟩ := hcopy p hp
      rw [hfst] at hlens hfirst
      obtain ⟨-, hroom⟩ := hok.mp rfl
      simp only [Option.some.injEq, exists_eq_left', Option.isSome_some, true_and]
      rw [← hfirst]
      constructor
      · intro ⟨seg, hmem, hover⟩
        generalize split_lens pkt.pkt_len seglens = lens at hlens hroom
        rcases List.mem_cons.mp hmem with rfl | hnext
        · exact hover
        · -- it would be one of the segments that were compared
          exfalso
          cases hlens with
          | cons _ hnexts =>
            exact absurd (le_of_forall₂ hnexts hroom seg hnext) (Nat.not_le.mpr hover)
      · exact fun hover => ⟨p.first, List.mem_cons_self, hover⟩

/-- Into one segment of 5 bytes, which gets the rest. -/
theorem pkt_copy_split_overruns_iff_one : ∃ p,
    (pkt_copy_split 8 [5] [blank 1 0] twelve_bytes).1 = some p ∧
    ∃ seg ∈ p.segments, 8 < seg.data_len :=
  (pkt_copy_split_overruns_iff ⟨rfl, rfl⟩ (by decide) (by decide)).mpr (by decide)

/-- **A packet in one segment is copied exactly if** there are enough buffers, the lengths
    behind the first one are not more than the room, and the lengths make up the packet: what
    is added to the last one may wrap. -/
theorem pkt_copy_split_single_iff (hpkt : pkt.WellFormed) (hpos : 0 < pkt.pkt_len)
    (hseg : seglens ≠ []) (hone : pkt.next = []) :
    (pkt_copy_split tailroom seglens pool pkt).1.isSome ↔
      (split_lens pkt.pkt_len seglens).length ≤ pool.length ∧
      (∀ len ∈ (split_lens pkt.pkt_len seglens).tail, len ≤ tailroom) ∧
      pkt.pkt_len ≤ (split_lens pkt.pkt_len seglens).sum := by
  have hsum := split_lens_spec (split_lens_ne_nil hpos hseg)
  obtain ⟨ok, md, rest, -, hok, hlen, heq⟩ := pkt_copy_split_eq tailroom seglens pool pkt
  rw [heq, ← and_assoc, ← hok]
  cases ok with
  | false => simp
  | true =>
    have hfst : ((split_lens pkt.pkt_len seglens).zip md).map Prod.fst =
        split_lens pkt.pkt_len seglens := List.map_fst_zip (Nat.le_of_eq (hlen rfl).symm)
    obtain ⟨-, hcopy⟩ := mbuf_copy_split_spec hpkt (by rwa [hfst])
    have hsegs : pkt.segments = [pkt.first] := by
      unfold rte_mbuf.segments
      rw [hone]
    have hdata : pkt.first.data_len = pkt.pkt_len := by
      rw [hpkt.pkt_len, rte_mbuf.data, hsegs, length_flat, List.map_singleton, List.sum_singleton]
    have hstart : copy_loop [pkt.first] 0 ((split_lens pkt.pkt_len seglens).zip md) =
        copy_loop [pkt.first] pkt.first.data_len ((split_lens pkt.pkt_len seglens).zip md) := by
      cases (split_lens pkt.pkt_len seglens).zip md with
      | nil => rfl
      | cons d md =>
        unfold copy_loop
        rw [if_pos rfl, if_neg (by omega)]
    rw [hsegs, hstart, copy_loop_single (by omega) (Nat.le_refl _), hfst, hdata] at hcopy
    rw [if_pos rfl]
    simp only [true_and]
    rw [← hcopy]
    cases mbuf_copy_split pkt ((split_lens pkt.pkt_len seglens).zip md) <;> rfl

/-- A buffer is missing. -/
theorem pkt_copy_split_single_iff_missing :
    ¬(pkt_copy_split 8 [5, 5] [blank 1 0] twelve_bytes).1.isSome := by
  rw [pkt_copy_split_single_iff ⟨rfl, rfl⟩ (by decide) (by decide) rfl]
  decide

end split

end TestPmd
