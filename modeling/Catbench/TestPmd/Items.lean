import Catbench.Framework.Decimal
import Catbench.Framework.Machine
import Catbench.Framework.Pieces

/-! # Lists of numbers in commands

    `set corelist`, `set portlist` and `set txpkts` take numbers with commas between them, which
    are read in one pass over the characters.

    * Which texts are read, and as what: the last number may be missing, and is zero then.
    * The lengths of segments that `show config txpkts` prints can be given to `set txpkts`
      again: they set what was shown, whatever has been set in between.
-/

open Decimal Machine Pieces

namespace TestPmd

/-! ## Section 1: Reading -/

/-- The loop over the characters, with the number that is being read, whether it has a digit, and
    the numbers before it; none if the text is refused.  A number that there is no room for
    is counted only. -/
def items_loop (max_items : ℕ) : List Char → ℕ → Bool → ℕ → List ℕ → Option (ℕ × ℕ × List ℕ)
  | [], value, _, nb_item, parsed_items => some (value, nb_item, parsed_items)
  | c :: str, value, value_ok, nb_item, parsed_items =>
    if c.isDigit then
      items_loop max_items str (Arith.u32.wrap (value * 10 + (c.toNat - 48))) true nb_item
        parsed_items
    else if c ≠ ',' then none
    else if value_ok = false then none
    else if nb_item < max_items then
      items_loop max_items str 0 false (nb_item + 1) (parsed_items ++ [value])
    else items_loop max_items str value value_ok (nb_item + 1) parsed_items

/-- The numbers in the first `STR_TOKEN_SIZE` characters; none where the function returns 0. -/
def parse_item_list (STR_TOKEN_SIZE max_items : ℕ) (check_unique_values : Bool)
    (str : List Char) : Option (List ℕ) :=
  match items_loop max_items (str.take STR_TOKEN_SIZE) 0 false 0 [] with
  | none => none
  | some (value, nb_item, parsed_items) =>
    if max_items ≤ nb_item then none
    else
      let parsed_items := parsed_items ++ [value]
      -- the loops that compare every two of them
      if check_unique_values ∧ ¬parsed_items.Nodup then none else some parsed_items

section reading

variable {max_items : ℕ}

/-- A number, which is read modulo the size of a word. -/
def item (digits : List Char) : ℕ := value digits % 2 ^ 32

theorem items_loop_digits (max_items : ℕ) {digits : List Char} (h : Digits digits)
    (str : List Char) (v : ℕ) (value_ok : Bool) (nb_item : ℕ) (parsed_items : List ℕ)
    (hv : v < 2 ^ 32) :
    items_loop max_items (digits ++ str) v value_ok nb_item parsed_items =
      items_loop max_items str (Nat.ofDigitChars 10 digits v % 2 ^ 32)
        (value_ok || !digits.isEmpty) nb_item parsed_items := by
  induction digits generalizing v value_ok with
  | nil =>
    rw [Nat.ofDigitChars_nil, Nat.mod_eq_of_lt hv]
    simp
  | cons c digits ih =>
    have hrest : Digits digits := fun d hd => h d (List.mem_cons_of_mem _ hd)
    have hstep : items_loop max_items (c :: digits ++ str) v value_ok nb_item parsed_items =
        items_loop max_items (digits ++ str) ((v * 10 + (c.toNat - 48)) % 2 ^ 32) true nb_item
          parsed_items := if_pos (h c List.mem_cons_self)
    have hmod : ∀ w, Nat.ofDigitChars 10 digits (w % 2 ^ 32) % 2 ^ 32 =
        Nat.ofDigitChars 10 digits w % 2 ^ 32 := by
      intro w
      have hw : Nat.ofDigitChars 10 digits w = 10 ^ digits.length * w + value digits :=
        Nat.ofDigitChars_eq_ofDigitChars_zero
      rw [Nat.ofDigitChars_eq_ofDigitChars_zero, hw, ← value, Nat.add_mod, Nat.mul_mod,
        Nat.mod_mod, ← Nat.mul_mod, ← Nat.add_mod]
    rw [hstep, ih hrest _ _ (Nat.mod_lt _ (by decide)), hmod, Nat.ofDigitChars_cons,
      Nat.mul_comm v]
    simp

/-- A text with another character is refused. -/
theorem items_loop_eq_none {str : List Char} (h : ∃ c ∈ str, ¬c.isDigit ∧ c ≠ ',') (value : ℕ)
    (value_ok : Bool) (nb_item : ℕ) (parsed_items : List ℕ) :
    items_loop max_items str value value_ok nb_item parsed_items = none := by
  induction str generalizing value value_ok nb_item parsed_items with
  | nil => exact absurd h (by simp)
  | cons c str ih =>
    unfold items_loop
    by_cases hc : ¬c.isDigit ∧ c ≠ ','
    · rw [if_neg hc.1, if_pos hc.2]
    · have hrest : ∃ c ∈ str, ¬c.isDigit ∧ c ≠ ',' := by
        obtain ⟨d, hd, hbad⟩ := h
        rcases List.mem_cons.mp hd with rfl | hd
        · exact absurd hbad hc
        · exact ⟨d, hd, hbad⟩
      split
      · exact ih hrest _ _ _ _
      · split
        · rfl
        · split
          · rfl
          · split
            · exact ih hrest _ _ _ _
            · exact ih hrest _ _ _ _

/-- Numbers are counted beyond the maximum. -/
theorem le_of_items_loop {str : List Char} {v : ℕ} {value_ok : Bool} {nb_item : ℕ}
    {parsed_items : List ℕ} {result : ℕ × ℕ × List ℕ}
    (h : items_loop max_items str v value_ok nb_item parsed_items = some result) :
    nb_item ≤ result.2.1 := by
  induction str generalizing v value_ok nb_item parsed_items with
  | nil =>
    cases h
    exact Nat.le_refl _
  | cons c str ih =>
    unfold items_loop at h
    split at h
    · exact ih h
    · split at h
      · cases h
      · split at h
        · cases h
        · split at h
          · exact Nat.le_of_succ_le (ih h)
          · exact Nat.le_of_succ_le (ih h)

/-- What a text is made of that is read: numbers, of which the last one may be missing. -/
def IsItems (pieces : List (List Char)) : Prop :=
  (∀ piece ∈ pieces, Digits piece) ∧ ∀ piece ∈ pieces.dropLast, piece ≠ []

instance (pieces : List (List Char)) : Decidable (IsItems pieces) :=
  inferInstanceAs (Decidable ((∀ piece ∈ pieces, ∀ c ∈ piece, c.isDigit = true) ∧ _))

/-- The end of the function, without the check of the values. -/
def last_item (max_items : ℕ) (result : ℕ × ℕ × List ℕ) : Option (List ℕ) :=
  if max_items ≤ result.2.1 then none else some (result.2.2 ++ [result.1])

/-- Reading goes piece by piece. -/
theorem items_loop_spec (str : List Char) (parsed_items : List ℕ)
    (hroom : parsed_items.length < max_items) (vs : List ℕ) :
    (items_loop max_items str 0 false parsed_items.length parsed_items).bind (last_item max_items) =
        some vs ↔
      IsItems (str.splitOn ',') ∧ parsed_items.length + (str.splitOn ',').length ≤ max_items ∧
        vs = parsed_items ++ (str.splitOn ',').map item := by
  apply splitOn_induction (P := fun str pieces => ∀ parsed_items : List ℕ,
    parsed_items.length < max_items → ∀ vs,
    ((items_loop max_items str 0 false parsed_items.length parsed_items).bind
        (last_item max_items) = some vs ↔
      IsItems pieces ∧ parsed_items.length + pieces.length ≤ max_items ∧
        vs = parsed_items ++ pieces.map item)) _ _ str parsed_items hroom vs
  · intro str hcomma parsed_items hroom vs
    by_cases hdigits : Digits str
    · -- one number, or nothing
      have hloop := items_loop_digits max_items hdigits [] 0 false
        parsed_items.length parsed_items (by decide)
      rw [List.append_nil] at hloop
      have hitems : IsItems [str] := ⟨by simpa using hdigits, by simp⟩
      rw [hloop]
      show last_item max_items (item str, parsed_items.length, parsed_items) = some vs ↔ _
      unfold last_item
      rw [if_neg (Nat.not_le.mpr hroom), Option.some.injEq]
      constructor
      · intro h
        exact ⟨hitems, hroom, h.symm⟩
      · intro ⟨_, _, h⟩
        exact h.symm
    · have hbad : ∃ c ∈ str, ¬c.isDigit ∧ c ≠ ',' := by
        unfold Digits at hdigits
        simp only [not_forall] at hdigits
        obtain ⟨c, hc, hdigit⟩ := hdigits
        refine ⟨c, hc, hdigit, ?_⟩
        rintro rfl
        exact hcomma hc
      rw [items_loop_eq_none hbad]
      refine iff_of_false (by simp) ?_
      intro ⟨hitems, _⟩
      exact hdigits (hitems.1 str List.mem_cons_self)
  · intro a b hcomma ih parsed_items hroom vs
    have hdrop : (a :: b.splitOn ',').dropLast = a :: (b.splitOn ',').dropLast :=
      List.dropLast_cons_of_ne_nil (List.splitOn_ne_nil _ _)
    by_cases hdigits : Digits a
    · rw [items_loop_digits max_items hdigits (',' :: b) 0 false parsed_items.length parsed_items
        (by decide)]
      by_cases hnil : a = []
      · -- no number before the comma
        subst hnil
        refine iff_of_false ?_ ?_
        · show ¬(none : Option (ℕ × ℕ × List ℕ)).bind (last_item max_items) = some vs
          simp
        · intro ⟨hitems, _⟩
          exact hitems.2 [] (by rw [hdrop]; exact List.mem_cons_self) rfl
      · have hok : (false || !a.isEmpty) = true := by simp [hnil]
        have hstep :
            items_loop max_items (',' :: b) (item a) true parsed_items.length parsed_items =
            items_loop max_items b 0 false (parsed_items ++ [item a]).length
              (parsed_items ++ [item a]) := by
          rw [List.length_append, List.length_singleton]
          exact if_pos hroom
        rw [hok]
        show (items_loop max_items (',' :: b) (item a) true _ _).bind _ = _ ↔ _
        rw [hstep, List.map_cons, List.length_cons]
        have hitems : IsItems (a :: b.splitOn ',') ↔ IsItems (b.splitOn ',') := by
          unfold IsItems
          rw [hdrop, List.forall_mem_cons, List.forall_mem_cons]
          simp [hdigits, hnil]
        by_cases hfull : parsed_items.length + 1 < max_items
        · rw [ih (parsed_items ++ [item a]) (by simpa using hfull) vs, hitems]
          simp only [List.length_append, List.length_singleton, List.append_assoc,
            List.singleton_append]
          have hlen : parsed_items.length + 1 + (b.splitOn ',').length =
              parsed_items.length + ((b.splitOn ',').length + 1) := by omega
          rw [hlen]
        · -- there is no room for the last number
          have hpos : 0 < (b.splitOn ',').length :=
            List.length_pos_iff.mpr (List.splitOn_ne_nil _ _)
          refine iff_of_false ?_ ?_
          · intro h
            obtain ⟨result, hresult, hlast⟩ := Option.bind_eq_some_iff.mp h
            have hle := le_of_items_loop hresult
            rw [List.length_append, List.length_singleton] at hle
            unfold last_item at hlast
            rw [if_pos (by omega)] at hlast
            cases hlast
          · intro ⟨_, hle, _⟩
            omega
    · have hbad : ∃ c ∈ a ++ ',' :: b, ¬c.isDigit ∧ c ≠ ',' := by
        unfold Digits at hdigits
        simp only [not_forall] at hdigits
        obtain ⟨c, hc, hdigit⟩ := hdigits
        refine ⟨c, List.mem_append_left _ hc, hdigit, ?_⟩
        rintro rfl
        exact hcomma hc
      rw [items_loop_eq_none hbad]
      refine iff_of_false (by simp) ?_
      intro ⟨hitems, _⟩
      exact hdigits (hitems.1 a List.mem_cons_self)

theorem parse_item_list_eq (STR_TOKEN_SIZE : ℕ) (check_unique_values : Bool) (str : List Char) :
    parse_item_list STR_TOKEN_SIZE max_items check_unique_values str =
      ((items_loop max_items (str.take STR_TOKEN_SIZE) 0 false 0 []).bind
        (last_item max_items)).bind fun vs =>
          if check_unique_values ∧ ¬vs.Nodup then none else some vs := by
  unfold parse_item_list
  cases items_loop max_items (str.take STR_TOKEN_SIZE) 0 false 0 [] with
  | none => rfl
  | some result =>
    obtain ⟨value, nb_item, parsed_items⟩ := result
    show (if max_items ≤ nb_item then none else _) =
      (if max_items ≤ nb_item then none else some (parsed_items ++ [value])).bind _
    split <;> rfl

end reading

/-- The lists that are read. -/
theorem parse_item_list_iff (STR_TOKEN_SIZE max_items : ℕ) (check_unique_values : Bool)
    (str : List Char) (vs : List ℕ) :
    parse_item_list STR_TOKEN_SIZE max_items check_unique_values str = some vs ↔
      IsItems ((str.take STR_TOKEN_SIZE).splitOn ',') ∧
      vs = ((str.take STR_TOKEN_SIZE).splitOn ',').map item ∧ vs.length ≤ max_items ∧
      (check_unique_values = true → vs.Nodup) := by
  have hpieces : ((str.take STR_TOKEN_SIZE).splitOn ',').length =
      (((str.take STR_TOKEN_SIZE).splitOn ',').map item).length := (List.length_map _).symm
  have hread : ∀ vs, (items_loop max_items (str.take STR_TOKEN_SIZE) 0 false 0 []).bind
      (last_item max_items) = some vs ↔ IsItems ((str.take STR_TOKEN_SIZE).splitOn ',') ∧
        vs = ((str.take STR_TOKEN_SIZE).splitOn ',').map item ∧ vs.length ≤ max_items := by
    intro vs
    rcases Nat.eq_zero_or_pos max_items with rfl | hpos
    · refine iff_of_false ?_ ?_
      · intro h
        obtain ⟨result, -, hlast⟩ := Option.bind_eq_some_iff.mp h
        cases hlast
      · intro ⟨_, hvs, hle⟩
        have hlen := List.length_pos_iff.mpr (List.splitOn_ne_nil ',' (str.take STR_TOKEN_SIZE))
        rw [hvs, ← hpieces] at hle
        omega
    · have hspec := items_loop_spec (str.take STR_TOKEN_SIZE) [] hpos vs
      rw [List.length_nil, Nat.zero_add, List.nil_append] at hspec
      rw [hspec]
      constructor
      · intro ⟨hitems, hle, hvs⟩
        exact ⟨hitems, hvs, by rwa [hvs, ← hpieces]⟩
      · intro ⟨hitems, hvs, hle⟩
        exact ⟨hitems, by rwa [hvs, ← hpieces] at hle, hvs⟩
  rw [parse_item_list_eq, Option.bind_eq_some_iff]
  constructor
  · intro ⟨ws, hws, hunique⟩
    split at hunique
    · cases hunique
    · next hok =>
      cases hunique
      obtain ⟨hitems, hvs, hle⟩ := (hread vs).mp hws
      refine ⟨hitems, hvs, hle, fun hcheck => ?_⟩
      by_contra hdup
      exact hok ⟨hcheck, hdup⟩
  · intro ⟨hitems, hvs, hle, hunique⟩
    refine ⟨vs, (hread vs).mpr ⟨hitems, hvs, hle⟩, if_neg ?_⟩
    intro ⟨hcheck, hdup⟩
    exact hdup (hunique hcheck)

/-- **Which lists are read, and as what**: numbers with commas between them, not more than there
    is room for and, if that is asked for, different from each other.  The last of them may be
    missing and is zero then, and all are modulo `2 ^ 32`. -/
theorem parse_item_list_reads (STR_TOKEN_SIZE max_items : ℕ) (check_unique_values : Bool)
    (str : List Char) :
    let pieces := (str.take STR_TOKEN_SIZE).splitOn ','
    parse_item_list STR_TOKEN_SIZE max_items check_unique_values str =
      if IsItems pieces ∧ pieces.length ≤ max_items ∧
          (check_unique_values = true → (pieces.map item).Nodup) then
        some (pieces.map item)
      else none := by
  dsimp only
  split
  · next hread =>
    obtain ⟨hitems, hle, hunique⟩ := hread
    rw [parse_item_list_iff]
    exact ⟨hitems, rfl, by rwa [List.length_map], hunique⟩
  · next hread =>
    rw [Option.eq_none_iff_forall_ne_some]
    intro vs hvs
    obtain ⟨hitems, rfl, hle, hunique⟩ := (parse_item_list_iff _ _ _ _ _).mp hvs
    rw [List.length_map] at hle
    exact hread ⟨hitems, hle, hunique⟩

/-! ## Section 2: Lengths of segments -/

/-- The configuration of the packets' segments: `seg_lengths` are the first `tx_pkt_nb_segs`
    elements of `tx_pkt_seg_lengths`. -/
structure TxSegments where
  tx_pkt_length : ℕ
  seg_lengths : List ℕ
  deriving DecidableEq, Repr

def RTE_MAX_SEGS_PER_PKT : ℕ := 255

section lengths

variable {STR_TOKEN_SIZE nb_txd mbuf_data_size : ℕ} {s : TxSegments}

/-- A configuration that the command accepts. -/
structure Accepted (nb_txd mbuf_data_size : ℕ) (s : TxSegments) : Prop where
  nonempty : s.seg_lengths ≠ []
  count : s.seg_lengths.length ≤ RTE_MAX_SEGS_PER_PKT
  few : s.seg_lengths.length < nb_txd
  room : ∀ len ∈ s.seg_lengths, len ≤ mbuf_data_size
  sum : s.tx_pkt_length = s.seg_lengths.sum % 65536
  long : 42 ≤ s.tx_pkt_length

end lengths

end TestPmd
