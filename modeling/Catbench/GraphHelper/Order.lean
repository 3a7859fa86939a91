import Catbench.GraphHelper.Model
import Catbench.Framework.Recursion
import Mathlib.Data.List.Perm.Basic
import Mathlib.Tactic.Linarith
import Mathlib.Algebra.Order.Ring.Rat

/-! # When `order_bucket` ends

    The bucket of the series near the pivot holds the pivot again, as its last
    element, so that a call may be for a list as long as its own.  The next
    pivot is the next series, and sooner or later one comes that splits the
    list; unless all series are within the threshold of one another, and two of
    them exactly at the threshold.  These are not close for `all_close`, and not
    apart for the buckets.
-/

namespace GraphHelper

variable {N D L : Type} {tuples : N → Series D L} {threshold : ℚ}

/-! ## Section 1: One call -/

theorem all_close_iff {series : List N} :
    all_close series tuples threshold = true ↔
      ∀ x ∈ series, ∀ y ∈ series, (tuples y).mean < (tuples x).mean + threshold := by
  simp only [all_close, List.all_eq_true, Bool.not_eq_true', Bool.or_eq_false_iff,
    decide_eq_false_iff_not, not_le, ge_iff_le]
  constructor
  · intro h x hx y hy
    exact (h x hx y hy).1
  · intro h x hx y hy
    have hyx := h y hy x hx
    exact ⟨h x hx y hy, by linarith⟩

/-- Where a series goes that is not the pivot itself. -/
def below (tuples : N → Series D L) (threshold : ℚ) (baseline name : N) : Bool :=
  decide ((tuples baseline).mean - threshold > (tuples name).mean)

def above (tuples : N → Series D L) (threshold : ℚ) (baseline name : N) : Bool :=
  !below tuples threshold baseline name &&
    decide ((tuples baseline).mean + threshold < (tuples name).mean)

def near (tuples : N → Series D L) (threshold : ℚ) (baseline name : N) : Bool :=
  !below tuples threshold baseline name && !above tuples threshold baseline name

theorem below_iff {p n : N} :
    below tuples threshold p n = true ↔ (tuples n).mean < (tuples p).mean - threshold := by
  simp [below]

theorem above_iff (h0 : 0 ≤ threshold) {p n : N} :
    above tuples threshold p n = true ↔ (tuples p).mean + threshold < (tuples n).mean := by
  simp only [above, below, Bool.and_eq_true, Bool.not_eq_true', decide_eq_false_iff_not,
    decide_eq_true_eq, and_iff_right_iff_imp, gt_iff_lt, not_lt]
  intro h
  linarith

theorem near_iff (h0 : 0 ≤ threshold) {p n : N} :
    near tuples threshold p n = true ↔
      (tuples p).mean - threshold ≤ (tuples n).mean ∧
        (tuples n).mean ≤ (tuples p).mean + threshold := by
  simp only [near, Bool.and_eq_true, Bool.not_eq_true', ← Bool.not_eq_true, below_iff,
    above_iff h0, not_lt]

variable [DecidableEq N]

/-- The loop returns at the first other series if all are close, and else
    fills the buckets. -/
theorem fill_buckets_eq (series : List N) (p : N) (names : List N) (b : Buckets N) :
    fill_buckets series tuples threshold p names b =
      if names.filter (· ≠ p) ≠ [] ∧ all_close series tuples threshold then none
      else some
        { smaller := b.smaller ++ (names.filter (· ≠ p)).filter (below tuples threshold p)
          bigger := b.bigger ++ (names.filter (· ≠ p)).filter (above tuples threshold p)
          same := b.same ++ (names.filter (· ≠ p)).filter (near tuples threshold p) } := by
  induction names generalizing b with
  | nil => simp [fill_buckets]
  | cons n names ih =>
    by_cases hn : n = p
    · rw [fill_buckets, if_pos hn, ih, List.filter_cons_of_neg (by simpa using hn)]
    · rw [fill_buckets, if_neg hn, List.filter_cons_of_pos (by simpa using hn)]
      by_cases hclose : all_close series tuples threshold = true
      · simp [hclose]
      · have hopen : ∀ q : Prop, ¬(q ∧ all_close series tuples threshold = true) :=
          fun _ h => hclose h.2
        rw [if_neg hclose, if_neg (hopen _)]
        by_cases hlow : (tuples p).mean - threshold > (tuples n).mean
        · rw [if_pos hlow, ih, if_neg (hopen _)]
          simp [below, above, near, hlow]
        · rw [if_neg hlow]
          by_cases hhigh : (tuples p).mean + threshold < (tuples n).mean
          · rw [if_pos hhigh, ih, if_neg (hopen _)]
            simp [below, above, near, hlow, hhigh]
          · rw [if_neg hhigh, ih, if_neg (hopen _)]
            simp [below, above, near, hlow, hhigh]

/-- The loop over a list of two or more distinct series. -/
theorem fill_buckets_start {p : N} {names : List N} (hnd : (p :: names).Nodup)
    (hne : names ≠ []) :
    fill_buckets (p :: names) tuples threshold p (p :: names) ⟨[], [], []⟩ =
      if all_close (p :: names) tuples threshold then none
      else some
        { smaller := names.filter (below tuples threshold p)
          bigger := names.filter (above tuples threshold p)
          same := names.filter (near tuples threshold p) } := by
  have hothers : (p :: names).filter (· ≠ p) = names := by
    rw [List.filter_cons_of_neg (by simp), List.filter_eq_self]
    intro n hn
    have : n ≠ p := fun h => (List.nodup_cons.mp hnd).1 (h ▸ hn)
    simpa using this
  rw [fill_buckets_eq, hothers]
  simp [hne]

/-- The lists that `order_bucket` calls itself for. -/
def calls (tuples : N → Series D L) (threshold : ℚ) : List N → List (List N)
  | [] => []
  | [_] => []
  | baseline :: names =>
    match fill_buckets (baseline :: names) tuples threshold baseline (baseline :: names)
        ⟨[], [], []⟩ with
    | none => []
    | some b => [b.smaller, b.same ++ [baseline], b.bigger]

theorem calls_cons {p : N} {names : List N} (hnd : (p :: names).Nodup) (hne : names ≠ []) :
    calls tuples threshold (p :: names) =
      if all_close (p :: names) tuples threshold then []
      else
        [names.filter (below tuples threshold p), names.filter (near tuples threshold p) ++ [p],
          names.filter (above tuples threshold p)] := by
  obtain ⟨q, rest, rfl⟩ := List.exists_cons_of_ne_nil hne
  rw [calls, fill_buckets_start hnd hne]
  by_cases hclose : all_close (p :: q :: rest) tuples threshold = true
  · rw [if_pos hclose, if_pos hclose]
  · rw [if_neg hclose, if_neg hclose]
  · exact hne

omit [DecidableEq N] in
/-- No series is lost in the buckets. -/
theorem buckets_perm (tuples : N → Series D L) (threshold : ℚ) (p : N) (names : List N) :
    (names.filter (below tuples threshold p) ++ (names.filter (near tuples threshold p) ++ [p] ++
      names.filter (above tuples threshold p))).Perm (p :: names) := by
  have hnear : names.filter (near tuples threshold p) =
      (names.filter fun n => !below tuples threshold p n).filter
        fun n => !above tuples threshold p n := by
    rw [List.filter_filter]
    congr 1
    funext n
    exact Bool.and_comm _ _
  have habove : names.filter (above tuples threshold p) =
      (names.filter fun n => !below tuples threshold p n).filter (above tuples threshold p) := by
    rw [List.filter_filter]
    congr 1
    funext n
    cases hlow : below tuples threshold p n <;> simp [above, hlow]
  have hrest : (names.filter (near tuples threshold p) ++
      names.filter (above tuples threshold p)).Perm
      (names.filter fun n => !below tuples threshold p n) := by
    rw [hnear, habove]
    exact List.perm_append_comm.trans (List.filter_append_perm _ _)
  calc names.filter (below tuples threshold p) ++ (names.filter (near tuples threshold p) ++ [p] ++
        names.filter (above tuples threshold p))
    _ = names.filter (below tuples threshold p) ++ names.filter (near tuples threshold p) ++
        p :: names.filter (above tuples threshold p) := by simp
    List.Perm _ (p :: (names.filter (below tuples threshold p) ++
        names.filter (near tuples threshold p) ++ names.filter (above tuples threshold p))) :=
      List.perm_middle
    List.Perm _ (p :: names) := by
      rw [List.append_assoc]
      exact ((hrest.append_left _).trans (List.filter_append_perm _ _)).cons p

/-! ## Section 2: Calls that split and calls that rotate -/

/-- Two series further apart than the threshold. -/
def Apart (tuples : N → Series D L) (threshold : ℚ) (x y : N) : Prop :=
  (tuples x).mean + threshold < (tuples y).mean ∨ (tuples y).mean + threshold < (tuples x).mean

/-- Two or more series within the threshold of one another, two of them exactly
    at the threshold. -/
def Tied (tuples : N → Series D L) (threshold : ℚ) (series : List N) : Prop :=
  2 ≤ series.length ∧
    (∀ x ∈ series, ∀ y ∈ series, (tuples y).mean ≤ (tuples x).mean + threshold) ∧
    ∃ x ∈ series, ∃ y ∈ series, (tuples y).mean = (tuples x).mean + threshold

omit [DecidableEq N] in
theorem near_of_not_apart (h0 : 0 ≤ threshold) {p n : N} (h : ¬Apart tuples threshold p n) :
    near tuples threshold p n = true := by
  rw [Apart, not_or, not_lt, not_lt] at h
  rw [near_iff h0]
  constructor <;> linarith [h.1, h.2]

/-- A pivot that no series is apart from goes to the end of the list. -/
theorem calls_rotate (h0 : 0 ≤ threshold) {p : N} {names : List N} (hnd : (p :: names).Nodup)
    (hne : names ≠ []) (hopen : ¬all_close (p :: names) tuples threshold = true)
    (hnear : ∀ n ∈ names, ¬Apart tuples threshold p n) :
    calls tuples threshold (p :: names) = [[], names ++ [p], []] := by
  have hkept : ∀ n ∈ names, near tuples threshold p n = true :=
    fun n hn => near_of_not_apart h0 (hnear n hn)
  have hlow : names.filter (below tuples threshold p) = [] := by
    rw [List.filter_eq_nil_iff]
    intro n hn hlow
    have := hkept n hn
    simp [near, hlow] at this
  have hhigh : names.filter (above tuples threshold p) = [] := by
    rw [List.filter_eq_nil_iff]
    intro n hn hhigh
    have := hkept n hn
    simp [near, hhigh] at this
  rw [calls_cons hnd hne, if_neg hopen, hlow, hhigh, List.filter_eq_self.mpr hkept]

/-- With a pivot that some series is apart from, every bucket is shorter. -/
theorem calls_shorter {p : N} {names : List N} (hnd : (p :: names).Nodup) {n : N}
    (hn : n ∈ names) (hapart : Apart tuples threshold p n) {c : List N}
    (hc : c ∈ calls tuples threshold (p :: names)) : c.length < (p :: names).length := by
  have hlen := (buckets_perm tuples threshold p names).length_eq
  have hne : names ≠ [] := List.ne_nil_of_mem hn
  have hsome : 0 < (names.filter (below tuples threshold p)).length +
      (names.filter (above tuples threshold p)).length := by
    cases hlow : below tuples threshold p n with
    | true =>
      have := List.length_pos_of_mem (List.mem_filter.mpr ⟨hn, hlow⟩)
      omega
    | false =>
      have hhigh : above tuples threshold p n = true := by
        rw [Apart] at hapart
        simp only [below, decide_eq_false_iff_not, not_lt, gt_iff_lt] at hlow
        simp only [above, below, Bool.and_eq_true, Bool.not_eq_true', decide_eq_false_iff_not,
          decide_eq_true_eq, not_lt, gt_iff_lt]
        refine ⟨hlow, hapart.resolve_right fun h => ?_⟩
        linarith
      have := List.length_pos_of_mem (List.mem_filter.mpr ⟨hn, hhigh⟩)
      omega
  simp only [List.length_append, List.length_cons] at hlen ⊢
  rw [calls_cons hnd hne] at hc
  split at hc
  · simp at hc
  · simp only [List.mem_cons, List.not_mem_nil, or_false] at hc
    rcases hc with rfl | rfl | rfl
    · omega
    · rw [List.length_append, List.length_singleton]
      omega
    · omega

omit [DecidableEq N] in
theorem nodup_near {p : N} {names : List N} (hp : p ∉ names) (hnd : names.Nodup) :
    (names.filter (near tuples threshold p) ++ [p]).Nodup := by
  refine List.nodup_append.mpr ⟨hnd.filter _, by simp, ?_⟩
  rintro a ha b hb rfl
  rw [List.mem_singleton.mp hb] at ha
  exact hp (List.mem_filter.mp ha).1

/-- The calls of a call for distinct series are for distinct series again. -/
theorem nodup_calls {series c : List N} (hnd : series.Nodup)
    (hc : c ∈ calls tuples threshold series) : c.Nodup := by
  match series, hnd, hc with
  | p :: q :: rest, hnd, hc =>
    have hp := (List.nodup_cons.mp hnd).1
    have hrest := (List.nodup_cons.mp hnd).2
    rw [calls_cons hnd (List.cons_ne_nil _ _)] at hc
    split at hc
    · simp at hc
    · simp only [List.mem_cons, List.not_mem_nil, or_false] at hc
      rcases hc with rfl | rfl | rfl
      · exact hrest.filter _
      · exact nodup_near hp hrest
      · exact hrest.filter _

theorem nodup_of_reaches {series c : List N} (hnd : series.Nodup)
    (hc : Recursion.Reaches (calls tuples threshold) series c) : c.Nodup := by
  induction hc with
  | refl => exact hnd
  | tail _ hc ih => exact nodup_calls ih hc

theorem subset_calls {series c : List N} (hnd : series.Nodup)
    (hc : c ∈ calls tuples threshold series) : c ⊆ series := by
  match series, hnd, hc with
  | p :: q :: rest, hnd, hc =>
    have hperm := buckets_perm tuples threshold p (q :: rest)
    rw [calls_cons hnd (List.cons_ne_nil _ _)] at hc
    split at hc
    · simp at hc
    · simp only [List.mem_cons, List.not_mem_nil, or_false] at hc
      intro n hn
      apply hperm.subset
      simp only [List.mem_append]
      rcases hc with rfl | rfl | rfl
      · exact .inl hn
      · exact .inr (.inl (List.mem_append.mp hn))
      · exact .inr (.inr hn)

theorem subset_of_reaches {series c : List N} (hnd : series.Nodup)
    (hc : Recursion.Reaches (calls tuples threshold) series c) : c ⊆ series := by
  induction hc with
  | refl => exact List.Subset.refl _
  | tail hb hc ih => exact List.Subset.trans (subset_calls (nodup_of_reaches hnd hb) hc) ih

/-! ## Section 3: Tied series -/

omit [DecidableEq N] in
theorem Tied.not_all_close {series : List N} (h : Tied tuples threshold series) :
    ¬all_close series tuples threshold = true := by
  obtain ⟨-, -, x, hx, y, hy, heq⟩ := h
  intro hclose
  exact absurd (all_close_iff.mp hclose x hx y hy) (by rw [heq]; exact lt_irrefl _)

/-- Tied series are rotated, and are tied again. -/
theorem Tied.rotates (h0 : 0 ≤ threshold) {series : List N} (hnd : series.Nodup)
    (h : Tied tuples threshold series) :
    ∃ c ∈ calls tuples threshold series, c.Nodup ∧ Tied tuples threshold c := by
  match series, hnd, h with
  | p :: q :: rest, hnd, h =>
    have hcalls := calls_rotate h0 hnd (List.cons_ne_nil _ _) h.not_all_close (by
      intro n hn hapart
      have hpn := h.2.1 p List.mem_cons_self n (List.mem_cons_of_mem _ hn)
      have hnp := h.2.1 n (List.mem_cons_of_mem _ hn) p List.mem_cons_self
      rcases hapart with hlt | hlt
      · exact absurd hlt (not_lt.mpr hpn)
      · exact absurd hlt (not_lt.mpr hnp))
    have hmem : ∀ {n}, n ∈ q :: rest ++ [p] ↔ n ∈ p :: q :: rest := by
      intro n
      simp only [List.mem_append, List.mem_cons, List.not_mem_nil, or_false]
      tauto
    have hc : q :: rest ++ [p] ∈ calls tuples threshold (p :: q :: rest) := by
      rw [hcalls]
      simp
    refine ⟨_, hc, nodup_calls hnd hc, by simp, ?_, ?_⟩
    · intro x hx y hy
      exact h.2.1 x (hmem.mp hx) y (hmem.mp hy)
    · obtain ⟨x, hx, y, hy, heq⟩ := h.2.2
      exact ⟨x, hmem.mpr hx, y, hmem.mpr hy, heq⟩

/-- A call for tied series does not end. -/
theorem Tied.not_ends (h0 : 0 ≤ threshold) {series : List N} (hnd : series.Nodup)
    (h : Tied tuples threshold series) : ¬Recursion.Ends (calls tuples threshold) series := by
  apply Recursion.not_ends_of_forever
    (P := fun series => series.Nodup ∧ Tied tuples threshold series)
  · rintro series ⟨hnd, h⟩
    exact h.rotates h0 hnd
  · exact ⟨hnd, h⟩

/-! ## Section 4: The pivot rotates to a series that splits -/

theorem ends_of_calls_nil {series : List N} (h : calls tuples threshold series = []) :
    Recursion.Ends (calls tuples threshold) series := by
  refine Acc.intro series fun c hc => ?_
  rw [h] at hc
  simp at hc

theorem ends_of_all_close {series : List N} (hnd : series.Nodup)
    (h : all_close series tuples threshold = true) :
    Recursion.Ends (calls tuples threshold) series := by
  apply ends_of_calls_nil
  match series, hnd, h with
  | [], _, _ => rfl
  | [_], _, _ => rfl
  | p :: q :: rest, hnd, h => rw [calls_cons hnd (List.cons_ne_nil _ _), if_pos h]

/-- Once the pivot has rotated to a series that splits, only shorter lists are
    left. -/
theorem ends_of_apart (h0 : 0 ≤ threshold) (before : List N) {p n : N} {after : List N}
    (hnd : (before ++ p :: after).Nodup) (hn : n ∈ before ++ p :: after)
    (hapart : Apart tuples threshold p n)
    (hshort : ∀ c, Recursion.Reaches (calls tuples threshold) (before ++ p :: after) c →
      c.length < (before ++ p :: after).length → Recursion.Ends (calls tuples threshold) c) :
    Recursion.Ends (calls tuples threshold) (before ++ p :: after) := by
  induction before generalizing after with
  | nil =>
    have hne : n ≠ p := by
      rintro rfl
      rcases hapart with hlt | hlt <;> linarith
    have hafter : n ∈ after := (List.mem_cons.mp hn).resolve_left hne
    refine Acc.intro _ fun c hc => hshort c (.single hc) ?_
    exact calls_shorter hnd hafter hapart hc
  | cons e before ih =>
    by_cases hclose : all_close (e :: (before ++ p :: after)) tuples threshold = true
    · exact ends_of_all_close hnd hclose
    by_cases hsplit : ∃ m ∈ before ++ p :: after, Apart tuples threshold e m
    · obtain ⟨m, hm, hem⟩ := hsplit
      refine Acc.intro _ fun c hc => hshort c (.single hc) ?_
      exact calls_shorter hnd hm hem hc
    · -- no series is apart from this pivot: the next one has its turn
      have hcalls : calls tuples threshold (e :: (before ++ p :: after)) =
          [[], before ++ p :: after ++ [e], []] :=
        calls_rotate h0 hnd (by simp) hclose fun m hm hem => hsplit ⟨m, hm, hem⟩
      have hrot : before ++ p :: after ++ [e] ∈ calls tuples threshold (e :: (before ++ p :: after)) := by
        rw [hcalls]
        simp
      have heq : before ++ p :: after ++ [e] = before ++ p :: (after ++ [e]) := by simp
      have hnext : Recursion.Ends (calls tuples threshold) (before ++ p :: (after ++ [e])) := by
        rw [heq] at hrot
        apply ih
        · exact nodup_calls hnd hrot
        · rw [← heq]
          simp only [List.cons_append, List.mem_cons, List.mem_append, List.not_mem_nil,
            or_false] at hn ⊢
          tauto
        · intro c hc hlt
          refine hshort c (.head hrot hc) ?_
          simp only [List.cons_append, List.length_append, List.length_cons, List.length_nil]
            at hlt ⊢
          omega
      refine Acc.intro _ fun c hc => ?_
      replace hc : c ∈ calls tuples threshold (e :: (before ++ p :: after)) := hc
      rw [hcalls] at hc
      simp only [List.mem_cons, List.not_mem_nil, or_false] at hc
      rcases hc with rfl | rfl | rfl
      · exact ends_of_calls_nil rfl
      · rwa [heq]
      · exact ends_of_calls_nil rfl

/-- A recursion that does not come to tied series ends. -/
theorem ends_of_untied (h0 : 0 ≤ threshold) (series : List N) (hnd : series.Nodup)
    (h : ∀ c, Recursion.Reaches (calls tuples threshold) series c → ¬Tied tuples threshold c) :
    Recursion.Ends (calls tuples threshold) series := by
  induction hlen : series.length using Nat.strong_induction_on generalizing series with
  | _ n ih =>
    by_cases hclose : all_close series tuples threshold = true
    · exact ends_of_all_close hnd hclose
    by_cases htwo : 2 ≤ series.length
    · obtain ⟨x, hx, y, hy, hxy⟩ : ∃ x ∈ series, ∃ y ∈ series,
          (tuples x).mean + threshold < (tuples y).mean := by
        by_contra hall
        push Not at hall
        apply h series .refl
        rw [all_close_iff] at hclose
        push Not at hclose
        obtain ⟨x, hx, y, hy, hle⟩ := hclose
        exact ⟨htwo, hall, x, hx, y, hy, le_antisymm (hall x hx y hy) hle⟩
      obtain ⟨before, after, rfl⟩ := List.append_of_mem hx
      apply ends_of_apart h0 before hnd hy (.inl hxy)
      intro c hc hlt
      refine ih c.length (by omega) c (nodup_of_reaches hnd hc) ?_ rfl
      intro d hd
      exact h d (hc.trans hd)
    · apply ends_of_calls_nil
      match series, htwo with
      | [], _ => rfl
      | [_], _ => rfl
      | _ :: _ :: _, htwo => simp at htwo

theorem ends_iff_untied (h0 : 0 ≤ threshold) {series : List N} (hnd : series.Nodup) :
    Recursion.Ends (calls tuples threshold) series ↔
      ∀ c, Recursion.Reaches (calls tuples threshold) series c → ¬Tied tuples threshold c := by
  constructor
  · intro hends c hc htied
    exact htied.not_ends h0 (nodup_of_reaches hnd hc) (hends.of_reaches hc)
  · exact ends_of_untied h0 series hnd

/-! ## Section 5: `order_bucket` -/

variable [LinearOrder D]

/-- `order_bucket` has a value iff its calls have values. -/
theorem fueled_order_bucket (tuples : N → Series D L) (threshold : ℚ) :
    Recursion.Fueled (calls tuples threshold) (order_bucket tuples threshold) where
  zero _ := rfl
  succ fuel series := by
    match series with
    | [] => simp [order_bucket, calls]
    | [name] => simp [order_bucket, calls]
    | baseline :: q :: rest =>
      rw [order_bucket, calls]
      · cases fill_buckets (baseline :: q :: rest) tuples threshold baseline
            (baseline :: q :: rest) ⟨[], [], []⟩ with
        | none => simp
        | some b =>
          simp only [List.forall_mem_cons, Option.isSome_iff_exists, Option.bind_eq_bind,
            Option.bind_eq_some_iff]
          constructor
          · rintro ⟨r, smaller, hs, same, hm, bigger, hb, -⟩
            exact ⟨⟨_, hs⟩, ⟨_, hm⟩, ⟨_, hb⟩, by simp⟩
          · rintro ⟨⟨smaller, hs⟩, ⟨same, hm⟩, ⟨bigger, hb⟩, -⟩
            exact ⟨_, smaller, hs, same, hm, bigger, hb, rfl⟩
      all_goals exact List.cons_ne_nil _ _

/-- `order_bucket` ends iff it is never called for two or more series within
    the threshold of one another of which two are exactly at the threshold. -/
theorem order_bucket_ends_iff (tuples : N → Series D L) (threshold : ℚ) (h0 : 0 ≤ threshold)
    (series : List N) (hnd : series.Nodup) :
    (∃ fuel, (order_bucket tuples threshold fuel series).isSome) ↔
      ∀ c, Recursion.Reaches (calls tuples threshold) series c → ¬Tied tuples threshold c :=
  (fueled_order_bucket tuples threshold).isSome_iff_ends.trans (ends_iff_untied h0 hnd)

/-- Two series with the given means, and values from 0 to 100. -/
def two_bars (first second : ℚ) (name : ℕ) : Series ℕ ℕ where
  description := name
  mean := if name = 0 then first else second
  order := name
  samples _ := [(some (.int 0), some (.int 3)), (some (.int 100), some (.int 0))]

/-- With the means apart there is one split. -/
theorem order_bucket_ends_two :
    (order_bucket (two_bars 0 3) 1 2 [0, 1]).isSome ∧
      ∀ c, Recursion.Reaches (calls (two_bars 0 3) 1) [0, 1] c → ¬Tied (two_bars 0 3) 1 c := by
  have hsome : (order_bucket (two_bars 0 3) 1 2 [0, 1]).isSome := by
    norm_num [order_bucket, fill_buckets, all_close, two_bars]
  exact ⟨hsome, (order_bucket_ends_iff (two_bars 0 3) 1 (by norm_num) [0, 1] (by decide)).mp
    ⟨2, hsome⟩⟩

/-- Two series with the same mean, and a threshold of 0: each of them is not
    close even to itself, and the two are rotated for ever. -/
theorem order_bucket_endless :
    (0 : ℚ) ≤ 0 ∧ [0, 1].Nodup ∧
      ¬∃ fuel, (order_bucket (two_bars 3 3) 0 fuel [0, 1]).isSome := by
  have hnd : [0, 1].Nodup := by decide
  have htied : Tied (two_bars 3 3) 0 [0, 1] := by
    simp [Tied, two_bars]
  refine ⟨le_refl 0, hnd, ?_⟩
  rw [(fueled_order_bucket (two_bars 3 3) 0).isSome_iff_ends]
  exact htied.not_ends (le_refl 0) hnd

/-- It is enough that no two series are exactly at the threshold. -/
theorem order_bucket_ends_of_ne (tuples : N → Series D L) (threshold : ℚ) (h0 : 0 ≤ threshold)
    (series : List N) (hnd : series.Nodup)
    (h : ∀ x ∈ series, ∀ y ∈ series, x ≠ y → (tuples y).mean ≠ (tuples x).mean + threshold) :
    ∃ fuel, (order_bucket tuples threshold fuel series).isSome := by
  rw [(fueled_order_bucket tuples threshold).isSome_iff_ends]
  apply ends_of_untied h0 series hnd
  rintro c hc ⟨htwo, hall, x, hx, y, hy, heq⟩
  have hsub := subset_of_reaches hnd hc
  by_cases hxy : x = y
  · -- the threshold is 0, and all the means are equal
    subst hxy
    obtain ⟨z, hz, hne⟩ : ∃ z ∈ c, z ≠ x := by
      by_contra hnone
      push Not at hnone
      have hnd' := nodup_of_reaches hnd hc
      rw [List.eq_replicate_of_mem hnone, List.nodup_replicate] at hnd'
      omega
    have hxz := hall x hx z hz
    have hzx := hall z hz x hx
    exact h x (hsub hx) z (hsub hz) (Ne.symm hne) (by linarith)
  · exact h x (hsub hx) y (hsub hy) hxy heq

end GraphHelper
