import Catbench.GraphHelper.Order
import Catbench.Framework.RoughOrder
import Mathlib.Order.WithBot
import Mathlib.Data.List.NodupEquivFin

/-! # The order of the bars

    However the calls of `order_bucket` are nested, the series below the pivot
    come before those near it, and these before the ones above it.  Flattening
    keeps that order, so that closeness, which is not transitive, never swaps two
    series that are apart.
-/

namespace GraphHelper

variable {N D L : Type}

/-! ## Section 1: Flattening -/

@[simp] theorem flatten_names (names : List N) : flatten (names.map .name) = names := by
  induction names with
  | nil => rw [List.map_nil, flatten]
  | cons n names ih => rw [List.map_cons, flatten, ih]

@[simp] theorem flatten_three (a b c : List (Nest N)) :
    flatten [.list a, .list b, .list c] = flatten a ++ (flatten b ++ flatten c) := by
  simp [flatten]

/-! ## Section 2: The order that `order_bucket` gives -/

variable {tuples : N → Series D L} {threshold : ℚ}

/-- The buckets stand in the order of their means. -/
theorem buckets_ordered (tuples : N → Series D L) (h0 : 0 ≤ threshold) (p : N) (names : List N) :
    (∀ a ∈ names.filter (below tuples threshold p),
      (tuples a).mean ≤ (tuples p).mean - threshold) ∧
    (∀ a ∈ names.filter (near tuples threshold p) ++ [p],
      (tuples p).mean - threshold ≤ (tuples a).mean ∧
        (tuples a).mean ≤ (tuples p).mean + threshold) ∧
    ∀ a ∈ names.filter (above tuples threshold p),
      (tuples p).mean + threshold ≤ (tuples a).mean := by
  refine ⟨?_, ?_, ?_⟩
  · intro a ha
    exact (below_iff.mp (List.mem_filter.mp ha).2).le
  · intro a ha
    rcases List.mem_append.mp ha with ha | ha
    · exact (near_iff h0).mp (List.mem_filter.mp ha).2
    · rw [List.mem_singleton.mp ha]
      constructor <;> linarith
  · intro a ha
    exact ((above_iff h0).mp (List.mem_filter.mp ha).2).le

variable [LinearOrder D]

theorem by_description_perm (tuples : N → Series D L) (series : List N) :
    (by_description tuples series).Perm series :=
  (List.reverse_perm _).trans (List.mergeSort_perm _ _)

variable [DecidableEq N]

/-- What `order_bucket` returns: the series in some order, if there is at most
    one or if all are close, and else its three calls. -/
theorem order_bucket_cases {fuel : ℕ} {series : List N} {r : List (Nest N)}
    (hnd : series.Nodup) (h : order_bucket tuples threshold (fuel + 1) series = some r) :
    (∃ names : List N, r = names.map .name ∧ names.Perm series ∧
      (series.length ≤ 1 ∨ all_close series tuples threshold = true)) ∨
    ∃ p names smaller same bigger, series = p :: names ∧
      order_bucket tuples threshold fuel (names.filter (below tuples threshold p))
        = some smaller ∧
      order_bucket tuples threshold fuel (names.filter (near tuples threshold p) ++ [p])
        = some same ∧
      order_bucket tuples threshold fuel (names.filter (above tuples threshold p))
        = some bigger ∧
      r = [.list smaller, .list same, .list bigger] := by
  match series, hnd, h with
  | [], _, h => exact .inl ⟨[], by simpa [order_bucket] using h.symm, .refl _, .inl (by simp)⟩
  | [n], _, h => exact .inl ⟨[n], by simpa [order_bucket] using h.symm, .refl _, .inl (by simp)⟩
  | p :: q :: rest, hnd, h =>
    rw [order_bucket] at h
    · rw [fill_buckets_start hnd (List.cons_ne_nil _ _)] at h
      by_cases hclose : all_close (p :: q :: rest) tuples threshold = true
      · rw [if_pos hclose] at h
        exact .inl ⟨_, (Option.some.inj h).symm, by_description_perm _ _, .inr hclose⟩
      · rw [if_neg hclose] at h
        simp only [Option.bind_eq_bind, Option.bind_eq_some_iff, Option.some.injEq] at h
        obtain ⟨smaller, hs, same, hm, bigger, hb, hr⟩ := h
        exact .inr ⟨p, _, smaller, same, bigger, rfl, hs, hm, hb, hr.symm⟩
    · exact List.cons_ne_nil _ _

/-- `order_bucket` permutes the series, and sorts them by their means up to the
    threshold. -/
theorem order_bucket_sorted (h0 : 0 ≤ threshold) {fuel : ℕ} {series : List N}
    {r : List (Nest N)} (hnd : series.Nodup)
    (h : order_bucket tuples threshold fuel series = some r) :
    (flatten r).Perm series ∧
      RoughOrder.Sorted (fun name => (tuples name).mean) threshold (flatten r) := by
  induction fuel generalizing series r with
  | zero => simp [order_bucket] at h
  | succ fuel ih =>
    rcases order_bucket_cases hnd h with
      ⟨names, rfl, hperm, hclose⟩ | ⟨p, names, smaller, same, bigger, rfl, hs, hm, hb, rfl⟩
    · rw [flatten_names]
      refine ⟨hperm, RoughOrder.sorted_of_close fun a ha b hb => ?_⟩
      replace ha := hperm.subset ha
      replace hb := hperm.subset hb
      rcases hclose with hlen | hclose
      · have hone : series.length = 1 := by
          have hpos := List.length_pos_of_mem ha
          omega
        obtain ⟨n, rfl⟩ := List.length_eq_one_iff.mp hone
        rw [List.mem_singleton.mp ha, List.mem_singleton.mp hb]
        linarith
      · exact (all_close_iff.mp hclose b hb a ha).le
    · have hnames := (List.nodup_cons.mp hnd).2
      have hp := (List.nodup_cons.mp hnd).1
      obtain ⟨hlow, hmid, hhigh⟩ := buckets_ordered tuples h0 p names
      obtain ⟨sperm, ssorted⟩ := ih (hnames.filter _) hs
      obtain ⟨bperm, bsorted⟩ := ih (hnames.filter _) hb
      obtain ⟨mperm, msorted⟩ := ih (nodup_near hp hnames) hm
      rw [flatten_three]
      constructor
      · have hall := sperm.append (mperm.append bperm)
        exact hall.trans (buckets_perm tuples threshold p names)
      · apply ssorted.append (msorted.append bsorted _)
        · intro a ha b hb
          have h1 := hlow a (sperm.subset ha)
          rcases List.mem_append.mp hb with hb | hb
          · have h2 := (hmid b (mperm.subset hb)).1
            show (tuples a).mean ≤ (tuples b).mean + threshold
            linarith
          · have h2 := hhigh b (bperm.subset hb)
            show (tuples a).mean ≤ (tuples b).mean + threshold
            linarith
        · intro a ha b hb
          have h1 := (hmid a (mperm.subset ha)).2
          have h2 := hhigh b (bperm.subset hb)
          show (tuples a).mean ≤ (tuples b).mean + threshold
          linarith

/-! ## Section 3: The threshold -/

omit [DecidableEq N] [LinearOrder D]

/-- Where a value stands: `None` is the least one. -/
def rank : Option Number → WithBot ℚ
  | none => ⊥
  | some v => v.val

theorem less_iff {a b : Option Number} : less a b = true ↔ rank a < rank b := by
  cases a <;> cases b <;> simp [less, rank]

theorem rank_min₂ (a b : Option Number) : rank (min₂ a b) = min (rank a) (rank b) := by
  by_cases h : less b a = true
  · rw [min₂, if_pos h, min_eq_right (less_iff.mp h).le]
  · rw [min₂, if_neg h, min_eq_left (not_lt.mp fun hlt => h (less_iff.mpr hlt))]

theorem rank_max₂ (a b : Option Number) : rank (max₂ a b) = max (rank a) (rank b) := by
  by_cases h : less a b = true
  · rw [max₂, if_pos h, max_eq_right (less_iff.mp h).le]
  · rw [max₂, if_neg h, max_eq_left (not_lt.mp fun hlt => h (less_iff.mpr hlt))]

theorem rank_foldl_min₂ (yvals : List (Option Number)) (y : Option Number) :
    rank (yvals.foldl min₂ y) ≤ rank y := by
  induction yvals generalizing y with
  | nil => exact le_refl _
  | cons v yvals ih =>
    have := ih (min₂ y v)
    rw [rank_min₂] at this
    exact this.trans (min_le_left _ _)

theorem rank_foldl_max₂ (yvals : List (Option Number)) (y : Option Number) :
    rank y ≤ rank (yvals.foldl max₂ y) := by
  induction yvals generalizing y with
  | nil => exact le_refl _
  | cons v yvals ih =>
    have := ih (max₂ y v)
    rw [rank_max₂] at this
    exact (le_max_left _ _).trans this

/-- A series with a value leaves a range that is not empty. -/
theorem extend_range_ordered {range range' : Option Number × Option Number}
    {yvals : List (Option Number)} (h : extend_range range yvals = .ok range') :
    rank range'.1 ≤ rank range'.2 := by
  match yvals, h with
  | y :: yvals, h =>
    obtain rfl := Except.ok.inj h
    show rank (min₂ _ _) ≤ rank (max₂ _ _)
    rw [rank_min₂, rank_max₂]
    calc min (rank range.1) (rank (yvals.foldl min₂ y))
      _ ≤ rank (yvals.foldl min₂ y) := min_le_right _ _
      _ ≤ rank y := rank_foldl_min₂ yvals y
      _ ≤ rank (yvals.foldl max₂ y) := rank_foldl_max₂ yvals y
      _ ≤ max (rank range.2) (rank (yvals.foldl max₂ y)) := le_max_right _ _

theorem value_range_ordered {T : Tuples N D L} {xkey ykey : L} {names : List N}
    {range range' : Option Number × Option Number} (hne : names ≠ [])
    (h : value_range T xkey ykey names range = .ok range') :
    rank range'.1 ≤ rank range'.2 := by
  induction names generalizing range with
  | nil => exact absurd rfl hne
  | cons n names ih =>
    rw [value_range] at h
    cases hext : extend_range range (((T.entry n).samples (xkey, ykey)).map (·.1)) with
    | error e => rw [hext] at h; simp [bind, Except.bind] at h
    | ok mid =>
      rw [hext] at h
      simp only [bind, Except.bind] at h
      by_cases hnil : names = []
      · subst hnil
        obtain rfl : mid = range' := by simpa [value_range] using h
        exact extend_range_ordered hext
      · exact ih hnil h

theorem div_100_nonneg {ymin ymax : Number} (h : ymin.val ≤ ymax.val) :
    0 ≤ (ymax.sub ymin).div_100.val := by
  have hfloat : ∀ a b : ℚ, a ≤ b → 0 ≤ (b - a) / 100 := by
    intro a b hab
    exact div_nonneg (sub_nonneg.mpr hab) (by norm_num)
  match ymin, ymax, h with
  | .int a, .int b, h =>
    have hab : a ≤ b := by
      simp only [Number.val] at h
      exact_mod_cast h
    have : (0 : ℤ) ≤ (b - a) / 100 := by omega
    simp only [Number.sub, Number.div_100, Number.val]
    exact_mod_cast this
  | .int _, .float _, h => exact hfloat _ _ h
  | .float _, .int _, h => exact hfloat _ _ h
  | .float _, .float _, h => exact hfloat _ _ h

/-- The threshold of some series is not negative. -/
theorem bar_threshold_nonneg {T : Tuples N D L} {xkey ykey : L} {threshold : ℚ}
    (hne : T.keys ≠ []) (h : bar_threshold T xkey ykey = .ok threshold) : 0 ≤ threshold := by
  rw [bar_threshold] at h
  cases hrange : value_range T xkey ykey T.keys (some (.int 9999999), some (.int 0)) with
  | error e => rw [hrange] at h; simp [bind, Except.bind] at h
  | ok range =>
    have hle := value_range_ordered hne hrange
    rw [hrange] at h
    simp only [bind, Except.bind] at h
    obtain ⟨ymin, ymax⟩ := range
    match ymin, ymax, h, hle with
    | some ymin, some ymax, h, hle =>
      obtain rfl := Except.ok.inj h
      exact div_100_nonneg (WithBot.coe_le_coe.mp hle)

/-! ## Section 4: The numbers of the series -/

variable [DecidableEq N]

/-- Numbering gives each series of the list its place, and changes nothing
    else. -/
theorem number_series_eq (names : List N) (hnd : names.Nodup) (index : ℕ) (T : Tuples N D L) :
    (number_series names index T).keys = T.keys ∧
      ∀ s, (number_series names index T).entry s =
        if s ∈ names then { T.entry s with order := index + names.idxOf s } else T.entry s := by
  induction names generalizing index T with
  | nil => simp [number_series]
  | cons n names ih =>
    have hn := (List.nodup_cons.mp hnd).1
    obtain ⟨hkeys, hentry⟩ := ih (List.nodup_cons.mp hnd).2 (index + 1) (T.set_order n index)
    rw [number_series]
    refine ⟨hkeys, fun s => ?_⟩
    rw [hentry]
    by_cases hs : s = n
    · subst hs
      rw [if_neg hn, if_pos List.mem_cons_self]
      simp [Tuples.set_order]
    · have hother : (T.set_order n index).entry s = T.entry s := Function.update_of_ne hs _ _
      rw [hother, List.idxOf_cons_ne _ (Ne.symm hs)]
      simp only [List.mem_cons, hs, false_or]
      split
      · congr 1
        omega
      · rfl

theorem map_idxOf_self (names : List N) (hnd : names.Nodup) :
    names.map names.idxOf = List.range names.length := by
  apply List.ext_getElem (by simp)
  intro i h1 h2
  simp only [List.getElem_map, List.getElem_range]
  exact hnd.idxOf_getElem _ _

variable [LinearOrder D]

/-- `order_ybar`, once `order_bucket` returns: the series that it puts last is
    the first bar. -/
theorem order_ybar_eq {T : Tuples N D L} {xkey ykey : L} {threshold : ℚ} {fuel : ℕ}
    {r : List (Nest N)} (ht : bar_threshold T xkey ykey = .ok threshold)
    (h : order_bucket T.entry threshold fuel T.keys = some r) :
    order_ybar fuel T xkey ykey = .ok (number_series (flatten r).reverse 0 T) := by
  simp only [order_ybar, ht, bind, Except.bind, h]

/-- Whenever `order_bucket` returns, no series is lost, and of two series
    further apart than the threshold the one with the smaller mean comes first;
    the bars are numbered from 0 on, the larger of the two before the smaller
    one. -/
theorem order_bucket_orders :
    (∀ (tuples : N → Series D L) (threshold : ℚ) (series : List N) (fuel : ℕ) (r : List (Nest N)),
      0 ≤ threshold → series.Nodup → order_bucket tuples threshold fuel series = some r →
      (flatten r).Perm series ∧
      ∀ x ∈ series, ∀ y ∈ series, (tuples y).mean - (tuples x).mean > threshold →
        (flatten r).idxOf x < (flatten r).idxOf y) ∧
    ∀ (T : Tuples N D L) (xkey ykey : L) (threshold : ℚ) (fuel : ℕ) (r : List (Nest N)),
      bar_threshold T xkey ykey = .ok threshold →
      order_bucket T.entry threshold fuel T.keys = some r →
      ∃ bars, order_ybar fuel T xkey ykey = .ok bars ∧ bars.keys = T.keys ∧
        (T.keys.map fun s => (bars.entry s).order).Perm (List.range T.keys.length) ∧
        ∀ x ∈ T.keys, ∀ y ∈ T.keys, (T.entry y).mean - (T.entry x).mean > threshold →
          (bars.entry y).order < (bars.entry x).order := by
  constructor
  · intro tuples threshold series fuel r h0 hnd h
    obtain ⟨hperm, hsorted⟩ := order_bucket_sorted h0 hnd h
    refine ⟨hperm, fun x hx y hy hxy => ?_⟩
    apply hsorted.idxOf_lt (hperm.mem_iff.mpr hx) (hperm.mem_iff.mpr hy)
    · rintro rfl
      linarith
    · show (tuples x).mean + threshold < (tuples y).mean
      linarith
  · intro T xkey ykey threshold fuel r ht h
    have hbars := order_ybar_eq ht h
    refine ⟨_, hbars, ?_⟩
    by_cases hne : T.keys = []
    · -- there are no bars to number
      cases fuel with
      | zero => cases h
      | succ fuel =>
        rw [hne] at h
        obtain rfl : [] = r := Option.some.inj h
        simp [hne, flatten, number_series]
    have h0 := bar_threshold_nonneg hne ht
    obtain ⟨hperm, hsorted⟩ := order_bucket_sorted h0 T.distinct h
    have hrev : (flatten r).reverse.Perm T.keys := (List.reverse_perm _).trans hperm
    have hnd : (flatten r).reverse.Nodup := hrev.nodup_iff.mpr T.distinct
    obtain ⟨hkeys, hentry⟩ := number_series_eq _ hnd 0 T
    have horder : ∀ s ∈ T.keys, ((number_series (flatten r).reverse 0 T).entry s).order =
        (flatten r).reverse.idxOf s := by
      intro s hs
      rw [hentry, if_pos (hrev.mem_iff.mpr hs), Nat.zero_add]
    refine ⟨hkeys, ?_, fun x hx y hy hxy => ?_⟩
    · rw [List.map_congr_left horder, ← hrev.length_eq, ← map_idxOf_self _ hnd]
      exact (hrev.map _).symm
    · rw [horder x hx, horder y hy]
      apply hsorted.reverse.idxOf_lt (hrev.mem_iff.mpr hy) (hrev.mem_iff.mpr hx)
      · rintro rfl
        linarith
      · show -(T.entry y).mean + threshold < -(T.entry x).mean
        linarith

theorem order_bucket_two :
    order_bucket (two_bars 0 3) 1 2 [0, 1]
      = some [.list [], .list [.name 0], .list [.name 1]] := by
  norm_num [order_bucket, fill_buckets, all_close, two_bars]

theorem order_bucket_orders_two :
    ((flatten [.list [], .list [.name 0], .list [.name 1]]).Perm [0, 1] ∧
      ∀ x ∈ [0, 1], ∀ y ∈ [0, 1], (two_bars 0 3 y).mean - (two_bars 0 3 x).mean > 1 →
        (flatten [.list [], .list [.name 0], .list [.name 1]]).idxOf x <
          (flatten [.list [], .list [.name 0], .list [.name 1]]).idxOf y) ∧
    ∃ bars, order_ybar 2 ⟨[0, 1], by decide, two_bars 0 3⟩ 0 0 = .ok bars ∧
      bars.keys = [0, 1] ∧ ([0, 1].map fun s => (bars.entry s).order).Perm (List.range 2) ∧
      ∀ x ∈ [0, 1], ∀ y ∈ [0, 1], (two_bars 0 3 y).mean - (two_bars 0 3 x).mean > 1 →
        (bars.entry y).order < (bars.entry x).order :=
  ⟨order_bucket_orders.1 (two_bars 0 3) 1 [0, 1] 2 _ (by norm_num) (by decide) order_bucket_two,
    order_bucket_orders.2 ⟨[0, 1], by decide, two_bars 0 3⟩ 0 0 1 2 _ (by rfl) order_bucket_two⟩

end GraphHelper
