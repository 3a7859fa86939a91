import Mathlib.Algebra.Order.Field.Basic
import Mathlib.Algebra.Order.Field.Rat
import Mathlib.Data.List.Basic
import Mathlib.Tactic.FieldSimp
import Mathlib.Tactic.Linarith
import Mathlib.Tactic.Ring

/-! # Where the lines cross the objective (`graph-cat.py`)

    With a horizontal line at the service level objective, the script looks for
    the first segment of every plotted line that encloses the objective, and
    prints where it crosses.  The variable `val` for the crossing is set by one
    of three branches.  When none of them is taken it keeps what an earlier
    segment has left in it, or has no value yet.

    Numbers are exact here.
-/

namespace GraphCat

/-! ## Section 1: Model -/

abbrev Point := ℚ × ℚ

/-- A plotted line. -/
structure Line where
  label : String
  xydata : List Point
  increasing : xydata.Pairwise fun p q => p.1 < q.1

/-- `val`, and what has been printed. -/
structure State where
  val : Option ℚ
  printed : List (String × ℚ)
  deriving DecidableEq, Repr

/-- The segment from `p` to `q` encloses the objective. -/
def encloses (hline_y : ℚ) (seg : Point × Point) : Bool :=
  (seg.1.2 ≤ hline_y && hline_y ≤ seg.2.2) || (seg.1.2 ≥ hline_y && hline_y ≥ seg.2.2)

/-- `val` after the three branches. -/
def set_val (hline_y : ℚ) (seg : Point × Point) (val : Option ℚ) : Option ℚ :=
  let (x1, y1) := seg.1
  let (x2, y2) := seg.2
  if y1 = y2 then some x1
  else if hline_y > y1 then some ((hline_y - y1) / (y2 - y1) * (x2 - x1) + x1)
  else if hline_y > y2 then some (x2 - (hline_y - y2) / (y1 - y2) * (x2 - x1))
  else val

/-- The loop over the points of a line.  It fails at a `val` without a value. -/
def each_segment (hline_y : ℚ) (label : String) : List Point → State → Option State
  | p :: q :: xydata, s =>
    if encloses hline_y (p, q) then
      (set_val hline_y (p, q) s.val).map fun val =>
        { val := some val, printed := s.printed ++ [(label, val)] }
    else each_segment hline_y label (q :: xydata) s
  | _, s => some s

/-- The body of the loop over the lines. -/
def each_line (hline_y : ℚ) (s : State) (line : Line) : Option State :=
  if line.label = "NoContention-CAT" then some s
  else each_segment hline_y line.label line.xydata s

/-- What is printed for the lines, unless the script fails. -/
def slo_crossings (hline_y : ℤ) (lines : List Line) : Option (List (String × ℚ)) :=
  if hline_y ≠ 0 then (lines.foldlM (each_line hline_y) ⟨none, []⟩).map State.printed
  else some []

/-! ## Section 2: Segments -/

/-- The segment at `x`. -/
def interpolate (seg : Point × Point) (x : ℚ) : ℚ :=
  seg.1.2 + (x - seg.1.1) / (seg.2.1 - seg.1.1) * (seg.2.2 - seg.1.2)

/-- The segment is at `y` in `x`, and a flat segment begins there. -/
structure CrossesAt (seg : Point × Point) (y x : ℚ) : Prop where
  left : seg.1.1 ≤ x
  right : x ≤ seg.2.1
  height : interpolate seg x = y
  flat : seg.1.2 = seg.2.2 → x = seg.1.1

section segments
variable {h x1 x2 y1 y2 val : ℚ} {seg : Point × Point} {old : Option ℚ}

/-- The part of the width for a part `a` of the height `d`. -/
theorem between_of_part {a d : ℚ} (hx : x1 < x2) (hd : 0 < d) (h0 : 0 ≤ a) (h1 : a ≤ d) :
    0 ≤ a / d * (x2 - x1) ∧ a / d * (x2 - x1) ≤ x2 - x1 := by
  have hwidth : 0 < x2 - x1 := sub_pos.mpr hx
  constructor
  · exact mul_nonneg (div_nonneg h0 hd.le) hwidth.le
  · exact mul_le_of_le_one_left hwidth.le ((div_le_one hd).mpr h1)

theorem crossesAt_flat (hx : x1 < x2) : CrossesAt ((x1, y1), (x2, y1)) y1 x1 where
  left := le_refl x1
  right := hx.le
  height := by simp [interpolate]
  flat := fun _ => rfl

theorem crossesAt_rising (hx : x1 < x2) (hy : y1 < y2) (h1 : y1 ≤ h) (h2 : h ≤ y2) :
    CrossesAt ((x1, y1), (x2, y2)) h ((h - y1) / (y2 - y1) * (x2 - x1) + x1) := by
  obtain ⟨hpos, hle⟩ := between_of_part hx (sub_pos.mpr hy) (sub_nonneg.mpr h1)
    (sub_le_sub_right h2 y1)
  have hwidth : x2 - x1 ≠ 0 := by linarith
  have hrise : y2 - y1 ≠ 0 := by linarith
  constructor
  · exact le_add_of_nonneg_left hpos
  · dsimp only
    linarith
  · unfold interpolate
    field_simp
    ring
  · exact fun heq => absurd heq hy.ne

theorem crossesAt_falling (hx : x1 < x2) (hy : y2 < y1) (h1 : h ≤ y1) (h2 : y2 ≤ h) :
    CrossesAt ((x1, y1), (x2, y2)) h (x2 - (h - y2) / (y1 - y2) * (x2 - x1)) := by
  obtain ⟨hpos, hle⟩ := between_of_part hx (sub_pos.mpr hy) (sub_nonneg.mpr h2)
    (sub_le_sub_right h1 y2)
  have hwidth : x2 - x1 ≠ 0 := by linarith
  have hfall : y1 - y2 ≠ 0 := by linarith
  constructor
  · dsimp only
    linarith
  · exact sub_le_self x2 hpos
  · unfold interpolate
    field_simp
    ring
  · exact fun heq => absurd heq hy.ne'

/-- The objective is at the lower end of a slope, for which there is no branch. -/
def touches_lower_end (h : ℚ) (seg : Point × Point) : Prop :=
  (h = seg.1.2 ∧ seg.1.2 < seg.2.2) ∨ (h = seg.2.2 ∧ seg.2.2 < seg.1.2)

/-- An enclosing segment sets `val` to its crossing, except at its lower end. -/
theorem set_val_crosses (hx : seg.1.1 < seg.2.1) (henc : encloses h seg = true)
    (hend : ¬touches_lower_end h seg) :
    ∃ val, (∀ old, set_val h seg old = some val) ∧ CrossesAt seg h val := by
  obtain ⟨⟨x1, y1⟩, ⟨x2, y2⟩⟩ := seg
  simp only [encloses, Bool.or_eq_true, Bool.and_eq_true, decide_eq_true_eq] at henc
  simp only [touches_lower_end, not_or, not_and, not_lt] at hend
  rcases lt_trichotomy y1 y2 with hy | rfl | hy
  · have hrise : y1 ≤ h ∧ h ≤ y2 := by
      rcases henc with henc | henc
      · exact henc
      · linarith [henc.1, henc.2]
    have hgt : y1 < h := lt_of_le_of_ne hrise.1 fun heq => absurd (hend.1 heq.symm) (not_le.mpr hy)
    refine ⟨_, fun old => ?_, crossesAt_rising hx hy hrise.1 hrise.2⟩
    simp [set_val, hy.ne, hgt]
  · have hflat : h = y1 := by
      rcases henc with henc | henc <;> linarith [henc.1, henc.2]
    subst hflat
    refine ⟨x1, fun old => ?_, crossesAt_flat hx⟩
    simp [set_val]
  · have hfall : h ≤ y1 ∧ y2 ≤ h := by
      rcases henc with henc | henc
      · linarith [henc.1, henc.2]
      · exact henc
    have hgt : y2 < h := lt_of_le_of_ne hfall.2 fun heq => absurd (hend.2 heq.symm) (not_le.mpr hy)
    refine ⟨_, fun old => ?_, crossesAt_falling hx hy hfall.1 hfall.2⟩
    simp [set_val, hy.ne', hgt, not_lt.mpr hfall.1]

/-- At its lower end a segment leaves `val` as it is. -/
theorem set_val_of_touches (hend : touches_lower_end h seg) : set_val h seg old = old := by
  obtain ⟨⟨x1, y1⟩, ⟨x2, y2⟩⟩ := seg
  rcases hend with ⟨rfl, hy⟩ | ⟨rfl, hy⟩
  · simp only at hy
    simp [set_val, hy.ne, hy.le]
  · simp only at hy
    simp [set_val, hy.ne', hy.le]

end segments

/-! ## Section 3: The loops -/

/-- The first segment of some points that encloses the objective. -/
def first_enclosing (hline_y : ℚ) (xydata : List Point) : Option (Point × Point) :=
  (xydata.zip xydata.tail).find? (encloses hline_y)

/-- The line is looked at, and has a segment that encloses the objective. -/
def crosses (hline_y : ℚ) (line : Line) : Bool :=
  line.label ≠ "NoContention-CAT" && (first_enclosing hline_y line.xydata).isSome

section loops
variable {h : ℚ} {label : String} {line : Line} {lines : List Line} {xydata : List Point}
  {seg : Point × Point} {s s' : State}

theorem each_segment_eq : each_segment h label xydata s =
    match first_enclosing h xydata with
    | none => some s
    | some seg => (set_val h seg s.val).map fun val =>
        { val := some val, printed := s.printed ++ [(label, val)] } := by
  induction xydata with
  | nil => rfl
  | cons p xydata ih =>
    cases xydata with
    | nil => rfl
    | cons q xydata =>
      unfold each_segment
      rw [ih]
      cases henc : encloses h (p, q) <;> simp [first_enclosing, henc]

theorem encloses_of_first (hseg : first_enclosing h xydata = some seg) : encloses h seg = true :=
  List.find?_some hseg

/-- The points of a segment are neighbours, and stand from left to right. -/
theorem Line.first_increasing (line : Line) (hseg : first_enclosing h line.xydata = some seg) :
    seg.1.1 < seg.2.1 := by
  have hmem : seg ∈ line.xydata.zip line.xydata.tail := List.mem_of_find?_eq_some hseg
  obtain ⟨i, hi, rfl⟩ := List.mem_iff_getElem.mp hmem
  rw [List.length_zip, List.length_tail] at hi
  simp only [List.getElem_zip, List.getElem_tail]
  exact List.pairwise_iff_getElem.mp line.increasing i (i + 1) (by omega) (by omega) (by omega)

/-- The variables after a crossing. -/
def State.report (s : State) (label : String) (val : ℚ) : State :=
  { val := some val, printed := s.printed ++ [(label, val)] }

theorem each_line_of_not_crosses (hcross : crosses h line = false) :
    each_line h s line = some s := by
  unfold each_line
  split
  · rfl
  · rename_i hlabel
    have hnone : first_enclosing h line.xydata = none := by
      simpa [crosses, hlabel] using hcross
    rw [each_segment_eq, hnone]

theorem each_line_of_crosses (hcross : crosses h line = true) :
    ∃ seg, first_enclosing h line.xydata = some seg ∧
      each_line h s line = (set_val h seg s.val).map (s.report line.label) := by
  unfold crosses at hcross
  rw [Bool.and_eq_true, decide_eq_true_eq, Option.isSome_iff_exists] at hcross
  obtain ⟨hlabel, seg, hseg⟩ := hcross
  refine ⟨seg, hseg, ?_⟩
  unfold each_line
  rw [if_neg hlabel, each_segment_eq, hseg]
  rfl

/-- What is to be printed for a line: the value that is computed for its first
    enclosing segment, which is where that segment crosses the objective. -/
structure Reported (h : ℚ) (line : Line) (r : String × ℚ) : Prop where
  label : r.1 = line.label
  crossing : ∃ seg, first_enclosing h line.xydata = some seg ∧
    set_val h seg none = some r.2 ∧ CrossesAt seg h r.2

/-- The first enclosing segment of a line has its lower end at the objective. -/
def touches (h : ℚ) (line : Line) : Prop :=
  ∃ seg, first_enclosing h line.xydata = some seg ∧ touches_lower_end h seg

theorem each_line_reports (hcross : crosses h line = true) (htouch : ¬touches h line) :
    ∃ val, each_line h s line = some (s.report line.label val) ∧
      Reported h line (line.label, val) := by
  obtain ⟨seg, hseg, heq⟩ := each_line_of_crosses (s := s) hcross
  obtain ⟨val, hset, hat⟩ := set_val_crosses (line.first_increasing hseg) (encloses_of_first hseg)
    fun hend => htouch ⟨seg, hseg, hend⟩
  exact ⟨val, by rw [heq, hset, Option.map_some], rfl, seg, hseg, hset none, hat⟩

theorem not_touches_of_reported {r : String × ℚ} (hr : Reported h line r) : ¬touches h line := by
  rintro ⟨seg, hseg, hend⟩
  obtain ⟨seg', hseg', hset, _⟩ := hr.crossing
  rw [hseg] at hseg'
  cases hseg'
  simp [set_val_of_touches hend] at hset

/-- The lines only add to what is printed. -/
theorem prefix_of_lines (hrun : lines.foldlM (each_line h) s = some s') :
    s.printed <+: s'.printed := by
  induction lines generalizing s with
  | nil =>
    cases hrun
    exact List.prefix_refl _
  | cons line lines ih =>
    rw [List.foldlM_cons] at hrun
    obtain ⟨t, ht, hrun⟩ := Option.bind_eq_some_iff.mp hrun
    refine List.IsPrefix.trans ?_ (ih hrun)
    cases hcross : crosses h line with
    | false =>
      rw [each_line_of_not_crosses hcross] at ht
      cases ht
      exact List.prefix_refl _
    | true =>
      obtain ⟨seg, _, heq⟩ := each_line_of_crosses (s := s) hcross
      rw [heq] at ht
      obtain ⟨val, _, rfl⟩ := Option.map_eq_some_iff.mp ht
      exact List.prefix_append _ _

theorem lines_report (htouch : ∀ line ∈ lines, crosses h line = true → ¬touches h line) :
    ∃ s' new, lines.foldlM (each_line h) s = some s' ∧ s'.printed = s.printed ++ new ∧
      List.Forall₂ (Reported h) (lines.filter (crosses h)) new := by
  induction lines generalizing s with
  | nil => exact ⟨s, [], rfl, (List.append_nil _).symm, .nil⟩
  | cons line lines ih =>
    have hrest : ∀ line ∈ lines, crosses h line = true → ¬touches h line :=
      fun l hl => htouch l (List.mem_cons_of_mem line hl)
    cases hcross : crosses h line with
    | false =>
      obtain ⟨s', new, hrun, hprinted, hall⟩ := ih hrest (s := s)
      refine ⟨s', new, ?_, hprinted, ?_⟩
      · rw [List.foldlM_cons, each_line_of_not_crosses hcross]
        exact hrun
      · rw [List.filter_cons_of_neg (by simp [hcross])]
        exact hall
    | true =>
      obtain ⟨val, heq, hreported⟩ := each_line_reports (s := s) hcross
        (htouch line List.mem_cons_self hcross)
      obtain ⟨s', new, hrun, hprinted, hall⟩ := ih hrest (s := s.report line.label val)
      refine ⟨s', (line.label, val) :: new, ?_, ?_, ?_⟩
      · rw [List.foldlM_cons, heq]
        exact hrun
      · rw [hprinted, State.report, List.append_assoc, List.singleton_append]
      · rw [List.filter_cons_of_pos hcross]
        exact .cons hreported hall

theorem not_touches_of_lines {new : List (String × ℚ)}
    (hrun : lines.foldlM (each_line h) s = some s') (hprinted : s'.printed = s.printed ++ new)
    (hall : List.Forall₂ (Reported h) (lines.filter (crosses h)) new) :
    ∀ line ∈ lines, crosses h line = true → ¬touches h line := by
  induction lines generalizing s new with
  | nil => simp
  | cons line lines ih =>
    rw [List.foldlM_cons] at hrun
    obtain ⟨t, ht, hrun⟩ := Option.bind_eq_some_iff.mp hrun
    cases hcross : crosses h line with
    | false =>
      rw [each_line_of_not_crosses hcross] at ht
      cases ht
      rw [List.filter_cons_of_neg (by simp [hcross])] at hall
      exact List.forall_mem_cons.mpr ⟨fun h => by simp [hcross] at h, ih hrun hprinted hall⟩
    | true =>
      obtain ⟨seg, _, heq⟩ := each_line_of_crosses (s := s) hcross
      rw [heq] at ht
      obtain ⟨val, _, rfl⟩ := Option.map_eq_some_iff.mp ht
      rw [List.filter_cons_of_pos hcross] at hall
      obtain ⟨r, rest, hr, hrest, rfl⟩ := List.forall₂_cons_left_iff.mp hall
      obtain ⟨more, hmore⟩ := prefix_of_lines hrun
      have htail : more = rest := by
        rw [hprinted, State.report, List.append_assoc, List.append_cancel_left_eq] at hmore
        exact (List.cons.inj hmore).2
      refine List.forall_mem_cons.mpr ⟨fun _ => not_touches_of_reported hr, ?_⟩
      exact ih hrun (htail ▸ hmore.symm) hrest

end loops

/-! ## Section 4: Crossings -/

/-- The script prints, for every line that is looked at and has a segment which
    encloses the objective, the crossing of the first such segment. -/
def ReportsCrossings (hline_y : ℤ) (lines : List Line) : Prop :=
  ∃ printed, slo_crossings hline_y lines = some printed ∧
    List.Forall₂ (Reported hline_y) (lines.filter (crosses hline_y)) printed

theorem not_touches_of_reports {hline_y : ℤ} {lines : List Line} (hnonzero : hline_y ≠ 0)
    (h : ReportsCrossings hline_y lines) :
    ∀ line ∈ lines, crosses hline_y line = true → ¬touches hline_y line := by
  obtain ⟨printed, hprinted, hall⟩ := h
  rw [slo_crossings, if_pos hnonzero] at hprinted
  obtain ⟨s', hrun, rfl⟩ := Option.map_eq_some_iff.mp hprinted
  exact not_touches_of_lines hrun (List.nil_append _).symm hall

/-- The crossings are right iff no first enclosing segment has its lower end at
    the objective. -/
theorem reportsCrossings_iff (hline_y : ℤ) (lines : List Line) (hnonzero : hline_y ≠ 0) :
    ReportsCrossings hline_y lines ↔
      ∀ line ∈ lines, line.label ≠ "NoContention-CAT" → ¬touches hline_y line := by
  have hlooked : (∀ line ∈ lines, line.label ≠ "NoContention-CAT" → ¬touches hline_y line) ↔
      ∀ line ∈ lines, crosses hline_y line = true → ¬touches hline_y line := by
    refine forall₂_congr fun line _ => ⟨fun h hcross => h ?_, fun h hlabel htouch => h ?_ htouch⟩
    · unfold crosses at hcross
      simpa using (Bool.and_eq_true_iff.mp hcross).1
    · obtain ⟨seg, hseg, _⟩ := htouch
      simp [crosses, hlabel, hseg]
  rw [hlooked]
  constructor
  · exact not_touches_of_reports hnonzero
  · intro htouch
    obtain ⟨s', new, hrun, hprinted, hall⟩ := lines_report htouch
    refine ⟨s'.printed, by rw [slo_crossings, if_pos hnonzero, hrun, Option.map_some], ?_⟩
    rw [hprinted, List.nil_append]
    exact hall

def rising : Line where
  label := "a"
  xydata := [(0, 0), (10, 20)]
  increasing := by decide

/-- It rises from the objective on. -/
def rising_from_ten : Line where
  label := "b"
  xydata := [(100, 10), (200, 20)]
  increasing := by decide

theorem reportsCrossings_rising : ReportsCrossings 10 [rising] ↔
    ∀ line ∈ [rising], line.label ≠ "NoContention-CAT" → ¬touches (10 : ℤ) line :=
  reportsCrossings_iff 10 [rising] (by decide)

/-- The second line gets the crossing of the first one. -/
theorem crossing_of_another_line :
    slo_crossings 10 [rising, rising_from_ten] = some [("a", 5), ("b", 5)] ∧
      ¬ReportsCrossings 10 [rising, rising_from_ten] := by
  constructor
  · decide +kernel
  · intro h
    apply not_touches_of_reports (by decide) h rising_from_ten (by simp)
    · decide +kernel
    · exact ⟨((100, 10), (200, 20)), by decide +kernel, .inl ⟨by norm_num, by norm_num⟩⟩

end GraphCat
