import Mathlib.Data.List.Chain
import Mathlib.Data.Fin.Basic
import Mathlib.Order.Basic

/-! # Strings of code points

    A Python string is a sequence of Unicode code points, surrogates included:
    a JSON escape such as `\ud800` denotes one.  A high surrogate directly
    followed by a low one does not survive serialisation, because the pair of
    escapes reads back as one supplementary code point; no string that comes
    from decoded text or from a JSON text contains such a pair, and the type
    excludes it.

    * **Joining**: what the reader of a JSON string does with adjacent escapes.
    * **Units**: what its writer makes of a supplementary code point.
    * **Round trip**: joining the units of a string gives the string back.
-/

namespace Json

abbrev CodePoint := Fin 0x110000

instance (c : CodePoint) (l : List CodePoint) : Decidable (c ∈ l) :=
  List.instDecidableMemOfLawfulBEq c l

namespace CodePoint

def IsHigh (c : CodePoint) : Prop := 0xD800 ≤ c.val ∧ c.val ≤ 0xDBFF

def IsLow (c : CodePoint) : Prop := 0xDC00 ≤ c.val ∧ c.val ≤ 0xDFFF

instance (c : CodePoint) : Decidable c.IsHigh := inferInstanceAs (Decidable (_ ∧ _))

instance (c : CodePoint) : Decidable c.IsLow := inferInstanceAs (Decidable (_ ∧ _))

def ofChar (c : Char) : CodePoint :=
  ⟨c.toNat, by
    have hc := c.valid
    simp only [UInt32.isValidChar, Nat.isValidChar, Char.toNat] at hc ⊢
    omega⟩

/-- A character of a decoded text is not a surrogate. -/
theorem not_isHigh_ofChar (c : Char) : ¬(ofChar c).IsHigh := by
  have hc := c.valid
  simp only [UInt32.isValidChar, Nat.isValidChar] at hc
  simp only [IsHigh, ofChar, Char.toNat]
  omega

/-- The supplementary code point of a surrogate pair. -/
def combine (a b : CodePoint) : CodePoint :=
  ⟨0x10000 + (a.val - 0xD800) % 0x400 * 0x400 + (b.val - 0xDC00) % 0x400, by omega⟩

/-- The surrogates of a supplementary code point. -/
def highOf (c : CodePoint) : CodePoint := ⟨0xD800 + (c.val - 0x10000) / 0x400 % 0x400, by omega⟩

def lowOf (c : CodePoint) : CodePoint := ⟨0xDC00 + (c.val - 0x10000) % 0x400, by omega⟩

/-- What a code point is written as: itself, or a surrogate pair. -/
def units (c : CodePoint) : List CodePoint :=
  if c.val < 0x10000 then [c] else [highOf c, lowOf c]

theorem isHigh_highOf (c : CodePoint) : (highOf c).IsHigh := by
  simp only [IsHigh, highOf]
  omega

theorem isLow_lowOf (c : CodePoint) : (lowOf c).IsLow := by
  simp only [IsLow, lowOf]
  omega

theorem not_isLow_of_isHigh {c : CodePoint} (h : c.IsHigh) : ¬c.IsLow := by
  simp only [IsHigh, IsLow] at h ⊢
  omega

theorem combine_highOf_lowOf {c : CodePoint} (h : 0x10000 ≤ c.val) :
    combine (highOf c) (lowOf c) = c := by
  ext
  have hc := c.isLt
  simp only [combine, highOf, lowOf]
  omega

theorem not_isLow_combine (a b : CodePoint) : ¬(combine a b).IsLow := by
  simp only [IsLow, combine]
  omega

theorem not_isHigh_combine (a b : CodePoint) : ¬(combine a b).IsHigh := by
  simp only [IsHigh, combine]
  omega

end CodePoint

open CodePoint

/-- No high surrogate is directly followed by a low one. -/
def Joined (l : List CodePoint) : Prop := l.IsChain fun a b => ¬(a.IsHigh ∧ b.IsLow)

/-- Replace each surrogate pair by its code point, from the left. -/
def join : List CodePoint → List CodePoint
  | a :: b :: rest =>
    if a.IsHigh ∧ b.IsLow then combine a b :: join rest else a :: join (b :: rest)
  | [a] => [a]
  | [] => []

theorem join_pair {a b : CodePoint} {rest : List CodePoint} (ha : a.IsHigh) (hb : b.IsLow) :
    join (a :: b :: rest) = combine a b :: join rest := by
  rw [join, if_pos ⟨ha, hb⟩]

theorem join_cons_of_not {a : CodePoint} {rest : List CodePoint}
    (h : ∀ b ∈ rest.head?, ¬(a.IsHigh ∧ b.IsLow)) : join (a :: rest) = a :: join rest := by
  cases rest with
  | nil => rfl
  | cons b rest => rw [join, if_neg (h b rfl)]

/-- Joining starts with the first code point or with a supplementary one. -/
theorem head?_join {b c : CodePoint} {rest : List CodePoint} (h : c ∈ (join (b :: rest)).head?)
    (hc : c.IsLow) : c = b := by
  cases rest with
  | nil => simpa [join, eq_comm] using h
  | cons d rest =>
    rw [join] at h
    split at h
    · obtain rfl : combine b d = c := by simpa using h
      exact absurd hc (not_isLow_combine b d)
    · simpa [eq_comm] using h

theorem joined_join (l : List CodePoint) : Joined (join l) := by
  induction l using join.induct with
  | case1 a b rest hab ih =>
    rw [join_pair hab.1 hab.2, Joined, List.isChain_cons]
    exact ⟨fun c _ hc => not_isHigh_combine a b hc.1, ih⟩
  | case2 a b rest hab ih =>
    rw [join, if_neg hab, Joined, List.isChain_cons]
    refine ⟨fun c hc hboth => hab ?_, ih⟩
    rw [head?_join hc hboth.2] at hboth
    exact hboth
  | case3 a => exact List.isChain_singleton a
  | case4 => exact List.isChain_nil

/-- Reading back what a joined string was written as. -/
theorem join_units {l : List CodePoint} (h : Joined l) : join (l.flatMap units) = l := by
  induction l with
  | nil => rfl
  | cons a rest ih =>
    rw [Joined, List.isChain_cons] at h
    have hrest := ih h.2
    rw [List.flatMap_cons]
    by_cases ha : a.val < 0x10000
    · rw [units, if_pos ha, List.singleton_append, join_cons_of_not, hrest]
      intro b hb hboth
      -- The first unit of the rest is its first code point, or a high surrogate.
      cases rest with
      | nil => simp at hb
      | cons d rest =>
        by_cases hd : d.val < 0x10000
        · obtain rfl : d = b := by simpa [units, hd] using hb
          exact h.1 d (by simp) hboth
        · obtain rfl : highOf d = b := by simpa [units, hd] using hb
          exact not_isLow_of_isHigh (isHigh_highOf d) hboth.2
    · rw [units, if_neg ha, List.cons_append, List.cons_append, List.nil_append,
        join_pair (isHigh_highOf a) (isLow_lowOf a), combine_highOf_lowOf (by omega), hrest]

/-- A Python string. -/
structure Str where
  points : List CodePoint
  joined : Joined points
  deriving DecidableEq

namespace Str

theorem ext {s t : Str} (h : s.points = t.points) : s = t := by
  cases s
  cases t
  simpa using h

/-- The string that a JSON reader makes of a sequence of code points. -/
def ofUnits (l : List CodePoint) : Str := ⟨join l, joined_join l⟩

theorem ofUnits_units (s : Str) : ofUnits (s.points.flatMap units) = s :=
  ext (join_units s.joined)

/-- The string of a decoded text. -/
def ofText (t : List Char) : Str :=
  ⟨t.map ofChar, by
    rw [Joined, List.isChain_map]
    exact (List.pairwise_of_forall fun a _ h => not_isHigh_ofChar a h.1).isChain⟩

theorem ofText_injective : Function.Injective ofText := by
  intro t u h
  have hpoints : t.map ofChar = u.map ofChar := congrArg points h
  refine List.map_injective_iff.mpr (fun a b hab => ?_) hpoints
  have hnat : a.toNat = b.toNat := congrArg (fun c : CodePoint => c.val) hab
  exact Char.toNat_inj.mp hnat

end Str

end Json
