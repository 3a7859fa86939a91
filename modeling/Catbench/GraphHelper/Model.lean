import Mathlib.Data.List.Sort
import Mathlib.Data.Rat.Defs
import Mathlib.Algebra.Order.Ring.Rat

/-! # Ordering the series of a graph (`graph_helper.py`)

    The bars of a graph are ordered by the means of their series, but series
    that are close to one another by their descriptions.  Close means closer
    than a hundredth of the range of the values.

    Floats are rationals here.  A dictionary of series is the list of its keys,
    in the order in which it is iterated, with an entry for each of them.
-/

namespace GraphHelper

/-! ## Section 1: Numbers -/

/-- A number of a JSON document. -/
inductive Number where
  | int (z : ℤ)
  | float (q : ℚ)
  deriving DecidableEq, Repr

namespace Number

def val : Number → ℚ
  | int z => z
  | float q => q

def sub : Number → Number → Number
  | int a, int b => int (a - b)
  | a, b => float (a.val - b.val)

/-- `/ 100`: an integer is divided by an integer with the fraction dropped. -/
def div_100 : Number → Number
  | int z => int (z / 100)
  | float q => float (q / 100)

end Number

/-- `<`, for what `get` finds: `None` is less than every number. -/
def less : Option Number → Option Number → Bool
  | none, some _ => true
  | some a, some b => decide (a.val < b.val)
  | _, none => false

/-- `min` of two; of equal ones it is the first. -/
def min₂ (a b : Option Number) : Option Number := if less b a then b else a

/-- `max` of two; of equal ones it is the first. -/
def max₂ (a b : Option Number) : Option Number := if less a b then b else a

/-! ## Section 2: Series -/

/-- An entry of the dictionary, with the samples it has for each pair of
    labels. -/
structure Series (D L : Type) where
  description : D
  mean : ℚ
  order : ℕ
  samples : L × L → List (Option Number × Option Number)

/-- A dictionary of series; nothing is read for names outside of it. -/
structure Tuples (N D L : Type) where
  keys : List N
  distinct : keys.Nodup
  entry : N → Series D L

/-- An element of a nested list. -/
inductive Nest (N : Type) where
  | name (n : N)
  | list (S : List (Nest N))

/-- `flatten`. -/
def flatten {N : Type} : List (Nest N) → List N
  | [] => []
  | .list S :: rest => flatten S ++ flatten rest
  | .name n :: rest => n :: flatten rest

variable {N D L : Type}

/-! ## Section 3: Buckets -/

/-- `all_close`. -/
def all_close (series : List N) (tuples : N → Series D L) (threshold : ℚ) : Bool :=
  series.all fun name => series.all fun comp =>
    !(decide ((tuples name).mean + threshold ≤ (tuples comp).mean) ||
      decide ((tuples name).mean - threshold ≥ (tuples comp).mean))

structure Buckets (N : Type) where
  smaller : List N
  bigger : List N
  same : List N

variable [DecidableEq N]

/-- The loop of `order_bucket` over the names; `none` is the return in it. -/
def fill_buckets (series : List N) (tuples : N → Series D L) (threshold : ℚ) (baseline : N) :
    List N → Buckets N → Option (Buckets N)
  | [], b => some b
  | name :: names, b =>
    if name = baseline then fill_buckets series tuples threshold baseline names b
    else if all_close series tuples threshold then none
    else if (tuples baseline).mean - threshold > (tuples name).mean then
      fill_buckets series tuples threshold baseline names
        { b with smaller := b.smaller ++ [name] }
    else if (tuples baseline).mean + threshold < (tuples name).mean then
      fill_buckets series tuples threshold baseline names
        { b with bigger := b.bigger ++ [name] }
    else
      fill_buckets series tuples threshold baseline names { b with same := b.same ++ [name] }

variable [LinearOrder D]

/-- `sorted(series, key = ..)`, then `reverse`. -/
def by_description (tuples : N → Series D L) (series : List N) : List N :=
  (series.mergeSort fun x y => decide ((tuples x).description ≤ (tuples y).description)).reverse

/-- `order_bucket`; the fuel is the depth that its calls may reach. -/
def order_bucket (tuples : N → Series D L) (threshold : ℚ) : ℕ → List N → Option (List (Nest N))
  | 0, _ => none
  | _ + 1, [] => some []
  | _ + 1, [name] => some [.name name]
  | fuel + 1, baseline :: names =>
    let series := baseline :: names
    match fill_buckets series tuples threshold baseline series ⟨[], [], []⟩ with
    | none => some ((by_description tuples series).map .name)
    | some b => do
      let smaller ← order_bucket tuples threshold fuel b.smaller
      let same ← order_bucket tuples threshold fuel (b.same ++ [baseline])
      let bigger ← order_bucket tuples threshold fuel b.bigger
      some [.list smaller, .list same, .list bigger]

/-! ## Section 4: The order of the bars -/

/-- How `order_ybar` ends without an order. -/
inductive Stop where
  /-- `min([])`. -/
  | value_error
  /-- A number less `None`. -/
  | type_error
  /-- `order_bucket` is still running: there is no more fuel. -/
  | running
  deriving DecidableEq, Repr

/-- `min(ymin, min(yvals))` and `max(ymax, max(yvals))`. -/
def extend_range (range : Option Number × Option Number) :
    List (Option Number) → Except Stop (Option Number × Option Number)
  | [] => .error .value_error
  | y :: yvals =>
    .ok (min₂ range.1 (yvals.foldl min₂ y), max₂ range.2 (yvals.foldl max₂ y))

/-- The loop of `order_ybar` over the series. -/
def value_range (tuples : Tuples N D L) (xkey ykey : L) :
    List N → Option Number × Option Number → Except Stop (Option Number × Option Number)
  | [], range => .ok range
  | series :: names, range => do
    let yvals := ((tuples.entry series).samples (xkey, ykey)).map (·.1)
    let range ← extend_range range yvals
    value_range tuples xkey ykey names range

/-- The threshold, from `ymin = 9999999` and `ymax = 0` on. -/
def bar_threshold (tuples : Tuples N D L) (xkey ykey : L) : Except Stop ℚ := do
  match ← value_range tuples xkey ykey tuples.keys (some (.int 9999999), some (.int 0)) with
  | (some ymin, some ymax) => .ok (ymax.sub ymin).div_100.val
  | _ => .error .type_error

/-- `tuples[series]["order"] = index`. -/
def Tuples.set_order (tuples : Tuples N D L) (series : N) (index : ℕ) : Tuples N D L :=
  { tuples with
    entry := Function.update tuples.entry series
      { tuples.entry series with order := index } }

/-- The loop that numbers the series. -/
def number_series : List N → ℕ → Tuples N D L → Tuples N D L
  | [], _, tuples => tuples
  | series :: names, index, tuples =>
    number_series names (index + 1) (tuples.set_order series index)

/-- `order_ybar`. -/
def order_ybar (fuel : ℕ) (tuples : Tuples N D L) (xkey ykey : L) :
    Except Stop (Tuples N D L) := do
  let threshold ← bar_threshold tuples xkey ykey
  match order_bucket tuples.entry threshold fuel tuples.keys with
  | none => .error .running
  | some series_order => .ok (number_series (flatten series_order).reverse 0 tuples)

end GraphHelper
