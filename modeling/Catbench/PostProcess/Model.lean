import Catbench.Framework.Json.Documents
import Mathlib.Data.List.Infix

/-! # Post-processing of data files (`post-process.py`)

    The script reads a document, makes those of its passes over it that the
    options select, and writes it back to the same file.

    A dictionary is iterated over in the order that Python gives it then, which
    is a parameter (`Order`); the items of `data` are put together again in the
    order in which they were visited, which does not matter for a dictionary.
    What Python makes of `*` and `/` on numbers is a parameter too
    (`Arithmetic`), since they may be floats.

    A step that raises ends in `none`: the runs that are looked at are those in
    which no selected step does.
-/

open Json

namespace PostProcess

variable {F : Type}

/-! ## Section 1: Python -/

/-- The order in which dictionaries are iterated over. -/
structure Order where
  items : {V : Type} → List (Key × V) → List (Key × V)
  perm : ∀ {V : Type} (d : List (Key × V)), (items d).Perm d

/-- Integers, floats and booleans. -/
def isNumber : Val F → Bool
  | .int _ | .float _ | .bool _ => true
  | _ => false

/-- `*` and `/`; `none` is an exception.  A sequence can be multiplied too, but
    that does not give a number, and only numbers can be divided. -/
structure Arithmetic (F : Type) where
  mul : Val F → Val F → Option (Val F)
  div : Val F → Val F → Option (Val F)
  mul_number : ∀ {v w x}, mul v w = some x → isNumber x → isNumber v ∧ isNumber w
  div_number : ∀ {v w x}, div v w = some x → isNumber v ∧ isNumber w ∧ isNumber x

def key (t : String) : Key := .str (Str.ofText t.toList)

def text (t : String) : Val F := .str (Str.ofText t.toList)

/-- `v[k]` for a string `k`, which only a dictionary has. -/
def getitem (v : Val F) (k : Key) : Option (Val F) :=
  match v with
  | .dict d => d.lookup k
  | _ => none

/-- `v[k] = x` for a string `k`. -/
def setitem (v : Val F) (k : Key) (x : Val F) : Option (Val F) :=
  match v with
  | .dict d => some (.dict (Dict.insert k x d))
  | _ => none

def is_str (s : Str) : Val F → Bool
  | .str t => t = s
  | _ => false

/-- `k in v`; `none` is an exception. -/
def contains (v : Val F) (k : Key) : Option Bool :=
  match v with
  | .dict d => some (decide (k ∈ Dict.keys d))
  | .list xs => some (xs.any (is_str k.text))
  | .str s => some (decide (k.text.points <:+: s.points))
  | _ => none

/-- `len(v) == 0`, for something else than a list. -/
def empty : Val F → Bool
  | .dict d => d.isEmpty
  | .str s => s.points.isEmpty
  | _ => false

/-- Replace the text `old` where it occurs, from left to right; `skip` points
    belong to an occurrence that has been replaced. -/
def replace_from (old new : List CodePoint) : ℕ → List CodePoint → List CodePoint
  | _, [] => []
  | skip + 1, _ :: t => replace_from old new skip t
  | 0, c :: t =>
    if old <+: c :: t then new ++ replace_from old new (old.length - 1) t
    else c :: replace_from old new 0 t

/-- `s.replace(old, new)`, for an `old` that is not empty. -/
def replace (s old new : Str) : Str := Str.ofUnits (replace_from old.points new.points 0 s.points)

def startswith (s old : Str) : Bool := old.points.isPrefixOf s.points

/-- A loop over a sequence that may change its members and the labels. -/
def each {α : Type} (body : α → Val F → Option (α × Val F)) :
    List α → Val F → Option (List α × Val F)
  | [], labels => some ([], labels)
  | x :: xs, labels => do
    let (x, labels) ← body x labels
    let (xs, labels) ← each body xs labels
    some (x :: xs, labels)

/-- The loop over the items of a dictionary; their keys stay. -/
def each_item (body : Val F → Val F → Option (Val F × Val F)) :
    List (Key × Val F) → Val F → Option (List (Key × Val F) × Val F) :=
  each fun p labels => (body p.2 labels).map fun r => ((p.1, r.1), r.2)

/-- `while(index < len(data[series]["samples"]))`. -/
def each_index (body : Val F → Val F → Option (Val F × Val F)) (series labels : Val F) :
    Option (Val F × Val F) := do
  match ← getitem series (key "samples") with
  | .list xs =>
    let (xs, labels) ← each body xs labels
    let series ← setitem series (key "samples") (.list xs)
    some (series, labels)
  -- there is nothing at index 0 of anything else
  | samples => if empty samples then some (series, labels) else none

/-- The loop over all samples of all series. -/
def each_sample (o : Order) (body : Val F → Val F → Option (Val F × Val F))
    (data labels : Val F) : Option (Val F × Val F) :=
  match data with
  | .dict d => (each_item (each_index body) (o.items d) labels).map fun r => (.dict r.1, r.2)
  | _ => none

/-! ## Section 2: Tables -/

def descriptions : List (Key × Str) :=
  [("allocation", "Contention-CAT"), ("baseline", "NoContention"), ("basealloc", "NoContention-CAT"),
    ("contention", "Contention-NoCAT")].map fun p => (key p.1, Str.ofText p.2.toList)

def original_descriptions : List (Key × Str) :=
  [("Allocation", "Contention-CAT"), ("Baseline", "NoContention-NoCAT"),
    ("Basealloc", "NoContention-CAT")].map fun p => (key p.1, Str.ofText p.2.toList)

def unit_conversions : List (String × ℤ) :=
  [("L1-dcache-load-misses", 1000000), ("L1-icache-load-misses", 1000000),
    ("L2_RQSTS/ALL_CODE_RD", 1000000), ("L2_RQSTS/ALL_DEMAND_DATA_RD", 1000000),
    ("L2_RQSTS/ALL_DEMAND_MISS", 1000000), ("L2_RQSTS/CODE_RD_MISS", 1000000),
    ("L2_RQSTS/MISS", 1000000), ("L2_RQSTS/REFERENCES", 1000000), ("L2_TRANS/CODE_RD", 1000000),
    ("L2_TRANS/DEMAND_DATA_RD", 1000000), ("LLC_MISS", 1000000), ("LLC_REFERENCE", 1000000),
    ("MEM_LOAD_UOPS_RETIRED/L1_MISS", 1000000), ("MEM_LOAD_UOPS_RETIRED/L2_MISS", 1000000),
    ("MEM_LOAD_UOPS_RETIRED/L3_MISS", 1000000), ("MEM_UOPS_RETIRED/ALL_LOADS", 1000000),
    ("cpu-cycles", 1000000), ("instructions", 1000000), ("stalled-cycles", 1000000),
    ("L2_RQSTS/ALL_DEMAND_REFERENCES", 1000000), ("L2_RQSTS/DEMAND_DATA_RD_MISS", 1000000),
    ("contender-L1-dcache-load-misses", 1000000), ("contender-L1-icache-load-misses", 1000000),
    ("contender-L2_RQSTS/ALL_CODE_RD", 1000000),
    ("contender-L2_RQSTS/ALL_DEMAND_DATA_RD", 1000000),
    ("contender-L2_RQSTS/ALL_DEMAND_MISS", 1000000), ("contender-L2_RQSTS/CODE_RD_MISS", 1000000),
    ("contender-L2_RQSTS/MISS", 1000000), ("contender-L2_RQSTS/REFERENCES", 1000000),
    ("contender-L2_TRANS/CODE_RD", 1000000), ("contender-L2_TRANS/DEMAND_DATA_RD", 1000000),
    ("contender-LLC_MISS", 1000000), ("contender-LLC_REFERENCE", 1000000),
    ("contender-MEM_LOAD_UOPS_RETIRED/L1_MISS", 1000000),
    ("contender-MEM_LOAD_UOPS_RETIRED/L2_MISS", 1000000),
    ("contender-MEM_LOAD_UOPS_RETIRED/L3_MISS", 1000000),
    ("contender-MEM_UOPS_RETIRED/ALL_LOADS", 1000000), ("contender-cpu-cycles", 1000000),
    ("contender-instructions", 1000000), ("contender-stalled-cycles", 1000000),
    ("contender-L2_RQSTS/ALL_DEMAND_REFERENCES", 1000000),
    ("contender-L2_RQSTS/DEMAND_DATA_RD_MISS", 1000000)]

/-- There is no comma after `iTLB-load-misses`, so it is one name with the next. -/
def miss_counters : List String :=
  ["L1-dcache-load-misses", "L1-icache-load-misses", "L2_RQSTS/ALL_CODE_RD",
    "L2_RQSTS/ALL_DEMAND_DATA_RD", "L2_RQSTS/ALL_DEMAND_MISS", "L2_RQSTS/ALL_DEMAND_REFERENCES",
    "L2_RQSTS/CODE_RD_MISS", "L2_RQSTS/CODE_RD_MISS_RATIO", "L2_RQSTS/DEMAND_DATA_RD_MISS",
    "L2_RQSTS/DEMAND_DATA_RD_MISS_RATIO", "L2_RQSTS/MISS", "L2_RQSTS/REFERENCES",
    "L2_TRANS/CODE_RD", "L2_TRANS/DEMAND_DATA_RD", "LLC_MISS", "LLC_REFERENCE",
    "dTLB-load-misses", "iTLB-load-missescontender-L1-dcache-load-misses",
    "contender-L1-icache-load-misses", "contender-L2_RQSTS/ALL_CODE_RD",
    "contender-L2_RQSTS/ALL_DEMAND_DATA_RD", "contender-L2_RQSTS/ALL_DEMAND_MISS",
    "contender-L2_RQSTS/ALL_DEMAND_REFERENCES", "contender-L2_RQSTS/CODE_RD_MISS",
    "contender-L2_RQSTS/CODE_RD_MISS_RATIO", "contender-L2_RQSTS/DEMAND_DATA_RD_MISS",
    "contender-L2_RQSTS/DEMAND_DATA_RD_MISS_RATIO", "contender-L2_RQSTS/MISS",
    "contender-L2_RQSTS/REFERENCES", "contender-L2_TRANS/CODE_RD",
    "contender-L2_TRANS/DEMAND_DATA_RD", "contender-LLC_MISS", "contender-LLC_REFERENCE",
    "contender-dTLB-load-misses", "contender-iTLB-load-misses"]

def num2word (num : ℤ) : Val F :=
  if num = 1000 then text "thousands" else if num = 1000000 then text "millions" else .null

/-- The names, descriptions and units that `add_perf_descriptions` sets. -/
def perf_descriptions : List (String × String × String) :=
  [("L1-dcache-load-misses", "L1 dcache load misses per second", ""),
    ("L1-icache-load-misses", "L1 icache load misses per second", ""),
    ("L2_RQSTS/ALL_CODE_RD", "L2 code read requests per second", ""),
    ("L2_RQSTS/ALL_DEMAND_DATA_RD", "L2 data read requests per second", ""),
    ("L2_RQSTS/ALL_DEMAND_MISS", "L2 all misses per second", ""),
    ("L2_RQSTS/ALL_DEMAND_REFERENCES", "L2 all references per second", ""),
    ("L2_RQSTS/CODE_RD_MISS", "L2 code read misses per second", ""),
    ("L2_RQSTS/CODE_RD_MISS_RATIO", "L2 code read miss ratio", ""),
    ("L2_RQSTS/DEMAND_DATA_RD_MISS", "L2 data read misses per second", ""),
    ("L2_RQSTS/DEMAND_DATA_RD_MISS_RATIO", "L2 data read miss ratio", ""),
    ("L2_RQSTS/MISS", "L2 misses per second", ""), ("L2_RQSTS/MISS_RATIO", "L2 miss ratio", ""),
    ("L2_RQSTS/REFERENCES", "L2 references per second", ""),
    ("L2_TRANS/CODE_RD", "L2 trans code read per second", ""),
    ("L2_TRANS/DEMAND_DATA_RD", "L2 trans demand data read per second", ""),
    ("LLC_MISS", "LLC misses per second", ""), ("LLC_MISS_RATIO", "LLC miss ratio", ""),
    ("LLC_REFERENCE", "LLC references per second", ""),
    ("MEM_LOAD_UOPS_RETIRED/L1_MISS", "Mem load uops retired l1 miss per second", ""),
    ("MEM_LOAD_UOPS_RETIRED/L2_MISS", "Mem load uops retired l2 miss per second", ""),
    ("MEM_LOAD_UOPS_RETIRED/L3_MISS", "Mem load uops retired l3 miss per second", ""),
    ("MEM_UOPS_RETIRED/ALL_LOADS", "Mem uops retired all loads per second", ""),
    ("cpu-cycles", "CPU cycles per second", ""), ("instructions", "Instructions per second", ""),
    ("stalled-cycles", "Stalled cycles per second", ""),
    ("dTLB-load-misses", "dTLB load misses per second", ""),
    ("iTLB-load-misses", "iTLB load misses per second", ""),
    ("contender-L1-dcache-load-misses", "L1 dcache load misses per second", ""),
    ("contender-L1-icache-load-misses", "L1 icache load misses per second", ""),
    ("contender-L2_RQSTS/ALL_CODE_RD", "L2 code read requests per second", ""),
    ("contender-L2_RQSTS/ALL_DEMAND_DATA_RD", "L2 data read requests per second", ""),
    ("contender-L2_RQSTS/ALL_DEMAND_MISS", "L2 all misses per second", ""),
    ("contender-L2_RQSTS/ALL_DEMAND_REFERENCES", "L2 all references per second", ""),
    ("contender-L2_RQSTS/CODE_RD_MISS", "L2 code read misses per second", ""),
    ("contender-L2_RQSTS/CODE_RD_MISS_RATIO", "L2 code read miss ratio", ""),
    ("contender-L2_RQSTS/DEMAND_DATA_RD_MISS", "L2 data read misses per second", ""),
    ("contender-L2_RQSTS/DEMAND_DATA_RD_MISS_RATIO", "L2 data read miss ratio", ""),
    ("contender-L2_RQSTS/MISS", "L2 misses per second", ""),
    ("contender-L2_RQSTS/MISS_RATIO", "L2 miss ratio", ""),
    ("contender-L2_RQSTS/REFERENCES", "L2 references per second", ""),
    ("contender-L2_TRANS/CODE_RD", "L2 trans code read per second", ""),
    ("contender-L2_TRANS/DEMAND_DATA_RD", "L2 trans demand data read per second", ""),
    ("contender-LLC_MISS", "LLC misses per second", ""),
    ("contender-LLC_MISS_RATIO", "LLC miss ratio", ""),
    ("contender-LLC_REFERENCE", "LLC references per second", ""),
    ("contender-MEM_LOAD_UOPS_RETIRED/L1_MISS", "Mem load uops retired l1 miss per second", ""),
    ("contender-MEM_LOAD_UOPS_RETIRED/L2_MISS", "Mem load uops retired l2 miss per second", ""),
    ("contender-MEM_LOAD_UOPS_RETIRED/L3_MISS", "Mem load uops retired l3 miss per second", ""),
    ("contender-MEM_UOPS_RETIRED/ALL_LOADS", "Mem uops retired all loads per second", ""),
    ("contender-cpu-cycles", "CPU cycles per second", ""),
    ("contender-instructions", "Instructions per second", ""),
    ("contender-stalled-cycles", "Stalled cycles per second", ""),
    ("contender-dTLB-load-misses", "dTLB load misses per second", ""),
    ("contender-iTLB-load-misses", "iTLB load misses per second", ""),
    ("999tail-latency", "Mite 99.9%-ile tail latency", "us"),
    ("mite_throughput", "Mite Throughput", "Mops")]

/-! ## Section 3: Passes -/

/-- An entry of the legend. -/
def label (description unit : Val F) : Val F :=
  .dict [(key "description", description), (key "unit", unit)]

/-- `data` and `legend["samples"]`. -/
structure State (F : Type) where
  data : Val F
  labels : Val F

section passes
variable (ar : Arithmetic F) (o : Order)

/-- The body of the loop of `entries2bytes`. -/
def add_working_set_size (bytes_per_entry : ℤ) (sample : Val F) : Option (Val F) := do
  let entries ← getitem sample (key "table_entries")
  let size_mb ← ar.div (← ar.div (← ar.mul entries (.int bytes_per_entry)) (.int 1024)) (.int 1024)
  setitem sample (key "working_set_size") size_mb

def entries2bytes (bytes_per_entry : ℤ) (s : State F) : Option (State F) := do
  let labels ← setitem s.labels (key "working_set_size")
    (label (text "Working set size") (text "MB"))
  let (data, labels) ← each_sample o
    (fun sample labels => (add_working_set_size ar bytes_per_entry sample).map (·, labels))
    s.data labels
  some ⟨data, labels⟩

/-- `if(key in data): data[key]["description"] = ..`. -/
def describe (d : List (Key × Val F)) (p : Key × Str) : Option (List (Key × Val F)) :=
  match d.lookup p.1 with
  | none => some d
  | some series => do
    let series ← setitem series (key "description") (.str p.2)
    some (Dict.insert p.1 series d)

/-- The body of the inner loop of `fix_series_descriptions`. -/
def replace_start (s : Str) (p : Key × Str) : Str :=
  if startswith s p.1.text then replace s p.1.text p.2 else s

def fix_description (series : Val F) : Option (Val F) := do
  match ← getitem series (key "description") with
  | .str s =>
    setitem series (key "description")
      (.str ((o.items original_descriptions).foldl replace_start s))
  | _ => none

def fix_series_descriptions (s : State F) : Option (State F) :=
  match s.data with
  | .dict d => do
    let d ← (o.items descriptions).foldlM describe d
    let (d, labels) ← each_item
      (fun series labels => (fix_description o series).map (·, labels)) (o.items d) s.labels
    some ⟨.dict d, labels⟩
  | _ => none

def add_perf_descriptions (s : State F) : Option (State F) := do
  let labels ← perf_descriptions.foldlM
    (fun labels p => setitem labels (key p.1) (label (text p.2.1) (text p.2.2))) s.labels
  if ← contains labels (key "contender_tput") then some { s with labels := labels }
  else
    let labels ← setitem labels (key "contender_tput")
      (label (text "Contender throughput") (text "epochs/s"))
    some { s with labels := labels }

/-- What a pass derives from a counter: the field, its value, and its entry in
    the legend. -/
structure Rule (F : Type) where
  datakey : Key
  new_key : Key
  value : (Key → Option (Val F)) → Option (Val F)
  label : Val F → Option (Val F)

/-- `if(new_key not in legend["samples"])`. -/
def add_label (r : Rule F) (labels : Val F) : Option (Val F) := do
  if ← contains labels r.new_key then some labels
  else setitem labels r.new_key (← r.label labels)

/-- The body of the loop over the keys of a sample. -/
def derive_field (rules : List (Rule F)) (s : List (Key × Val F) × Val F) (datakey : Key) :
    Option (List (Key × Val F) × Val F) :=
  match rules.find? (·.datakey = datakey) with
  | none => some s
  | some r => do
    let labels ← add_label r s.2
    let value ← r.value fun k => s.1.lookup k
    some (Dict.insert r.new_key value s.1, labels)

def derive_fields (rules : List (Rule F)) (sample labels : Val F) : Option (Val F × Val F) :=
  match sample with
  | .dict e => ((Dict.keys (o.items e)).foldlM (derive_field rules) (e, labels)).map
      fun r => (.dict r.1, r.2)
  | _ => none

def derive_all (rules : List (Rule F)) (s : State F) : Option (State F) := do
  let (data, labels) ← each_sample o (derive_fields o rules) s.data s.labels
  some ⟨data, labels⟩

/-- `legend["samples"][datakey]["description"]`. -/
def description_of (datakey : String) (labels : Val F) : Option (Val F) := do
  getitem (← getitem labels (key datakey)) (key "description")

def unit_rule (p : String × ℤ) : Rule F where
  datakey := key p.1
  new_key := key (p.1 ++ "-scaled")
  value sample := do ar.div (← sample (key p.1)) (.int p.2)
  label labels := do some (label (← description_of p.1 labels) (num2word p.2))

def change_counter_units : State F → Option (State F) :=
  derive_all o (unit_conversions.map (unit_rule ar))

/-- `' '.join(s.split(' ')[:-2]) + " per kilo-instruction"`: what is left of a
    text before the last space but one. -/
def per_kilo_instruction (s : Str) : Str :=
  let words := s.points.splitOn (CodePoint.ofChar ' ')
  Str.ofUnits ([CodePoint.ofChar ' '].intercalate (words.take (words.length - 2)) ++
    " per kilo-instruction".toList.map CodePoint.ofChar)

def miss_rule (datakey : String) : Rule F where
  datakey := key datakey
  new_key := key (datakey ++ "-per-kilo-instruction")
  value sample := do
    let misses ← sample (key datakey)
    ar.div misses (← ar.div (← sample (key "instructions")) (.int 1000))
  label labels := do
    match ← description_of datakey labels with
    | .str s => some (label (.str (per_kilo_instruction s)) (text ""))
    | _ => none

def add_misses_per_instruction : State F → Option (State F) :=
  derive_all o (miss_counters.map (miss_rule ar))

end passes

/-! ## Section 4: `main` -/

structure Options where
  bytes : ℤ
  series_description : Bool
  perf_descriptions : Bool
  change_units : Bool
  miss_per_instruction : Bool

/-- Make a pass if it is selected. -/
def step (selected : Bool) (pass : State F → Option (State F)) (s : State F) : Option (State F) :=
  if selected then pass s else some s

/-- The selected passes, in their order. -/
def passes (ar : Arithmetic F) (o : Order) (opts : Options) (s : State F) : Option (State F) := do
  let s ← step (opts.bytes ≠ 0) (entries2bytes ar o opts.bytes) s
  let s ← step opts.series_description (fix_series_descriptions o) s
  let s ← step opts.perf_descriptions add_perf_descriptions s
  let s ← step opts.miss_per_instruction (add_misses_per_instruction ar o) s
  step opts.change_units (change_counter_units ar o) s

/-- The document in the file after a run in which no step raises.  With `-c` and
    without `-p` the script leaves before it writes. -/
def main (ar : Arithmetic F) (o : Order) (opts : Options) (jsonfile : Val F) :
    Option (Val F) := do
  if !opts.perf_descriptions && opts.change_units then some jsonfile
  else
    let data ← getitem jsonfile (key "data")
    let legend ← getitem jsonfile (key "legend")
    let labels ← getitem legend (key "samples")
    let s ← passes ar o opts ⟨data, labels⟩
    let legend ← setitem legend (key "samples") s.labels
    setitem (← setitem jsonfile (key "data") s.data) (key "legend") legend

end PostProcess
