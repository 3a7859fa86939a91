import Catbench.Framework.Dict
import Catbench.Framework.Json.Number
import Catbench.Framework.Json.Str
import Mathlib.Data.List.Sort

/-! # Values, and how they are written

    The values that Python's `json` module reads and writes, and
    `dump(obj, fp, indent = '\t', sort_keys = True)`.  The writer works through
    the value and hands each piece to the file as it goes; when it meets a
    dictionary whose keys cannot be compared with each other it raises
    `TypeError`, and what was handed over before stays in the file.

    The interpreter's recursion limit is not modelled.
-/

namespace Json

/-! ## Section 1: Floating point -/

/-- A Python float over a type of finite ones. -/
inductive PyFloat (F : Type) where
  | finite (x : F)
  | nan
  | inf
  | neginf
  deriving DecidableEq

/-- What is used of floating point: `float`, and the `repr` of a finite float.
    The text of a finite float is a number with a fraction or an exponent, and
    reading it gives the float back. -/
class FloatFormat (F : Type) where
  float : List Char → Option (PyFloat F)
  repr : F → List Char
  isFloatText_repr : ∀ x, IsFloatText (repr x)
  float_repr : ∀ x, float (repr x) = some (.finite x)

/-- The whole numbers that are written with `.0`. -/
abbrev Whole : Type := Fin (10 ^ 16)

def Whole.float (t : List Char) : Option (PyFloat Whole) :=
  match t.reverse with
  | '0' :: '.' :: ds =>
    if h : ds.all Char.isDigit ∧ Nat.ofDigitChars 10 ds.reverse 0 < 10 ^ 16 then
      some (.finite ⟨Nat.ofDigitChars 10 ds.reverse 0, h.2⟩)
    else none
  | _ => none

instance : FloatFormat Whole where
  float := Whole.float
  repr n := Nat.toDigits 10 n.val ++ ['.', '0']
  isFloatText_repr n := ⟨[], Nat.toDigits 10 n.val, ['.', '0'], [],
    ⟨.inl rfl, whole_toDigits n.val, .inr ⟨['0'], rfl, by simp, by simp [IsDigits]⟩, .inl rfl⟩,
    by simp, by simp⟩
  float_repr n := by
    have hall : (Nat.toDigits 10 n.val).reverse.all Char.isDigit = true := by
      simpa [List.all_eq_true, IsDigits] using isDigits_toDigits n.val
    simp [Whole.float, hall]

/-! ## Section 2: Values -/

/-- A dictionary key.  A JSON text only has string keys. -/
inductive Key where
  | str (s : Str)
  | int (i : ℤ)
  deriving DecidableEq

inductive Val (F : Type) where
  | null
  | bool (b : Bool)
  | int (z : ℤ)
  | float (x : PyFloat F)
  | str (s : Str)
  | list (xs : List (Val F))
  | dict (d : List (Key × Val F))

variable {F : Type}

/-- `<=` on two keys of one type: strings by code points, integers by value. -/
def Key.le : Key → Key → Prop
  | .str s, .str t => s.points ≤ t.points
  | .int i, .int j => i ≤ j
  | _, _ => False

instance : DecidableRel Key.le
  | .str s, .str t => inferInstanceAs (Decidable (s.points ≤ t.points))
  | .int i, .int j => inferInstanceAs (Decidable (i ≤ j))
  | .str _, .int _ | .int _, .str _ => isFalse id

def Key.isStr : Key → Bool
  | .str _ => true
  | .int _ => false

/-- The keys can be compared with each other. -/
def comparable (ks : List Key) : Bool := ks.all Key.isStr || ks.all (!·.isStr)

/-- `sorted(d.items())`, for comparable keys. -/
def sortItems {V : Type*} (d : List (Key × V)) : List (Key × V) :=
  d.insertionSort fun p q => p.1.le q.1

theorem perm_sortItems {V : Type*} (d : List (Key × V)) : (sortItems d).Perm d :=
  List.perm_insertionSort _ d

/-- Sorting only looks at the keys. -/
theorem sortItems_map {V W : Type*} (f : Key × V → W) (d : List (Key × V)) :
    sortItems (d.map fun p => (p.1, f p)) = (sortItems d).map fun p => (p.1, f p) :=
  (List.map_insertionSort (fun p q : Key × V => p.1.le q.1) (fun p q : Key × W => p.1.le q.1)
    (fun p => (p.1, f p)) d (fun _ _ _ _ => Iff.rfl)).symm

/-! ## Section 3: Writer -/

/-- What reached the file, and whether the writer finished. -/
structure Out where
  text : List Char
  done : Bool

namespace Out

def write (text : List Char) : Out := ⟨text, true⟩

/-- Raise after what was written. -/
def raise : Out := ⟨[], false⟩

/-- Go on with `b` if `a` finished. -/
def andThen (a b : Out) : Out := if a.done then ⟨a.text ++ b.text, b.done⟩ else a

/-- One piece after the other, with `sep` between them. -/
def sepBy (sep : List Char) : List Out → Out
  | [] => write []
  | [a] => a
  | a :: b :: rest => a.andThen ((write sep).andThen (sepBy sep (b :: rest)))

end Out

def hexDigit (n : ℕ) : Char := Nat.digitChar (n % 16)

/-- `'\\u{0:04x}'.format(n)`. -/
def escapeHex (n : ℕ) : List Char :=
  ['\\', 'u', hexDigit (n / 4096), hexDigit (n / 256), hexDigit (n / 16), hexDigit n]

/-- A code point below 0x10000 in a string, with `ensure_ascii`. -/
def escapeUnit (c : CodePoint) : List Char :=
  if c.val = 0x5C then ['\\', '\\']
  else if c.val = 0x22 then ['\\', '"']
  else if c.val = 0x08 then ['\\', 'b']
  else if c.val = 0x0C then ['\\', 'f']
  else if c.val = 0x0A then ['\\', 'n']
  else if c.val = 0x0D then ['\\', 'r']
  else if c.val = 0x09 then ['\\', 't']
  else if 0x20 ≤ c.val ∧ c.val ≤ 0x7E then [Char.ofNat c.val]
  else escapeHex c.val

/-- `encode_basestring_ascii`. -/
def strText (s : Str) : List Char :=
  '"' :: (s.points.flatMap CodePoint.units).flatMap escapeUnit ++ ['"']

def Key.text : Key → Str
  | .str s => s
  | .int i => Str.ofText (intText i)

def newline (level : ℕ) : List Char := '\n' :: List.replicate level '\t'

section writer

variable [FloatFormat F]

def floatText : PyFloat F → List Char
  | .finite x => FloatFormat.repr x
  | .nan => ['N', 'a', 'N']
  | .inf => ['I', 'n', 'f', 'i', 'n', 'i', 't', 'y']
  | .neginf => ['-', 'I', 'n', 'f', 'i', 'n', 'i', 't', 'y']

mutual

/-- `_iterencode` at an indentation level. -/
def encode (level : ℕ) : Val F → Out
  | .null => .write ['n', 'u', 'l', 'l']
  | .bool true => .write ['t', 'r', 'u', 'e']
  | .bool false => .write ['f', 'a', 'l', 's', 'e']
  | .int z => .write (intText z)
  | .float x => .write (floatText x)
  | .str s => .write (strText s)
  | .list [] => .write ['[', ']']
  | .list (x :: xs) =>
    (Out.write ('[' :: newline (level + 1))).andThen <|
    (Out.sepBy (',' :: newline (level + 1)) (encodeList (level + 1) (x :: xs))).andThen <|
    Out.write (newline level ++ [']'])
  | .dict [] => .write ['{', '}']
  | .dict (p :: d) =>
    -- The items are sorted after the brace and the line break were written.
    (Out.write ('{' :: newline (level + 1))).andThen <|
    if comparable (Dict.keys (p :: d)) then
      (Out.sepBy (',' :: newline (level + 1))
        ((sortItems (encodeItems (level + 1) (p :: d))).map Prod.snd)).andThen <|
      Out.write (newline level ++ ['}'])
    else Out.raise

def encodeList (level : ℕ) : List (Val F) → List Out
  | [] => []
  | x :: xs => encode level x :: encodeList level xs

/-- Each item with its key, for sorting. -/
def encodeItems (level : ℕ) : List (Key × Val F) → List (Key × Out)
  | [] => []
  | (k, v) :: d =>
    (k, (Out.write (strText k.text ++ [':', ' '])).andThen (encode level v)) ::
      encodeItems level d

end

/-- `dump(obj, fp, indent = '\t', sort_keys = True)`. -/
def dump (v : Val F) : Out := encode 0 v

theorem encodeList_eq_map (level : ℕ) (xs : List (Val F)) :
    encodeList level xs = xs.map (encode level) := by
  induction xs with
  | nil => rfl
  | cons x xs ih => rw [encodeList, ih, List.map_cons]

theorem encodeItems_eq_map (level : ℕ) (d : List (Key × Val F)) :
    encodeItems level d = d.map fun p =>
      (p.1, (Out.write (strText p.1.text ++ [':', ' '])).andThen (encode level p.2)) := by
  induction d with
  | nil => rfl
  | cons p d ih => rw [encodeItems, ih, List.map_cons]

end writer

/-! ## Section 4: What is read back -/

mutual

/-- What a written value reads back as: dictionaries are sorted, and their keys
    are strings. -/
def reload : Val F → Val F
  | .list xs => .list (reloadList xs)
  | .dict d => .dict (Dict.ofPairs ((sortItems (reloadItems d)).map fun p => (.str p.1.text, p.2)))
  | .null => .null
  | .bool b => .bool b
  | .int z => .int z
  | .float x => .float x
  | .str s => .str s

def reloadList : List (Val F) → List (Val F)
  | [] => []
  | x :: xs => reload x :: reloadList xs

def reloadItems : List (Key × Val F) → List (Key × Val F)
  | [] => []
  | (k, v) :: d => (k, reload v) :: reloadItems d

end

theorem reloadList_eq_map (xs : List (Val F)) : reloadList xs = xs.map reload := by
  induction xs with
  | nil => rfl
  | cons x xs ih => rw [reloadList, ih, List.map_cons]

theorem reloadItems_eq_map (d : List (Key × Val F)) :
    reloadItems d = d.map fun p => (p.1, reload p.2) := by
  induction d with
  | nil => rfl
  | cons p d ih => rw [reloadItems, ih, List.map_cons]

end Json
