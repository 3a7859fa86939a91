import Catbench.Framework.Json.Value

/-! # How values are read

    `load` of Python's `json` module: a recursive-descent reader that accepts
    the JSON grammar together with `NaN`, `Infinity` and `-Infinity`, keeps the
    last of the values given to one key, and joins adjacent surrogate escapes.
    A text that is not accepted raises `JSONDecodeError`.

    The reader is bounded by fuel; the length of the text is enough for it.
-/

namespace Json

variable {F : Type}

/-! ## Section 1: Tokens -/

def isSpace (c : Char) : Bool := c = ' ' ∨ c = '\t' ∨ c = '\n' ∨ c = '\r'

def skipSpace (t : List Char) : List Char := t.dropWhile isSpace

/-- The value of a hexadecimal digit. -/
def hexValue (c : Char) : Option ℕ :=
  if c.isDigit then some (c.toNat - '0'.toNat)
  else if 'a' ≤ c ∧ c ≤ 'f' then some (c.toNat - 'a'.toNat + 10)
  else if 'A' ≤ c ∧ c ≤ 'F' then some (c.toNat - 'A'.toNat + 10)
  else none

def hex4 (a b c d : Char) : Option CodePoint := do
  let a ← hexValue a
  let b ← hexValue b
  let c ← hexValue c
  let d ← hexValue d
  let n := a * 4096 + b * 256 + c * 16 + d
  if h : n < 0x110000 then some ⟨n, h⟩ else none

/-- The escapes of one character. -/
def unescape : Char → Option Char
  | '"' => some '"'
  | '\\' => some '\\'
  | '/' => some '/'
  | 'b' => some '\x08'
  | 'f' => some '\x0c'
  | 'n' => some '\n'
  | 'r' => some '\r'
  | 't' => some '\t'
  | _ => none

/-- `scanstring`, after the opening quote: one code point per character or
    escape, and what follows the closing quote.  Control characters are not
    accepted. -/
def scanUnits : List Char → Option (List CodePoint × List Char)
  | [] => none
  | '"' :: rest => some ([], rest)
  | '\\' :: 'u' :: a :: b :: c :: d :: rest => do
    let u ← hex4 a b c d
    let (us, rest) ← scanUnits rest
    some (u :: us, rest)
  | '\\' :: c :: rest => do
    let u ← unescape c
    let (us, rest) ← scanUnits rest
    some (CodePoint.ofChar u :: us, rest)
  | c :: rest =>
    if c.toNat < 0x20 then none
    else do
      let (us, rest) ← scanUnits rest
      some (CodePoint.ofChar c :: us, rest)

/-! ## Section 2: Reader -/

variable [FloatFormat F]

def numberValue (whole frac : List Char) : Option (Val F) :=
  if frac.isEmpty then some (.int (intValue whole))
  else (FloatFormat.float (whole ++ frac)).map .float

/-- A number or one of the constants, where no other value starts. -/
def scanAtom (t : List Char) : Option (Val F × List Char) :=
  match scanNumber t with
  | some (whole, frac, rest) => (numberValue whole frac).map fun v => (v, rest)
  | none =>
    match t with
    | 'n' :: 'u' :: 'l' :: 'l' :: rest => some (.null, rest)
    | 't' :: 'r' :: 'u' :: 'e' :: rest => some (.bool true, rest)
    | 'f' :: 'a' :: 'l' :: 's' :: 'e' :: rest => some (.bool false, rest)
    | 'N' :: 'a' :: 'N' :: rest => some (.float .nan, rest)
    | 'I' :: 'n' :: 'f' :: 'i' :: 'n' :: 'i' :: 't' :: 'y' :: rest => some (.float .inf, rest)
    | '-' :: 'I' :: 'n' :: 'f' :: 'i' :: 'n' :: 'i' :: 't' :: 'y' :: rest =>
      some (.float .neginf, rest)
    | _ => none

mutual

/-- `scan_once`. -/
def scanOnce : ℕ → List Char → Option (Val F × List Char)
  | 0, _ => none
  | fuel + 1, t =>
    match t with
    | '"' :: rest => do
      let (us, rest) ← scanUnits rest
      some (.str (Str.ofUnits us), rest)
    | '{' :: rest =>
      match skipSpace rest with
      | '}' :: rest => some (.dict [], rest)
      | rest => do
        let (items, rest) ← scanItems fuel rest
        some (.dict (Dict.ofPairs items), rest)
    | '[' :: rest =>
      match skipSpace rest with
      | ']' :: rest => some (.list [], rest)
      | rest => do
        let (xs, rest) ← scanElements fuel rest
        some (.list xs, rest)
    | t => scanAtom t

/-- The items of an object, from the quote of a key to the closing brace. -/
def scanItems : ℕ → List Char → Option (List (Key × Val F) × List Char)
  | 0, _ => none
  | fuel + 1, t =>
    match t with
    | '"' :: rest => do
      let (us, rest) ← scanUnits rest
      match skipSpace rest with
      | ':' :: rest =>
        let (v, rest) ← scanOnce fuel (skipSpace rest)
        let item := (Key.str (Str.ofUnits us), v)
        match skipSpace rest with
        | ',' :: rest =>
          let (items, rest) ← scanItems fuel (skipSpace rest)
          some (item :: items, rest)
        | '}' :: rest => some ([item], rest)
        | _ => none
      | _ => none
    | _ => none

/-- The elements of an array, from the first one to the closing bracket. -/
def scanElements : ℕ → List Char → Option (List (Val F) × List Char)
  | 0, _ => none
  | fuel + 1, t => do
    let (x, rest) ← scanOnce fuel t
    match skipSpace rest with
    | ',' :: rest =>
      let (xs, rest) ← scanElements fuel (skipSpace rest)
      some (x :: xs, rest)
    | ']' :: rest => some ([x], rest)
    | _ => none

end

/-- `load(fp)` on the text of the file; `none` is `JSONDecodeError`. -/
def load (t : List Char) : Option (Val F) :=
  if t.head? = some '\ufeff' then none
  else do
    let (v, rest) ← scanOnce (t.length + 1) (skipSpace t)
    if (skipSpace rest).isEmpty then some v else none

end Json
