import Catbench.Framework.Json.Documents

/-! # The conversions of `jaguar`

    What `jaguar` makes of a text by a type: a string, an integer, a fraction, a
    boolean, or an array read from a CSV file; and the types it infers from an
    existing value.

    A conversion may raise, leave the program, and read standard input, which is
    at its end from then on.  Files are given as the text layer delivers them:
    decoded, and with line ends translated.  Arguments are decoded text.
-/

open Json

namespace Jaguar

abbrev Text := List Char

/-! ## Section 1: Python -/

/-- The exceptions that are told apart; `exit` is `SystemExit`. -/
inductive Exn where
  | value_error
  | type_error
  | lookup_error
  | exit
  deriving DecidableEq, Repr

/-- A computation over the rest of standard input. -/
def Py (α : Type) : Type := Text → Except Exn α × Text

namespace Py

variable {α β : Type}

def raise (e : Exn) : Py α := fun stdin => (.error e, stdin)

instance : Monad Py where
  pure a := fun stdin => (.ok a, stdin)
  bind x f := fun stdin =>
    match x stdin with
    | (.ok a, stdin) => f a stdin
    | (.error e, stdin) => (.error e, stdin)

/-- The outcome of a computation, for an exception handler to look at. -/
def attempt (x : Py α) : Py (Except Exn α) := fun stdin => (.ok (x stdin).1, (x stdin).2)

def ofExcept (x : Except Exn α) : Py α := fun stdin => (x, stdin)

/-- `stdin.read()`. -/
def read : Py Text := fun stdin => (.ok stdin, [])

theorem bind_eq_ok {x : Py α} {f : α → Py β} {s s'' : Text} {b : β} :
    (x >>= f) s = (.ok b, s'') ↔ ∃ a s', x s = (.ok a, s') ∧ f a s' = (.ok b, s'') := by
  show (match x s with
    | (.ok a, stdin) => f a stdin
    | (.error e, stdin) => (.error e, stdin)) = _ ↔ _
  constructor
  · intro h
    match hx : x s with
    | (.ok a, s') => rw [hx] at h; exact ⟨a, s', rfl, h⟩
    | (.error e, s') => rw [hx] at h; simp at h
  · rintro ⟨a, s', hx, hf⟩
    rw [hx]
    exact hf

theorem bind_ok {x : Py α} {f : α → Py β} {s s' : Text} {a : α} (h : x s = (.ok a, s')) :
    (x >>= f) s = f a s' := by
  show (match x s with
    | (.ok a, stdin) => f a stdin
    | (.error e, stdin) => (.error e, stdin)) = _
  rw [h]

theorem bind_error {x : Py α} {f : α → Py β} {s s' : Text} {e : Exn}
    (h : x s = (.error e, s')) : (x >>= f) s = (.error e, s') := by
  show (match x s with
    | (.ok a, stdin) => f a stdin
    | (.error e, stdin) => (.error e, stdin)) = _
  rw [h]

@[simp] theorem pure_eq_ok {a b : α} {s s' : Text} :
    (pure a : Py α) s = (.ok b, s') ↔ a = b ∧ s = s' := by
  show (Except.ok a, s) = (Except.ok b, s') ↔ _
  simp

@[simp] theorem raise_ne_ok {e : Exn} {b : α} {s s' : Text} :
    ¬(raise e : Py α) s = (.ok b, s') := by
  simp [raise]

theorem ofExcept_eq_ok {x : Except Exn α} {b : α} {s s' : Text} :
    ofExcept x s = (.ok b, s') ↔ x = .ok b ∧ s = s' := by
  simp [ofExcept]

theorem attempt_eq_ok {x : Py α} {res : Except Exn α} {s s' : Text} :
    x.attempt s = (.ok res, s') ↔ x s = (res, s') := by
  simp [attempt, Prod.ext_iff]

end Py

/-- `str.isspace`. -/
def isspace (c : Char) : Bool :=
  (0x09 ≤ c.toNat ∧ c.toNat ≤ 0x0D) ∨ (0x1C ≤ c.toNat ∧ c.toNat ≤ 0x20) ∨
    c.toNat ∈ [0x85, 0xA0, 0x1680, 0x2028, 0x2029, 0x202F, 0x205F, 0x3000] ∨
    (0x2000 ≤ c.toNat ∧ c.toNat ≤ 0x200A)

/-- The space that `int` skips: not the separators 0x1C to 0x1F. -/
def isIntSpace (c : Char) : Bool := isspace c && !(0x1C ≤ c.toNat && c.toNat ≤ 0x1F)

def strip (space : Char → Bool) (t : Text) : Text :=
  ((t.dropWhile space).reverse.dropWhile space).reverse

/-- `str.split` at the characters that satisfy `sep`; never empty. -/
def splitAt (sep : Char → Bool) : Text → List Text
  | [] => [[]]
  | c :: t =>
    if sep c then [] :: splitAt sep t
    else
      match splitAt sep t with
      | [] => [[c]]
      | u :: us => (c :: u) :: us

theorem splitAt_ne_nil (sep : Char → Bool) (t : Text) : splitAt sep t ≠ [] := by
  unfold splitAt
  split
  · simp
  · split
    · simp
    · split <;> simp

/-- The zeros of the decimal digits of Unicode; each run has ten digits. -/
def decimalZeros : List ℕ :=
  [0x30, 0x660, 0x6F0, 0x7C0, 0x966, 0x9E6, 0xA66, 0xAE6, 0xB66, 0xBE6, 0xC66, 0xCE6, 0xD66, 0xDE6,
    0xE50, 0xED0, 0xF20, 0x1040, 0x1090, 0x17E0, 0x1810, 0x1946, 0x19D0, 0x1A80, 0x1A90, 0x1B50,
    0x1BB0, 0x1C40, 0x1C50, 0xA620, 0xA8D0, 0xA900, 0xA9D0, 0xA9F0, 0xAA50, 0xABF0, 0xFF10,
    0x104A0, 0x10D30, 0x11066, 0x110F0, 0x11136, 0x111D0, 0x112F0, 0x11450, 0x114D0, 0x11650,
    0x116C0, 0x11730, 0x118E0, 0x11950, 0x11C50, 0x11D50, 0x11DA0, 0x16A60, 0x16AC0, 0x16B50,
    0x1D7CE, 0x1D7D8, 0x1D7E2, 0x1D7EC, 0x1D7F6, 0x1E140, 0x1E2F0, 0x1E950, 0x1FBF0]

/-- The value of a decimal digit. -/
def decimal (c : Char) : Option ℕ :=
  (decimalZeros.find? fun z => z ≤ c.toNat && c.toNat < z + 10).map (c.toNat - ·)

/-- The rest of a run of digits, in which single underscores may separate. -/
def digitRun (acc : ℕ) : Text → Option ℕ
  | [] => some acc
  | '_' :: c :: t => do
    let d ← decimal c
    digitRun (10 * acc + d) t
  | c :: t => do
    let d ← decimal c
    digitRun (10 * acc + d) t

def digits : Text → Option ℕ
  | [] => none
  | c :: t => do
    let d ← decimal c
    digitRun d t

/-- `int`; `none` is `ValueError`. -/
def int (t : Text) : Option ℤ :=
  match strip isIntSpace t with
  | '-' :: u => (digits u).map fun n => -(n : ℤ)
  | '+' :: u => (digits u).map fun n => (n : ℤ)
  | u => (digits u).map fun n => (n : ℤ)

/-! ## Section 2: Types -/

/-- The types that `parse_type` and `filtered_type` give. -/
inductive Typ where
  | string
  | integer
  | fraction
  | boolean
  | array
  /-- `dict` itself, of an existing dictionary. -/
  | dict
  /-- `NoneType`, of an existing null. -/
  | none_type
  deriving DecidableEq, Repr

def parse_type (word : Text) : Except Exn Typ :=
  if word = "string".toList then .ok .string
  else if word = "integer".toList then .ok .integer
  else if word = "fraction".toList then .ok .fraction
  else if word = "boolean".toList then .ok .boolean
  else if word = "array".toList then .ok .array
  else .error .exit

def filtered_type {F : Type} : Val F → Typ
  | .str _ => .string
  | .bool _ => .boolean
  | .list _ => .array
  | .int _ => .integer
  | .float _ => .fraction
  | .dict _ => .dict
  | .null => .none_type

/-- `str.lower`, as far as `true` and `false` are concerned: no other character
    has one of their letters as its lower case. -/
def lower (t : Text) : Text := t.map Char.toLower

inductive File where
  | missing
  | undecodable
  | text (t : Text)
  deriving DecidableEq, Repr

variable {F : Type} [FloatFormat F]

def stringorstdin (string : Text) : Py Text :=
  if string ≠ ['-'] then pure string else Py.read

/-- A type applied to a text, apart from `array`. -/
def Typ.scalar (typ : Typ) (t : Text) : Py (Val F) :=
  match typ with
  | .string => do
    let s ← stringorstdin t
    pure (.str (Str.ofText s))
  | .integer =>
    match int t with
    | some z => pure (.int z)
    | none => Py.raise .value_error
  | .fraction =>
    match FloatFormat.float t with
    | some x => pure (.float x)
    | none => Py.raise .value_error
  | .boolean =>
    if lower t = "true".toList ∨ t = ['1'] then pure (.bool true)
    else if lower t = "false".toList ∨ t = ['0'] then pure (.bool false)
    else Py.raise .value_error
  | .dict => if t = [] then pure (.dict []) else Py.raise .value_error
  | .none_type | .array => Py.raise .type_error

/-! ## Section 3: CSV -/

/-- `readlines`; a line keeps its line break. -/
def readlines : Text → List Text
  | [] => []
  | c :: t =>
    if c = '\n' then [c] :: readlines t
    else
      match readlines t with
      | [] => [[c]]
      | line :: lines => (c :: line) :: lines

def dontpackunstructured (_ignorekeys : List Text) (values : List (Val F)) : Py (Val F) :=
  match values with
  | [] => Py.raise .lookup_error
  | [v] => pure v
  | _ => Py.raise .exit

def actuallypackstructured (keys : List Text) (values : List (Val F)) : Py (Val F) :=
  pure (.dict (Dict.ofPairs ((keys.zip values).map fun p => (.str (Str.ofText p.1), p.2))))

/-- `[types[idx](x[idx]) for idx in range(len(x))]`. -/
def convertcells : List Typ → List Text → Py (List (Val F))
  | _, [] => pure []
  | [], _ :: _ => Py.raise .lookup_error
  | typ :: types, x :: xs => do
    let v ← typ.scalar x
    let vs ← convertcells types xs
    pure (v :: vs)

/-- The line as its cells. -/
def cells (line : Text) : List Text := splitAt (· = ',') (strip isspace line)

/-- One value for each of the lines. -/
def packlines (pack : List (Val F) → Py (Val F)) (types : List Typ) : List Text → Py (List (Val F))
  | [] => pure []
  | line :: lines => do
    let values ← convertcells types (cells line)
    let v ← pack values
    let vs ← packlines pack types lines
    pure (v :: vs)

/-- `list(map(parse_type, ..))`. -/
def parse_types : List Text → Py (List Typ)
  | [] => pure []
  | word :: words => do
    let typ ← Py.ofExcept (parse_type word)
    let types ← parse_types words
    pure (typ :: types)

/-- `lines[i]`. -/
def line (lines : List Text) (i : ℕ) : Py Text :=
  match lines[i]? with
  | some t => pure t
  | none => Py.raise .lookup_error

/-- The lines of the CSV file, or of standard input. -/
def csvlines (files : Text → File) (fname : Text) : Py (List Text) :=
  if fname ≠ ['-'] then
    match files fname with
    | .missing => Py.raise .exit
    | .undecodable => Py.raise .value_error
    | .text t => pure (readlines t)
  else do
    let t ← Py.read
    pure (readlines t)

def arrayfromcsv (files : Text → File) (fname : Text) : Py (List (Val F)) := do
  let lines ← csvlines files fname
  let first ← line lines 0
  let unstructured := strip isspace first = "unstructured".toList
  let lines := if unstructured then lines.drop 1 else lines
  let firstvalueline := if unstructured then 1 else 2
  let header ← line lines 0
  let types ← parse_types (cells header)
  if .array ∈ types then Py.raise .exit
  else do
    let keys ← line lines 1
    let pack := if unstructured then dontpackunstructured (cells keys)
      else actuallypackstructured (cells keys)
    packlines pack types (lines.drop firstvalueline)

/-- A type applied to a text. -/
def Typ.call (files : Text → File) (typ : Typ) (t : Text) : Py (Val F) :=
  match typ with
  | .array => do
    let xs ← arrayfromcsv files t
    pure (.list xs)
  | typ => typ.scalar t

end Jaguar
