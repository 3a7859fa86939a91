import Catbench.Jaguar.Convert

/-! # `jaguar`

    Gets, sets and removes elements of a JSON file by a path such as
    `a.b[0].c`.  `pathlookup` walks the document along the path; to set, it
    replaces, appends, and creates intermediate arrays and objects, much of it
    from exception handlers.

    The source mutates the document in place.  Here the walk returns the
    container it was given with the change made in it; the exception handlers
    see the container as it is when the exception is raised.
-/

open Json

namespace Jaguar

variable {F : Type}

/-! ## Section 1: Paths -/

/-- `split('\.|\[', pretty)`. -/
def subscriptsfrompath (pretty : Text) : List Text := splitAt (fun c => c = '.' || c = '[') pretty

/-- Digits up to a closing bracket. -/
def digitsbeforebracket (t : Text) : Option Text :=
  match t.dropWhile fun c => (decimal c).isSome with
  | ']' :: _ => some (t.takeWhile fun c => (decimal c).isSome)
  | _ => none

/-- The match of `(-?\d*)]` at the start of a token: the group. -/
def bracketterminated : Text → Option Text
  | '-' :: t => (digitsbeforebracket t).map ('-' :: ·)
  | t => digitsbeforebracket t

/-- An integer subscript, or a string subscript; an empty index raises
    `ValueError`. -/
def indexfromsubscript (token : Text) : Except Exn Key :=
  match bracketterminated token with
  -- `match` only anchors at the start: a bracket further on makes a string.
  | none => .ok (.str (Str.ofText token))
  | some group =>
    match int group with
    | some i => .ok (.int i)
    | none => .error .value_error

/-! ## Section 2: Containers -/

/-- The position of an index in a sequence, counted from its end if negative. -/
def position (length : ℕ) (i : ℤ) : Option ℕ :=
  if 0 ≤ i ∧ i < length then some i.toNat
  else if -(length : ℤ) ≤ i ∧ i < 0 then some (i + length).toNat
  else none

/-- `ref[subscript]`. -/
def getitem : Val F → Key → Except Exn (Val F)
  | .dict d, k =>
    match d.lookup k with
    | some v => .ok v
    | none => .error .lookup_error
  | .list xs, .int i =>
    match (position xs.length i).bind (xs[·]?) with
    | some v => .ok v
    | none => .error .lookup_error
  | .str s, .int i =>
    match (position s.points.length i).bind (s.points[·]?) with
    | some c => .ok (.str ⟨[c], List.isChain_singleton c⟩)
    | none => .error .lookup_error
  | _, _ => .error .type_error

/-- `ref[subscript] = elem`. -/
def setitem : Val F → Key → Val F → Except Exn (Val F)
  | .dict d, k, v => .ok (.dict (Dict.insert k v d))
  | .list xs, .int i, v =>
    match position xs.length i with
    | some n => .ok (.list (xs.set n v))
    | none => .error .lookup_error
  | _, _, _ => .error .type_error

/-- `del container[subscript]`. -/
def delitem : Val F → Key → Except Exn (Val F)
  | .dict d, k => if k ∈ Dict.keys d then .ok (.dict (Dict.erase k d)) else .error .lookup_error
  | .list xs, .int i =>
    match position xs.length i with
    | some n => .ok (.list (xs.eraseIdx n))
    | none => .error .lookup_error
  | _, _ => .error .type_error

def elementassignormaybeappend (cont : Val F) (spot : Key) (elem : Val F) :
    Except Exn (Val F) :=
  match cont, spot with
  | .list xs, .int i =>
    match setitem (.list xs) (.int i) elem with
    -- `IndexError` is the only exception that is caught.
    | .error .lookup_error =>
      if (xs.length : ℤ) < i then .error .exit
      -- `cont[spot:spot] = [elem]`: at the end, or before the first element.
      else if i < 0 then .ok (.list (elem :: xs))
      else .ok (.list (xs ++ [elem]))
    | res => res
  | cont, spot => setitem cont spot elem

def is_list : Val F → Bool
  | .list _ => true
  | _ => false

def is_dict : Val F → Bool
  | .dict _ => true
  | _ => false

/-- The subscript suits the kind of the parent; at the first level the parent is
    an empty dictionary. -/
def suits (first : Bool) (ref : Val F) : Key → Bool
  | .int _ => !first && is_list ref
  | .str _ => first || is_dict ref

/-! ## Section 3: `pathlookup` -/

/-- `pathlookup` without a replacement: every exception ends the program. -/
def lookup_levels (ref : Val F) : List Text → Except Exn (Val F)
  | [] => .ok ref
  | level :: levels =>
    match indexfromsubscript level with
    | .error _ => .error .exit
    | .ok subscript =>
      match getitem ref subscript with
      | .error _ => .error .exit
      | .ok v => lookup_levels v levels

section replace

variable [FloatFormat F] (files : Text → File) (replace : Text)

/-- The handler of `LookupError` at the last level: convert once more, and
    assign. -/
def add_entry (first : Bool) (typ : Option Typ) (ref : Val F) (subscript : Key) : Py (Val F) :=
  if !suits first ref subscript then Py.raise .exit
  else
    match typ with
    | none => Py.raise .exit
    | some typ => do
      match ← (typ.call files replace).attempt with
      | .error .value_error => Py.raise .exit
      -- Other exceptions leave the handler, and nothing catches them.
      | .error e => Py.raise e
      | .ok v =>
        let ref ← Py.ofExcept (setitem ref subscript v)
        let _ ← Py.ofExcept (getitem ref subscript)
        pure ref

/-- Convert, assign, and look the element up again. -/
def convert_last (first : Bool) (typ : Typ) (ref : Val F) (subscript : Key) : Py (Val F) := do
  match ← (typ.call files replace).attempt with
  | .error .lookup_error => add_entry files replace first (some typ) ref subscript
  | .error _ => Py.raise .exit
  | .ok v =>
    match elementassignormaybeappend ref subscript v with
    | .error .lookup_error => add_entry files replace first (some typ) ref subscript
    | .error _ => Py.raise .exit
    -- From here on the handler sees the list after an insertion.
    | .ok ref =>
      match getitem ref subscript with
      | .ok _ => pure ref
      | .error .lookup_error => add_entry files replace first (some typ) ref subscript
      | .error _ => Py.raise .exit

/-- The last level, with the type inferred if none was given. -/
def assign_last (first : Bool) (typ : Option Typ) (ref : Val F) (subscript : Key) : Py (Val F) :=
  let inferred : Except Exn Typ :=
    match typ with
    | some typ => .ok typ
    | none => (getitem ref subscript).map filtered_type
  match inferred with
  | .error .lookup_error => add_entry files replace first none ref subscript
  | .error _ => Py.raise .exit
  | .ok typ => convert_last files replace first typ ref subscript

/-- The append token at the last level. -/
def append_last (ref : Val F) : Py (Val F) :=
  match ref with
  | .list xs => do
    match ← (arrayfromcsv files replace : Py (List (Val F))).attempt with
    | .ok ys => pure (.list (xs ++ ys))
    | .error .value_error => Py.raise .exit
    | .error e => Py.raise e
  -- `len(ref)` of a value that has no length
  | .null | .bool _ | .int _ | .float _ => Py.raise .type_error
  | .str _ | .dict _ => Py.raise .exit

/-- The handler of `LookupError` before the last level: create the container
    that the next token calls for. -/
def add_container (first : Bool) (typ : Option Typ) (ref : Val F) (subscript : Key)
    (next : Text) : Except Exn (Val F) :=
  if !suits first ref subscript then .error .exit
  else if typ = none then .error .exit
  else
    match indexfromsubscript next with
    | .error _ => .error .exit
    | .ok (.int _) => elementassignormaybeappend ref subscript (.list [])
    | .ok (.str _) => elementassignormaybeappend ref subscript (.dict [])

/-- A level before the last: `ref` with a container at the subscript.  A scalar
    there is replaced like a missing element. -/
def ensure_container (first : Bool) (typ : Option Typ) (ref : Val F) (subscript : Key)
    (next : Text) : Except Exn (Val F) :=
  match getitem ref subscript with
  | .error .type_error => .error .exit
  | .error _ => add_container first typ ref subscript next
  | .ok v =>
    if is_list v || is_dict v then .ok ref else add_container first typ ref subscript next

/-- `pathlookup` with a replacement: `ref` with the change made in it. -/
def replace_levels (first : Bool) (typ : Option Typ) (ref : Val F) : List Text → Py (Val F)
  | [] => pure ref
  | [level] =>
    match indexfromsubscript level with
    | .ok subscript => assign_last files replace first typ ref subscript
    | .error _ =>
      -- The type word plays no part in the append form.
      if level = [']'] then append_last files replace ref else Py.raise .exit
  | level :: next :: levels =>
    match indexfromsubscript level with
    | .error _ => Py.raise .exit
    | .ok subscript => do
      let ref ← Py.ofExcept (ensure_container first typ ref subscript next)
      let inner ← Py.ofExcept (getitem ref subscript)
      let inner ← replace_levels false typ inner (next :: levels)
      Py.ofExcept (setitem ref subscript inner)

end replace

/-! ## Section 4: Commands -/

/-- `get`, up to the value that it prints. -/
def get (parsed : Val F) (path : Text) : Except Exn (Val F) :=
  lookup_levels parsed (subscriptsfrompath path)

section commands

variable [FloatFormat F] (files : Text → File)

/-- `set`, by the number of its arguments. -/
def set (parsed : Val F) : List Text → Py (Val F)
  | [key, val] => replace_levels files val true none parsed (subscriptsfrompath key)
  | [key, word, val] => do
    let typ ← Py.ofExcept (parse_type word)
    replace_levels files val true (some typ) parsed (subscriptsfrompath key)
  | _ => Py.raise .exit

/-- `ref` with the element at the end of the path removed. -/
def delete_levels (ref : Val F) : List Text → Except Exn (Val F)
  | [] => .ok ref
  | [level] =>
    match indexfromsubscript level with
    | .error _ => .error .exit
    | .ok subscript => delitem ref subscript
  | level :: next :: levels =>
    match indexfromsubscript level with
    | .error _ => .error .exit
    | .ok subscript =>
      match getitem ref subscript with
      | .error _ => .error .exit
      | .ok v => do
        let v ← delete_levels v (next :: levels)
        setitem ref subscript v

def rem (parsed : Val F) (path : Text) : Except Exn (Val F) :=
  delete_levels parsed (subscriptsfrompath path)

/-- How a run of the program ends. -/
structure Outcome (F : Type) where
  /-- False after `exit(1)` and after an uncaught exception. -/
  success : Bool
  files : Text → File
  /-- What `get` hands to `print`. -/
  printed : Option (Val F)

def Outcome.fail (files : Text → File) : Outcome F := { success := false, files, printed := none }

/-- `load`, or the end of the program. -/
def read_document (file : File) : Option (Val F) :=
  match file with
  | .missing | .undecodable => none
  | .text t => load t

/-- Open the file for writing, `dump` the document into it, and end the line. -/
def write_document (fname : Text) (save : Val F) : Outcome F :=
  let out := dump save
  let text := if out.done then out.text ++ ['\n'] else out.text
  { success := out.done, files := Function.update files fname (.text text), printed := none }

/-- The end of `get`: an exception ends the program, else the value is printed. -/
def print_result (result : Except Exn (Val F)) : Outcome F :=
  match result with
  | .ok v => { success := true, files, printed := some v }
  | .error _ => .fail files

/-- The end of a command that writes. -/
def save_result (fname : Text) (result : Except Exn (Val F)) : Outcome F :=
  match result with
  | .ok save => write_document files fname save
  | .error _ => .fail files

/-- The actions, with the numbers of arguments they take. -/
inductive Action where
  | get
  | init
  | rem
  | set
  | usage
  deriving DecidableEq

def action (name : Text) : Action :=
  if name = "get".toList then .get
  else if name = "init".toList then .init
  else if name = "rem".toList then .rem
  else if name = "set".toList then .set
  else .usage

def Action.minargs : Action → ℕ
  | .get | .rem => 1
  | .set => 2
  | .init | .usage => 0

def Action.maxargs : Action → ℕ
  | .get | .rem => 1
  | .set => 3
  | .init | .usage => 0

/-- `main`, on the arguments after the program's name. -/
def main (stdin : Text) : List Text → Outcome F
  | name :: fname :: args =>
    let act := action name
    if act = .usage ∨ args.length < act.minargs ∨ act.maxargs < args.length then .fail files
    else
      match act, read_document (files fname), args with
      | .init, _, _ => write_document files fname (.dict [])
      | .get, some parsed, [path] => print_result files (get parsed path)
      | .rem, some parsed, [path] => save_result files fname (rem parsed path)
      | .set, some parsed, args => save_result files fname (set files parsed args stdin).1
      | _, _, _ => .fail files
  | _ => .fail files

end commands

end Jaguar
