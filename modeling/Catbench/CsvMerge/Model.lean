import Catbench.Jaguar.Convert

/-! # `csvmerge`

    The script that joins CSV files by the integers in their first columns.  It
    prints the header of the first file once for each file, and then merges the
    rows, with one line of lookahead for each file.

    The delimiter is a single character.  Files are given as the text layer
    delivers them: decoded, and with line ends translated.  `None` is the
    lookahead of a file that is read to its end, and has an infinite key.
-/

open Json (intText)
open Jaguar (Text isspace strip splitAt int readlines)

namespace CsvMerge

/-! ## Section 1: Python -/

/-- How the script ends before its last line. -/
inductive Stop where
  | value_error
  | type_error
  | stop_iteration
  /-- `exit(1)`. -/
  | exit
  /-- The `return` after the message about the headers. -/
  | returned
  /-- The script is still running: there is no more fuel. -/
  | running
  deriving DecidableEq, Repr

/-- A computation with what it has printed. -/
def Out (α : Type) : Type := Except Stop α × Text

namespace Out

variable {α β : Type}

def ofExcept (x : Except Stop α) : Out α := (x, [])

def stop (e : Stop) : Out α := (.error e, [])

def print (t : Text) : Out Unit := (.ok (), t)

instance : Monad Out where
  pure a := (.ok a, [])
  bind x f :=
    match x.1 with
    | .ok a => ((f a).1, x.2 ++ (f a).2)
    | .error e => (.error e, x.2)

/-- What follows a computation that succeeds prints after it. -/
theorem bind_ok {x : Out α} {f : α → Out β} {a : α} {b : β} {t u : Text}
    (hx : x = (.ok a, t)) (hf : f a = (.ok b, u)) : x >>= f = ((.ok b, t ++ u) : Out β) := by
  subst hx
  show ((f a).1, t ++ (f a).2) = _
  rw [hf]

theorem bind_run {x : Out α} {f : α → Out β} {a : α} {t : Text} (hx : x = (.ok a, t)) :
    x >>= f = (((f a).1, t ++ (f a).2) : Out β) := by
  subst hx
  rfl

theorem bind_error {x : Out α} {f : α → Out β} {e : Stop} {t : Text} (hx : x = (.error e, t)) :
    x >>= f = ((.error e, t) : Out β) := by
  subst hx
  rfl

/-- A computation that succeeds has succeeded in both its parts. -/
theorem of_bind_ok {x : Out α} {f : α → Out β} {b : β} {t : Text}
    (h : x >>= f = ((.ok b, t) : Out β)) :
    ∃ a u v, x = (.ok a, u) ∧ f a = (.ok b, v) ∧ t = u ++ v := by
  replace h : (match x.1 with
    | .ok a => ((f a).1, x.2 ++ (f a).2)
    | .error e => (.error e, x.2)) = ((.ok b, t) : Except Stop β × Text) := h
  cases hx : x.1 with
  | error e =>
    rw [hx] at h
    simp at h
  | ok a =>
    rw [hx, Prod.mk.injEq] at h
    exact ⟨a, x.2, (f a).2, Prod.ext hx rfl, Prod.ext h.1 rfl, h.2.symm⟩

end Out

/-! ## Section 2: Columns -/

/-- What `firstcol` gives: an integer, or `float('inf')`. -/
inductive Key where
  | int (z : ℤ)
  | inf
  deriving DecidableEq, Repr

/-- `<`, between an integer and an infinite float as well. -/
def Key.lt : Key → Key → Bool
  | .int a, .int b => decide (a < b)
  | .int _, .inf => true
  | .inf, _ => false

/-- `firstcol`; the key of `None` is infinite. -/
def firstcol (delim : Char) : Option Text → Except Stop Key
  | none => .ok .inf
  | some string =>
    match int ((splitAt (· = delim) string).headD []) with
    | some z => .ok (.int z)
    | none => .error .value_error

/-- `restcols`; `none` is the number 0 that it has for `None`. -/
def restcols (delim : Char) : Option Text → Except Stop (Option Text)
  | none => .ok none
  | some string =>
    if delim ∈ string then
      .ok (some (strip isspace (string.drop (string.idxOf delim + 1))))
    else .error .value_error

/-- `delim + restcols(..)`: a number cannot be appended to a string. -/
def append_cols (delim : Char) : Option Text → Except Stop Text
  | none => .error .type_error
  | some cols => .ok (delim :: cols)

/-! ## Section 3: Headers -/

/-- `next(fd)`. -/
def next : List Text → Out (Text × List Text)
  | [] => Out.stop .stop_iteration
  | line :: fd => pure (line, fd)

/-- The columns of the header once more for each of the other files. -/
def header_columns (delim : Char) (curheader : Text) : ℕ → Out Unit
  | 0 => pure ()
  | time + 1 => do
    Out.print [delim]
    let cols ← Out.ofExcept (restcols delim (some curheader))
    Out.print (cols.getD ['0'])
    header_columns delim curheader time

/-- The loop over the headers. -/
def headers (delim : Char) (numfiles : ℕ) :
    Option ℕ → List (List Text) → Out (Option ℕ × List (List Text))
  | numdelims, [] => pure (numdelims, [])
  | none, fd :: fds => do
    let (curheader, fd) ← next fd
    Out.print (strip isspace curheader)
    header_columns delim curheader (numfiles - 1)
    Out.print ['\n']
    let (numdelims, fds) ← headers delim numfiles (some (curheader.count delim)) fds
    pure (numdelims, fd :: fds)
  | some numdelims, fd :: fds => do
    let (curheader, fd) ← next fd
    if curheader.count delim ≠ numdelims then do
      Out.print "Error: CSVs have different numbers of columns or delimiters\n".toList
      Out.stop .returned
    else do
      let (numdelims, fds) ← headers delim numfiles (some numdelims) fds
      pure (numdelims, fd :: fds)

/-! ## Section 4: Rows -/

/-- A file with its line of lookahead. -/
structure Reader where
  nextel : Option Text
  fd : List Text
  deriving DecidableEq, Repr

/-- `next(fd, None)`. -/
def Reader.advance (r : Reader) : Reader :=
  match r.fd with
  | [] => ⟨none, []⟩
  | line :: fd => ⟨some line, fd⟩

/-- `[next(fd) for fd in fds]`. -/
def lookaheads : List (List Text) → Out (List Reader)
  | [] => pure []
  | fd :: fds => do
    let (line, fd) ← next fd
    let rs ← lookaheads fds
    pure (⟨some line, fd⟩ :: rs)

/-- The lines with their keys. -/
def keyed (delim : Char) : List (Option Text) → Except Stop (List (Option Text × Key))
  | [] => .ok []
  | x :: xs => do
    let k ← firstcol delim x
    let kxs ← keyed delim xs
    .ok ((x, k) :: kxs)

/-- `min`: a later line replaces an earlier one if its key is less. -/
def least_line (best : Option Text × Key) (kxs : List (Option Text × Key)) : Option Text × Key :=
  kxs.foldl (fun best p => if p.2.lt best.2 then p else best) best

/-- `min(nextel, key = ..)`; there is no least line of none. -/
def minimum (delim : Char) (nextel : List (Option Text)) : Except Stop (Option Text) := do
  let kxs ← keyed delim nextel
  match kxs with
  | [] => .error .value_error
  | p :: kxs => .ok (least_line p kxs).1

/-- The loop over the files in one round. -/
def blocks (delim : Char) (placeholder : Text) (maxel : Key) :
    List Reader → Except Stop (Text × List Reader)
  | [] => .ok ([], [])
  | r :: rs => do
    let k ← firstcol delim r.nextel
    if k = maxel then do
      let cols ← restcols delim r.nextel
      let block ← append_cols delim cols
      let (res, rs) ← blocks delim placeholder maxel rs
      .ok (block ++ res, r.advance :: rs)
    else do
      let (res, rs) ← blocks delim placeholder maxel rs
      .ok (placeholder ++ res, r :: rs)

/-- `str(maxel)`. -/
def str : Key → Text
  | .int z => intText z
  | .inf => "inf".toList

/-- One round of the merge: the row, and the files after it. -/
def round (delim : Char) (placeholder : Text) (rs : List Reader) :
    Except Stop (Text × List Reader) := do
  let least ← minimum delim (rs.map (·.nextel))
  let maxel ← firstcol delim least
  let (res, rs) ← blocks delim placeholder maxel rs
  .ok (str maxel ++ res, rs)

/-- The merge loop. -/
def merge (delim : Char) (placeholder : Text) : ℕ → List Reader → Out Unit
  | 0, _ => Out.stop .running
  | fuel + 1, rs =>
    if (rs.map (·.nextel)).count none = rs.length then pure ()
    else do
      let (res, rs) ← Out.ofExcept (round delim placeholder rs)
      Out.print (res ++ ['\n'])
      merge delim placeholder fuel rs

def main (fuel : ℕ) (argv0 : Text) (delim : Char) (files : List Text) : Out Unit :=
  if files = [] then do
    Out.print ("USAGE: ".toList ++ argv0 ++ " <delimiter> <files>...\n".toList)
    Out.stop .exit
  else do
    let fds := files.map readlines
    let (numdelims, fds) ← headers delim files.length none fds
    match numdelims with
    | none => Out.stop .type_error
    | some numdelims => do
      let placeholder := List.replicate numdelims delim
      let rs ← lookaheads fds
      merge delim placeholder fuel rs

end CsvMerge
