import Catbench.Framework.Json.Repr
import Catbench.Framework.Shell
import Catbench.Framework.TextLines
import Catbench.Jaguar.Model

/-! # `arrcsv`

    Prints an array of records of a JSON file as a table.  The script works on
    what `jaguar get` prints: it takes off the brackets, breaks the text after
    every comma, finds the first brace that opens and the first that closes to
    know how many lines make a record, takes the last text between quotes of
    each of these lines for the header, and the last word of every line for the
    values.

    The text that `echo` prints for a backslash or for an option differs from
    shell to shell, so it is a parameter (`Echo`).  `echo -n ,` prints a comma and
    nothing else.
-/

open Json Shell TextLines
open Jaguar (Text File)

namespace ArrCsv

/-! ## Section 1: Tools -/

/-- What a shell may take for options of `echo`. -/
def isOption : Text → Bool
  | '-' :: c :: t => (c :: t).all (· ∈ ['n', 'e', 'E'])
  | _ => false

/-- `echo` with one operand. -/
structure Echo where
  print : Text → Text
  print_text : ∀ t, '\\' ∉ t → isOption t = false → print t = t ++ ['\n']

/-- `s/\[\(.*\)\]/\1/`: from the first bracket to the last one that closes. -/
def unbracket (line : Text) : Text :=
  match line.dropWhile (· ≠ '[') with
  | '[' :: t =>
    if ']' ∈ t then line.takeWhile (· ≠ '[') ++ (t.reverse.erase ']').reverse else line
  | _ => line

/-- `s/, /\n/g`. -/
def breakCommas : Text → Text
  | ',' :: ' ' :: t => '\n' :: breakCommas t
  | c :: t => c :: breakCommas t
  | [] => []

/-- `s/.*'\([^']\+\)'.*/\1/`: the last text between two quotes that is not empty. -/
def quoted (line : Text) : Text :=
  match (line.splitOn '\'').tail.dropLast.reverse.find? (· ≠ []) with
  | some t => t
  | none => line

/-- `rev | cut -d<c> -f1 | rev`. -/
def lastField (c : Char) (line : Text) : Text := (line.reverse.takeWhile (· ≠ c)).reverse

/-- The number of the first line with the character. -/
def linenum (c : Char) (t : Text) : Option ℕ := ((lines t).findIdx? (c ∈ ·)).map (· + 1)

/-- `head -n`: a negative number leaves so many lines off. -/
def head (n : ℤ) (ls : List Text) : List Text :=
  if 0 ≤ n then ls.take n.toNat else ls.take (ls.length - n.natAbs)

/-! ## Section 2: The script -/

section script
variable {F : Type} [FloatFormat F] (printable : Char → Bool) (echo : Echo)

/-- `print(v)`: a string is printed as it is, if it can be encoded. -/
def print : Val F → Text
  | .str s =>
    match s.points.mapM CodePoint.toChar? with
    | some t => t ++ ['\n']
    | none => []
  | v => valRepr printable v ++ ['\n']

/-- `jaguar get`. -/
def jaguar_get (files : Text → File) (jagfile array : Text) : Text :=
  match (Jaguar.main (F := F) files [] ["get".toList, jagfile, array]).printed with
  | some v => print printable v
  | none => []

/-- `stride` commas, the last one replaced by a line break. -/
def delims (stride : ℤ) : List Char :=
  if 0 < stride then List.replicate (stride.toNat - 1) ',' ++ ['\n'] else []

/-- The lines of the text that `echo "$t"` prints. -/
def echoed (t : Text) : List Text := lines (echo.print t)

/-- The end of the script, from what `jaguar` printed. -/
def table (array got : Text) : Text × Text :=
  let res := command_substitution (sed (breakCommas ∘ unbracket) got)
  match linenum '{' (echo.print res), linenum '}' (echo.print res) with
  | some opened, some closed =>
    let stride : ℤ := closed - opened + 1
    let header := command_substitution (paste [','] ((head stride (echoed echo res)).map quoted))
    let res := command_substitution (paste (delims stride)
      ((echoed echo res).map fun l => lastField ' ' (l.erase '}')))
    (header, res)
  | _, _ => (command_substitution (join ((echoed echo array).map (lastField '.')) []), res)

variable (F) in
/-- What the script prints. -/
def arrcsv (files : Text → File) (prnhdr : Bool) (jagfile array : Text) : Text :=
  let (header, res) := table echo array (jaguar_get (F := F) printable files jagfile array)
  (if prnhdr then echo.print header else []) ++ echo.print res

end script

end ArrCsv
