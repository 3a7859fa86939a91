import Catbench.Framework.Getopt
import Catbench.Framework.Shell
import Catbench.Framework.TextLines
import Catbench.Jaguar.Convert

/-! # The command line of `square_evictions`

    The command line is read twice: by the loop around `getopt` in
    `square_evictions`, and by the loop of `square_evictions_csv`, which records
    the options next to the data.  The wrapper gives both the same arguments.

    POSIX leaves it to the shell whether it exits when `shift` has no argument
    to drop; dash does.  The recorded numbers are converted by `jaguar`, as the
    type `integer` has it.
-/

open Getopt

namespace SquareEvictionsOptions

/-! ## Section 1: `square_evictions` -/

def optstring : Text := "n:p:c:e:hr::qf:swvl:j:ma:b:ui".toList

/-- `isspace` of C. -/
def isspace (c : Char) : Bool := c = ' ' || (0x09 ≤ c.toNat && c.toNat ≤ 0x0D)

/-- The number that a text begins with. -/
def leading_number (t : Text) : Option ℤ :=
  let digits := t.takeWhile Char.isDigit
  if digits = [] then none else some (Nat.ofDigitChars 10 digits 0 : ℤ)

/-- The bounds of a `long`, and then the low bits of an `int`. -/
def to_int (z : ℤ) : ℤ := Int.bmod (max (-2 ^ 63) (min (2 ^ 63 - 1) z)) (2 ^ 32)

/-- `sscanf(text, "%d", ..)`; what follows the number does not matter. -/
def sscanf_d (text : Text) : Option ℤ :=
  match text.dropWhile isspace with
  | '-' :: t => (leading_number t).map fun n => to_int (-n)
  | '+' :: t => (leading_number t).map to_int
  | t => (leading_number t).map to_int

def parse_arg_arg (optarg : Text) : Option ℤ := (sscanf_d optarg).filter fun val => 0 ≤ val

/-- The options with a number that is recorded. -/
def numbered : List Char := ['n', 'p', 'c', 'e', 'j', 'a', 'b']

/-- The variables of `main` that the loop sets, by the letters of their options. -/
structure Settings where
  switches : List Char
  number : Char → Option ℤ

def Settings.set (s : Settings) (flag : Char) (val : ℤ) : Settings :=
  { s with number := fun o => if o = flag then some val else s.number o }

def Settings.switch (s : Settings) (flag : Char) : Settings :=
  { s with switches := s.switches ++ [flag] }

/-- One turn of the loop; `none` when it leaves with an error.  `fopen` tells
    whether a log file can be opened. -/
def each_arg (fopen : Text → Bool) (s : Settings) (r : Report) : Option Settings :=
  match r.optarg.text with
  | none => some (s.switch r.flag)
  | some optarg =>
    if r.flag = 'f' then some (s.switch 'f')
    else if r.flag = 'l' then if fopen optarg then some (s.switch 'l') else none
    else
      match parse_arg_arg optarg with
      | none => none
      | some val =>
        if r.flag = 'r' then some ((s.switch 'r').set 'r' val)
        else if r.flag = 'j' ∧ val ≤ 0 then none
        else some (s.set r.flag val)

/-- The loop, from what `getopt` reports. -/
def settings (fopen : Text → Bool) (rs : List Report) : Option Settings :=
  rs.foldlM (each_arg fopen) ⟨[], fun _ => none⟩

/-! ## Section 2: `square_evictions_csv` -/

/-- How the script ends before its last line. -/
inductive Stop where
  /-- `exit 1`, after the message about the switch. -/
  | unexpected (switch : Text)
  | cannot_shift
  /-- A value that `jaguar` cannot convert. -/
  | not_integer
  /-- The script is still running: there is no more fuel. -/
  | running
  deriving DecidableEq, Repr

/-- The arguments that are left, the switches whose variables are `"true"`, and
    the rows of the header, to which a value may be missing. -/
structure State where
  args : List Text
  seen : List Char
  header : List (Char × Option Text)
  deriving DecidableEq, Repr

/-- `s/..\(.*\)/\1/` of a line. -/
def drop_two (line : Text) : Text := if 2 ≤ line.length then line.drop 2 else line

/-- The variable `suffix`, through `sed` and a command substitution. -/
def suffix (switch : Text) : Text :=
  Shell.command_substitution (TextLines.join ((TextLines.ended switch).map drop_two)
    (drop_two (TextLines.rest switch)))

/-- The switches with nothing but their variable. -/
def plain : List Char := ['h', 'q', 's', 'w', 'v', 'm', 'i']

/-- The switches that drop the next argument, unless it begins with a dash. -/
def skipping : List Char := ['r', 'f', 'l']

/-- `[a-z]*`. -/
def starts_lower (t : Text) : Bool := t.head?.any fun c => 'a' ≤ c && c ≤ 'z'

section script
variable (shift_exits : Bool)

def shift (s : State) : Except Stop State :=
  match s.args with
  | [] => if shift_exits then .error .cannot_shift else .ok s
  | _ :: args => .ok { s with args := args }

/-- `case "$1" in -*) ;; *) shift ;; esac`. -/
def drop_next (s : State) : Except Stop State :=
  match s.args with
  | ('-' :: _) :: _ => .ok s
  | _ => shift shift_exits s

/-- What follows the `case`: the rest of the word is taken for more switches, or
    for the value of the row that was begun. -/
def after_switch (switch : Text) (row : Option Char) (s : State) : Except Stop State :=
  if starts_lower (suffix switch) then
    .ok { s with
      args := ('-' :: suffix switch) :: s.args
      header := s.header ++ (row.map (·, none)).toList }
  else
    match row with
    | none => .ok s
    | some flag =>
      if suffix switch ≠ [] then .ok { s with header := s.header ++ [(flag, some (suffix switch))] }
      else shift shift_exits { s with header := s.header ++ [(flag, some (s.args.headD []))] }

/-- One turn of the loop, after `shift` has taken the switch. -/
def csv_step (switch : Text) (s : State) : Except Stop State :=
  match switch with
  | '-' :: flag :: _ =>
    if flag ∈ numbered then after_switch shift_exits switch (some flag) s
    else if flag ∈ plain then
      after_switch shift_exits switch none { s with seen := s.seen ++ [flag] }
    else if flag ∈ skipping then drop_next shift_exits { s with seen := s.seen ++ [flag] }
    else .error (.unexpected switch)
  | _ => .error (.unexpected switch)

def csv_loop : ℕ → State → Except Stop State
  | 0, _ => .error .running
  | fuel + 1, s =>
    match s.args with
    | [] => .ok s
    | switch :: args =>
      match csv_step shift_exits switch { s with args := args } with
      | .ok s => csv_loop fuel s
      | .error e => .error e

/-- The rows as they are stored.  A value with a comma makes its row longer than
    the list of types, and is refused like one that is no integer. -/
def stored : List (Char × Option Text) → Option (List (Char × Option ℤ))
  | [] => some []
  | (flag, none) :: rows => (stored rows).map ((flag, none) :: ·)
  | (flag, some value) :: rows => do
    let z ← Jaguar.int value
    (stored rows).map ((flag, some z) :: ·)

/-- What is recorded of some arguments: the switches seen, and the rows. -/
def square_evictions_csv (fuel : ℕ) (args : List Text) :
    Except Stop (List Char × List (Char × Option ℤ)) :=
  match csv_loop shift_exits fuel ⟨args, [], []⟩ with
  | .error e => .error e
  | .ok s =>
    match stored s.header with
    | none => .error .not_integer
    | some rows => .ok (s.seen, rows)

end script

end SquareEvictionsOptions
