import Catbench.Framework.Chunks
import Catbench.Jaguar.Csv
import Catbench.Jaguar.Index
import Catbench.Jaguar.PathGrammar
import Mathlib.Data.List.DropRight
import Mathlib.Tactic.Ring

/-! # Samples of a log (`network_rawnums`)

    The script takes the samples of all trials out of an experiment log as one
    list, and cuts that list into pieces of equal length, one for each trial.
    The length is the number of lines between the last two trial delimiters.

    A shell variable with lines is the list of its lines, without the empty
    ones that a command substitution drops at the end.  The run is one without
    overhead series.  `infile` is what `jaguar get` prints for the independent
    variable of a series at an index.
-/

open Json (FloatFormat Val Key Str Whole)
open Jaguar (Text)

namespace NetworkRawnums

/-! ## Section 1: The log -/

/-- The number in a line with a sample. -/
structure Sample where
  digits : Text
  digits_ne_nil : digits ≠ []
  isDigit : Decimal.Digits digits

/-- The lines of a log that match one of the regular expressions. -/
inductive Event where
  | delimiter
  | client (s : Sample)
  | server (s : Sample)

/-- The lines that `puts "$var"` prints. -/
def puts (var : List Text) : List Text := if var = [] then [[]] else var

/-- `head -n`: a negative number leaves out lines at the end. -/
def head (n : ℤ) (printed : List Text) : List Text :=
  if 0 ≤ n then printed.take n.toNat else printed.take (printed.length - n.natAbs)

/-- `tail -n +k`. -/
def tail (k : ℤ) (printed : List Text) : List Text := printed.drop (k - 1).toNat

/-! ## Section 3: `network_rawnums` -/

def independent : Text := "table_entries".toList

def dependent : Text := "round_trip_time".toList

variable {F : Type} [FloatFormat F]

/-- The members of `data.<series>.samples[<index>]` in the output file. -/
abbrev Data (F : Type) := Text → ℕ → Option (List (Key × Val F))

structure State (F : Type) where
  log_client : List Text
  data : Data F

/-- The key of a member. -/
def member (name : Text) : Key := .str (Str.ofText name)

/-- Put a record at a place of the output file. -/
def Data.set (data : Data F) (seriesname : Text) (entryindex : ℕ) (record : List (Key × Val F)) :
    Data F :=
  fun name i => if name = seriesname ∧ i = entryindex then some record else data name i

section copy
variable (files : Text → Jaguar.File) (infile : Text → ℕ → Text) (samples_per_point : ℤ)

end copy

/-- The samples before the first delimiter. -/
def preamble : List Event → List Sample
  | [] => []
  | .delimiter :: _ => []
  | .client s :: log => s :: preamble log
  | .server _ :: log => preamble log

/-- The samples between each delimiter and the next one, or the end. -/
def trials : List Event → List (List Sample)
  | [] => []
  | .delimiter :: log => preamble log :: trials log
  | .client _ :: log => trials log
  | .server _ :: log => trials log

section trials
variable {log : List Event} {ts us : List (List Sample)} {a b : List Sample}

end trials

/-! ## Section 5: Reading the samples -/

/-- The integer that is stored for a sample. -/
def Sample.value (s : Sample) : ℕ := Decimal.value s.digits

/-- The array that is stored for some samples. -/
def ints (samples : List Sample) : Val F := .list (samples.map fun s => .int s.value)

section reading
variable {files : Text → Jaguar.File} {record : List (Key × Val F)} {xs : List Sample}

theorem Sample.no_break (s : Sample) : '\n' ∉ s.digits := by
  intro hc
  cases s.isDigit '\n' hc

end reading

/-! ## Section 6: The loops -/

/-- The array of the dependent variable at a place of the output file. -/
def Data.stored (data : Data F) (seriesname : Text) (entryindex : ℕ) : Option (Val F) :=
  (data seriesname entryindex).bind (List.lookup (member dependent))

section loops
variable {files : Text → Jaguar.File} {infile : Text → ℕ → Text} {c index points : ℕ}
  {s s' : State F} {seriesname : Text} {series : List Text} {xs : List Sample}

end loops

/-! ## Section 7: Attribution -/

/-- The number of points for each series. -/
def points (log : List Event) : ℕ := (trials log).length / 4

section attribution
variable {files : Text → Jaguar.File} {infile : Text → ℕ → Text} {approved : Text}
  {log : List Event} {data : Data F}

end attribution

/-! ## Section 8: Unequal trials -/

end NetworkRawnums
