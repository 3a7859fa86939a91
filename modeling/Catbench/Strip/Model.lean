import Catbench.Framework.TextLines
import Catbench.Framework.Layout
import Catbench.Jaguar.Model
import Mathlib.Data.List.Infix

/-! # `strip`

    Takes the performance data and the logs out of a file that `jaguar` has
    written.  The script does not read the document: it leaves out every line that
    has one of four texts in it, joins the other lines with carriage returns, and
    takes away each comma that now stands before a closing bracket.
-/

open Layouts TextLines
open Jaguar (Text)

namespace Strip

/-- The fixed strings that `grep` is given. -/
def patterns : List Text :=
  ["\"perf_data\": \"".toList, "\"log\"".toList, "\"patch\"".toList,
    "\"server_binary\"".toList]

/-- A line without any of the patterns. -/
def keep (line : Text) : Bool := patterns.all fun p => !decide (p <:+: line)

/-- `grep -vF`. -/
def grep (t : Text) : List Text := (TextLines.lines t).filter keep

/-- `s/,\r\([[:space:]]*[]}]\)/\n\1/g`.  What is matched after the carriage return has
    no comma, so that no other match starts in it. -/
def mend : Text → Text
  | ',' :: '\r' :: t => if closes t then '\n' :: mend t else ',' :: mend ('\r' :: t)
  | c :: t => c :: mend t
  | [] => []

/-- `s/\r/\n/g`. -/
def unreturn (t : Text) : Text := t.map fun c => if c = '\r' then '\n' else c

/-- What the script prints. -/
def strip (t : Text) : Text := sed (unreturn ∘ mend) (paste ['\r'] (grep t))

end Strip
