/-!
# Entries by recency

A table whose entries stand in the order of their last use, the oldest first. A use of a key moves
its entry to the end, and the table is cut down from the front.
-/

namespace TreePath

structure Recency (α β : Type) where
  entries : List (α × β) := []
  deriving DecidableEq, Repr, Inhabited

namespace Recency

variable {α β : Type} [BEq α]

def size (r : Recency α β) : Nat :=
  r.entries.length

def keys (r : Recency α β) : List α :=
  r.entries.map (·.1)

def find? (r : Recency α β) (k : α) : Option β :=
  r.entries.lookup k

/-- Makes the key the one used last, with this value. -/
def use (r : Recency α β) (k : α) (v : β) : Recency α β :=
  { entries := r.entries.eraseP (·.1 == k) ++ [(k, v)] }

/-- Drops the oldest entries for as long as their number is too large. -/
def trim (r : Recency α β) (tooLarge : Nat → Bool) : Recency α β :=
  { entries := go r.entries }
where
  go : List (α × β) → List (α × β)
    | [] => []
    | e :: entries => if tooLarge (entries.length + 1) then go entries else e :: entries

end Recency

end TreePath
