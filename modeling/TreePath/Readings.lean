namespace TreePath

/-- A gauge, such as a clock, whose readings are known in advance: the one shown last and those that
follow it. When none follows, the last one stays. -/
structure Readings (α : Type) where
  last : α
  upcoming : List α := []
  deriving DecidableEq, Repr, Inhabited

namespace Readings

variable {α : Type}

def read : Readings α → α × Readings α
  | { last, upcoming := [] } => (last, { last })
  | { upcoming := next :: upcoming, .. } => (next, { last := next, upcoming })

def schedule (r : Readings α) (upcoming : List α) : Readings α :=
  { r with upcoming }

end Readings

end TreePath
