import TreePath.Json.Equality

/-!
# Profiled queries

A session is one query under measurement, and its phases are the parts of it that were timed. Times
are in seconds and durations in milliseconds. What is not a time may be any value: it is kept as it
was given, and only what is worked out of it asks for numbers.
-/

namespace TreePath.Profile

structure Phase where
  name : Json
  started : Float
  ended : Float := 0
  memoryBefore : Json := .int 0
  memoryAfter : Json := .int 0
  operations : Json := .int 0
  deriving Inhabited

namespace Phase

def duration (p : Phase) : Float :=
  (p.ended - p.started) * 1000

/-- How many more bytes are in use at the end, if both numbers are known. -/
def memoryDelta (p : Phase) : Except Number.Fault Json := do
  return .num (← (← p.memoryAfter.toNumber).sub (← p.memoryBefore.toNumber))

def same (a b : Phase) : Bool :=
  a.name.same b.name && Number.same (.float a.started) (.float b.started) &&
    Number.same (.float a.ended) (.float b.ended) && a.memoryBefore.same b.memoryBefore &&
    a.memoryAfter.same b.memoryAfter && a.operations.same b.operations

end Phase

/-- A session, whose phases may be given as such or by their places. -/
structure Session (φ : Type) where
  id : Json
  started : Float
  ended : Float := 0
  expression : Json := ""
  treeSize : Json := .int 0
  resultCount : Json := .int 0
  phases : List φ := []
  metadata : Json := .obj []
  deriving Inhabited

namespace Session

variable {φ ψ : Type}

def duration (s : Session φ) : Float :=
  (s.ended - s.started) * 1000

def mapPhases (g : φ → ψ) (s : Session φ) : Session ψ :=
  { s with phases := s.phases.map g }

def phase? (s : Session Phase) (name : Json) : Option Phase :=
  s.phases.find? (·.name.same name)

def same (a b : Session Phase) : Bool :=
  a.id.same b.id && Number.same (.float a.started) (.float b.started) &&
    Number.same (.float a.ended) (.float b.ended) && a.expression.same b.expression &&
    a.treeSize.same b.treeSize && a.resultCount.same b.resultCount &&
    a.phases.length == b.phases.length && (a.phases.zip b.phases).all (fun (p, q) => p.same q) &&
    a.metadata.same b.metadata

end Session

end TreePath.Profile
