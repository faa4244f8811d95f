import TreePath.Json.Equality

/-!
# Metrics

Counters of a compiler and of the matchers that use it, and the time that the matchers took.
Counters start at zero, and from outside they may be set to any value.
-/

namespace TreePath

inductive Counter where
  | compilations
  | cacheHits
  | cacheMisses
  | runs
  | yielded
  | returned
  deriving DecidableEq, Repr

namespace Counter

def all : List Counter :=
  [compilations, cacheHits, cacheMisses, runs, yielded, returned]

/-- The name under which a counter is reported. -/
def label : Counter → String
  | compilations => "compilations"
  | cacheHits => "cache_hits"
  | cacheMisses => "cache_misses"
  | runs => "matches"
  | yielded => "nodes_yielded"
  | returned => "results_returned"

def ofLabel? (label : String) : Option Counter :=
  all.find? (·.label = label)

end Counter

structure Metrics where
  /-- Path texts that were read and found well formed. -/
  compilations : Int := 0
  cacheHits : Int := 0
  cacheMisses : Int := 0
  runs : Int := 0
  /-- Elements that steps yielded, repetitions included. -/
  yielded : Int := 0
  /-- Elements that were answered. -/
  returned : Int := 0
  runTime : Float := 0
  /-- Whether the run time is a sum, so that it is not just what it was set to. -/
  isSum : Bool := false
  /-- What counters were set to that is no integer. It stands in place of the count. -/
  others : List (Counter × Json) := []
  deriving DecidableEq, Inhabited

inductive Metrics.Fault where
  | notCounter (name : String)
  | time (reason : Number.Fault)
  deriving DecidableEq, Repr

namespace Metrics

/-- What a counter with the value `v` shows after `n` more of `c`. What is no number stays. -/
def advanceValue (c : Counter) (n : Nat) (counter : Counter) (v : Json) : Json :=
  match v.number? with
  | some x => if counter = c then .num ((x.add (.int n)).toOption.getD x) else v
  | none => v

/-- Adds to a counter where it was set to a number that is no integer. -/
def advance (c : Counter) (n : Nat) (others : List (Counter × Json)) : List (Counter × Json) :=
  others.map fun (counter, v) => (counter, advanceValue c n counter v)

def countCompilation (m : Metrics) : Metrics :=
  { m with
    compilations := m.compilations + 1
    others := advance .compilations 1 m.others }

def countHit (m : Metrics) : Metrics :=
  { m with cacheHits := m.cacheHits + 1, others := advance .cacheHits 1 m.others }

def countMiss (m : Metrics) : Metrics :=
  { m with cacheMisses := m.cacheMisses + 1, others := advance .cacheMisses 1 m.others }

def countRun (yielded returned : Nat) (time : Float) (m : Metrics) : Metrics :=
  { m with
    runs := m.runs + 1
    yielded := m.yielded + yielded
    returned := m.returned + returned
    runTime := m.runTime + time
    isSum := true
    others := advance .runs 1 <| advance .yielded yielded <| advance .returned returned m.others }

def count (m : Metrics) : Counter → Int
  | .compilations => m.compilations
  | .cacheHits => m.cacheHits
  | .cacheMisses => m.cacheMisses
  | .runs => m.runs
  | .yielded => m.yielded
  | .returned => m.returned

def value (m : Metrics) (c : Counter) : Json :=
  (m.others.lookup c).getD (.int (m.count c))

def cacheHitRate (m : Metrics) : Except Number.Fault Float := do
  let hits ← (m.value .cacheHits).toNumber
  let misses ← (m.value .cacheMisses).toNumber
  let accesses ← hits.add misses
  if accesses.same (.int 0) then return 0 else hits.divide accesses

def averageRunTime (m : Metrics) : Except Number.Fault Float := do
  let runs ← (m.value .runs).toNumber
  if runs.same (.int 0) then return 0 else return m.runTime / (← runs.toFloat)

/-- Equality of run times. What is not a number equals what is not a number if neither is a sum. -/
def sameTime (a b : Metrics) : Bool :=
  a.runTime == b.runTime || (a.runTime.isNaN && b.runTime.isNaN && !a.isSum && !b.isSum)

def same (a b : Metrics) : Bool :=
  Counter.all.all (fun c => (a.value c).same (b.value c)) && a.sameTime b

def setCounter (m : Metrics) (c : Counter) (value : Json) : Metrics :=
  match c, value with
  | .compilations, .num (.int n) => { m with compilations := n }
  | .cacheHits, .num (.int n) => { m with cacheHits := n }
  | .cacheMisses, .num (.int n) => { m with cacheMisses := n }
  | .runs, .num (.int n) => { m with runs := n }
  | .yielded, .num (.int n) => { m with yielded := n }
  | .returned, .num (.int n) => { m with returned := n }
  | c, value => { m with others := setEntry c value m.others }

/-- Sets a counter, or the run time, by the name under which it is reported. -/
def set (m : Metrics) (name : String) (value : Json) : Except Fault Metrics :=
  if name = "total_match_time_ms" then do
    let time ← (value.toNumber.bind Number.toFloat).mapError .time
    return { m with runTime := time, isSum := false }
  else
    match Counter.ofLabel? name with
    | some c => .ok (m.setCounter c value)
    | none => .error (.notCounter name)

/-- Counters given by their names. -/
def ofFields (fields : List (String × Json)) : Except Fault Metrics :=
  fields.foldlM (fun m (name, v) => m.set name v) {}

def fields (m : Metrics) (cs : List Counter) : List (String × Json) :=
  cs.map fun c => (c.label, m.value c)

def report (m : Metrics) : Except Number.Fault (List (String × Json)) := do
  let rate ← m.cacheHitRate
  let average ← m.averageRunTime
  return m.fields [.compilations, .cacheHits, .cacheMisses] ++
    ("cache_hit_rate", .float rate) :: m.fields [.runs, .yielded, .returned] ++
    [("average_match_time_ms", .float average)]

end Metrics

end TreePath
