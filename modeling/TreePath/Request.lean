import TreePath.Json.Basic
import TreePath.Match
import TreePath.Path.Reader

namespace TreePath

/-- A path that was read or made at some time. Paths with equal contents that were made at different
times have different numbers. -/
structure Prepared where
  path : Path
  serial : Nat
  deriving DecidableEq, Repr, Inhabited

/-- What may be asked for: a path as a text, a path that is prepared, or something else that is
neither. -/
inductive Request where
  | text (s : String)
  | path (p : Prepared)
  /-- What is asked for is no path. It may or may not be fit to be looked up by. -/
  | other (isKey : Bool)
  deriving DecidableEq, Repr, Inhabited

namespace Request

def ofJson : Json → Request
  | .str s => .text s
  | v => .other !v.isCompound

/-- Whether the request can be looked for among the paths that are kept. -/
def isKey : Request → Bool
  | .text _ | .path _ => true
  | .other isKey => isKey

end Request

inductive QueryFault where
  | malformed (e : Path.Malformed)
  | notText
  /-- What is not fit to be looked up by, such as a list, was looked for among the paths that are
  kept. -/
  | compoundKey
  | limitNotNumber
  | unsupported (e : UnsupportedStep)
  /-- A number that was to be reported is out of range. -/
  | number (e : Number.Fault)
  deriving DecidableEq, Repr

namespace QueryFault

def message : QueryFault → Option String
  | malformed e => e.message
  | notText => "Path expression must be a string"
  | compoundKey | limitNotNumber | number _ => none
  | unsupported e => e.message

end QueryFault

/-- Reads a path from a value of any kind. -/
def Path.ofJson : Json → Except QueryFault Path
  | .str text => (Path.ofText text).mapError .malformed
  | _ => .error .notText

end TreePath
