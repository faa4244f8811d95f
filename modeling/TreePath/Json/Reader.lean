import TreePath.Json.Basic

/-!
# Reading JSON

`Json.read` reads one value with blanks around it. The three numbers without digits, `NaN`,
`Infinity` and `-Infinity`, are read too. Of several fields of one name the last gives the value.
A reader may be given bounds on what it reads, and of several faults in a text the first is
reported.
-/

namespace TreePath.Json

/-- How much a reader reads of what is well formed. -/
structure Bounds where
  digits : Nat
  /-- Lists and objects that are open at once. -/
  depth : Nat
  deriving DecidableEq, Repr

inductive ReadFault where
  | malformed
  | tooLong
  | tooDeep
  deriving DecidableEq, Repr

def isBlank (c : Char) : Bool :=
  c = ' ' || c = '\t' || c = '\n' || c = '\r'

def skipBlanks (cs : List Char) : List Char :=
  cs.dropWhile isBlank

/-- The rest of a text after a word at its head. -/
def expect? : (word : List Char) → List Char → Option (List Char)
  | [], cs => some cs
  | w :: ws, c :: cs => if w = c then expect? ws cs else none
  | _ :: _, [] => none

def hexDigit? (c : Char) : Option Nat :=
  if c.isDigit then some (c.toNat - '0'.toNat)
  else if 'a' ≤ c ∧ c ≤ 'f' then some (c.toNat - 'a'.toNat + 10)
  else if 'A' ≤ c ∧ c ≤ 'F' then some (c.toNat - 'A'.toNat + 10)
  else none

def readUnit? : List Char → Option (Nat × List Char)
  | a :: b :: c :: d :: rest => do
    let n := (← hexDigit? a) * 0x1000 + (← hexDigit? b) * 0x100 + (← hexDigit? c) * 0x10
    return (n + (← hexDigit? d), rest)
  | _ => none

/-- Stands for half of a pair of UTF-16 units that is alone, which is no character. -/
def replacement : Char := '\uFFFD'

/-- Reads on after `\u`: one UTF-16 unit, or two that make up one character. -/
def readUnits? (cs : List Char) : Option (Char × List Char) := do
  let (high, rest) ← readUnit? cs
  if 0xD800 ≤ high ∧ high < 0xDC00 then
    match expect? ['\\', 'u'] rest with
    | none => return (replacement, rest)
    | some more =>
      let (low, more) ← readUnit? more
      if 0xDC00 ≤ low ∧ low < 0xE000 then
        return (Char.ofNat (0x10000 + (high - 0xD800) * 0x400 + (low - 0xDC00)), more)
      else return (replacement, rest)
  else if 0xDC00 ≤ high ∧ high < 0xE000 then return (replacement, rest)
  else return (Char.ofNat high, rest)

def readEscape? : List Char → Option (Char × List Char)
  | '"' :: cs => some ('"', cs)
  | '\\' :: cs => some ('\\', cs)
  | '/' :: cs => some ('/', cs)
  | 'b' :: cs => some ('\x08', cs)
  | 'f' :: cs => some ('\x0C', cs)
  | 'n' :: cs => some ('\n', cs)
  | 'r' :: cs => some ('\r', cs)
  | 't' :: cs => some ('\t', cs)
  | 'u' :: cs => readUnits? cs
  | _ => none

/-- Reads on after an opening quote to the closing one. The characters read so far are in `done`,
the last one first. -/
def readText? : (fuel : Nat) → (done : List Char) → List Char → Option (String × List Char)
  | 0, _, _ => none
  | _, _, [] => none
  | fuel + 1, done, c :: cs =>
    if c = '"' then some (String.ofList done.reverse, cs)
    else if c = '\\' then do
      let (c, cs) ← readEscape? cs
      readText? fuel (c :: done) cs
    else if c.toNat < 0x20 then none
    else readText? fuel (c :: done) cs

def splitDigits (cs : List Char) : List Char × List Char :=
  (cs.takeWhile Char.isDigit, cs.dropWhile Char.isDigit)

/-- The digits after a point, if there are any. -/
def splitFraction (cs : List Char) : List Char × List Char :=
  match cs with
  | '.' :: rest =>
    let (digits, rest) := splitDigits rest
    if digits.isEmpty then ([], cs) else (digits, rest)
  | _ => ([], cs)

/-- An exponent, if there is a whole one. -/
def splitExponent (cs : List Char) : Option Int × List Char :=
  match cs with
  | e :: rest =>
    if e = 'e' ∨ e = 'E' then
      let (negative, rest) :=
        match rest with
        | '-' :: rest => (true, rest)
        | '+' :: rest => (false, rest)
        | rest => (false, rest)
      let (digits, rest) := splitDigits rest
      let n : Int := Nat.ofDigitChars 10 digits 0
      if digits.isEmpty then (none, cs) else (some (if negative then -n else n), rest)
    else (none, cs)
  | [] => (none, cs)

/-- Reads a number without a sign. A fraction or an exponent makes it a binary64 number. -/
def readMagnitude (digits : Nat) (cs : List Char) : Except ReadFault (Number × List Char) :=
  let (whole, rest) :=
    match cs with
    | '0' :: rest => (['0'], rest)
    | cs => splitDigits cs
  if whole.isEmpty then .error .malformed
  else
    let (fraction, rest) := splitFraction rest
    let (exponent, rest) := splitExponent rest
    if fraction.isEmpty ∧ exponent.isNone then
      if whole.length ≤ digits then .ok (.int (Nat.ofDigitChars 10 whole 0), rest)
      else .error .tooLong
    else
      let n := Nat.ofDigitChars 10 (whole ++ fraction) 0
      let e := exponent.getD 0 - fraction.length
      .ok (.float (Float.ofScientific n (e < 0) e.natAbs), rest)

def readNumber (digits : Nat) : List Char → Except ReadFault (Number × List Char)
  | '-' :: cs => do
    match ← readMagnitude digits cs with
    | (.int n, rest) => return (.int (-n), rest)
    | (.float x, rest) => return (.float (-x), rest)
  | cs => readMagnitude digits cs

/-- The words that stand for a value, and what they stand for. -/
def words : List (List Char × Json) :=
  [("null".toList, .null), ("true".toList, .bool true), ("false".toList, .bool false),
   ("NaN".toList, .float (0.0 / 0.0)), ("Infinity".toList, .float (1.0 / 0.0)),
   ("-Infinity".toList, .float (-1.0 / 0.0))]

def readScalar (digits : Nat) (cs : List Char) : Except ReadFault (Json × List Char) :=
  match words.findSome? fun (word, v) => (expect? word cs).map (v, ·) with
  | some found => .ok found
  | none => (readNumber digits cs).map fun (n, rest) => (.num n, rest)

/-- What is not there is malformed. -/
def orMalformed {α : Type} : Option α → Except ReadFault α
  | some a => .ok a
  | none => .error .malformed

/-- What is read between the brackets of a list or an object, where so many more may be open. -/
def Bounds.inner (b : Bounds) : Except ReadFault Bounds :=
  match b.depth with
  | 0 => .error .tooDeep
  | depth + 1 => .ok { b with depth }

mutual

def readValue : (fuel : Nat) → Bounds → List Char → Except ReadFault (Json × List Char)
  | 0, _, _ => .error .malformed
  | fuel + 1, _, '"' :: cs => do
    let (s, cs) ← orMalformed (readText? fuel [] cs)
    return (.str s, cs)
  | fuel + 1, b, '[' :: cs => do
    let b ← b.inner
    match skipBlanks cs with
    | ']' :: cs => return (.arr [], cs)
    | cs =>
      let (items, cs) ← readItems fuel b cs
      return (.arr items, cs)
  | fuel + 1, b, '{' :: cs => do
    let b ← b.inner
    match skipBlanks cs with
    | '}' :: cs => return (.obj [], cs)
    | cs =>
      let (fields, cs) ← readFields fuel b cs
      return (.obj (mergeEntries fields), cs)
  | _ + 1, b, cs => readScalar b.digits cs

def readItems : (fuel : Nat) → Bounds → List Char → Except ReadFault (List Json × List Char)
  | 0, _, _ => .error .malformed
  | fuel + 1, b, cs => do
    let (v, cs) ← readValue fuel b cs
    match skipBlanks cs with
    | ']' :: cs => return ([v], cs)
    | ',' :: cs =>
      let (items, cs) ← readItems fuel b (skipBlanks cs)
      return (v :: items, cs)
    | _ => .error .malformed

def readFields : (fuel : Nat) → Bounds → List Char →
    Except ReadFault (List (String × Json) × List Char)
  | 0, _, _ => .error .malformed
  | fuel + 1, b, cs => do
    let (name, cs) ← orMalformed ((expect? ['"'] cs).bind (readText? fuel []))
    let cs ← orMalformed (expect? [':'] (skipBlanks cs))
    let (v, cs) ← readValue fuel b (skipBlanks cs)
    match skipBlanks cs with
    | '}' :: cs => return ([(name, v)], cs)
    | ',' :: cs =>
      let (fields, cs) ← readFields fuel b (skipBlanks cs)
      return ((name, v) :: fields, cs)
    | _ => .error .malformed

end

/-- Reads a text that holds one value. Every call but one in a row takes a character, so twice the
length is fuel enough. -/
def read (b : Bounds) (text : String) : Except ReadFault Json := do
  let (v, rest) ← readValue (2 * text.length + 2) b (skipBlanks text.toList)
  if (skipBlanks rest).isEmpty then return v else .error .malformed

/-- Reads a text without bounds: nothing in it is longer or deeper than the text itself. -/
def parse? (text : String) : Option Json :=
  (read ⟨text.length, text.length⟩ text).toOption

end TreePath.Json
