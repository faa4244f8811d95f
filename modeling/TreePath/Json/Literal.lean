import TreePath.Json.Printer
import TreePath.Text.Quoted

namespace TreePath

namespace Number

def literal : Number → String
  | .int n => toString n
  | .float x =>
    if x.isNaN then "nan"
    else if x.isInf then (if x < 0 then "-inf" else "inf")
    else String.ofList (Json.writeFloat x)

end Number

namespace Json

mutual

/-- How a message shows a value. Null, truth values and numbers that are not finite have other words
than in JSON. -/
def literal : Json → String
  | .null => "None"
  | .bool true => "True"
  | .bool false => "False"
  | .num n => n.literal
  | .str s => Text.quoted s
  | .arr items => "[" ++ ", ".intercalate (literalItems items) ++ "]"
  | .obj fields => "\x7b" ++ ", ".intercalate (literalFields fields) ++ "\x7d"

def literalItems : List Json → List String
  | [] => []
  | v :: items => v.literal :: literalItems items

def literalFields : List (String × Json) → List String
  | [] => []
  | (name, v) :: fields => (Text.quoted name ++ ": " ++ v.literal) :: literalFields fields

end

/-- A text as it is, and any other value as it is shown in a message. -/
def text : Json → String
  | .str s => s
  | v => v.literal

example : literal (.arr [.null, true, "it's"]) = "[None, True, \"it's\"]" := by decide +kernel

end Json

end TreePath
