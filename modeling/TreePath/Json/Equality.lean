import TreePath.Json.Basic

/-!
# Equality of JSON values

Two values may be equal in every detail, which `DecidableEq` decides, or stand for the same, which
is coarser: `1`, `1.0` and `true` are the same, and so are two objects with the same fields in
another order.
-/

namespace TreePath.Json

mutual

/-- Decides whether two values are equal in every detail, also in the order of fields. -/
def decEq : (a b : Json) → Decidable (a = b)
  | .null, b =>
    match b with
    | .null => .isTrue rfl
    | .bool _ | .num _ | .str _ | .arr _ | .obj _ => .isFalse nofun
  | .bool x, b =>
    match b with
    | .bool y => if h : x = y then .isTrue (by rw [h]) else .isFalse (by simp [h])
    | .null | .num _ | .str _ | .arr _ | .obj _ => .isFalse nofun
  | .num x, b =>
    match b with
    | .num y => if h : x = y then .isTrue (by rw [h]) else .isFalse (by simp [h])
    | .null | .bool _ | .str _ | .arr _ | .obj _ => .isFalse nofun
  | .str x, b =>
    match b with
    | .str y => if h : x = y then .isTrue (by rw [h]) else .isFalse (by simp [h])
    | .null | .bool _ | .num _ | .arr _ | .obj _ => .isFalse nofun
  | .arr x, b =>
    match b with
    | .arr y =>
      match decEqItems x y with
      | .isTrue h => .isTrue (by rw [h])
      | .isFalse h => .isFalse (by simp [h])
    | .null | .bool _ | .num _ | .str _ | .obj _ => .isFalse nofun
  | .obj x, b =>
    match b with
    | .obj y =>
      match decEqFields x y with
      | .isTrue h => .isTrue (by rw [h])
      | .isFalse h => .isFalse (by simp [h])
    | .null | .bool _ | .num _ | .str _ | .arr _ => .isFalse nofun

def decEqItems : (as bs : List Json) → Decidable (as = bs)
  | [], [] => .isTrue rfl
  | [], _ :: _ | _ :: _, [] => .isFalse nofun
  | a :: as, b :: bs =>
    match decEq a b, decEqItems as bs with
    | .isTrue h, .isTrue hs => .isTrue (by rw [h, hs])
    | .isFalse h, _ => .isFalse (by simp [h])
    | _, .isFalse hs => .isFalse (by simp [hs])

def decEqFields : (as bs : List (String × Json)) → Decidable (as = bs)
  | [], [] => .isTrue rfl
  | [], _ :: _ | _ :: _, [] => .isFalse nofun
  | (m, a) :: as, (n, b) :: bs =>
    if hn : m = n then
      match decEq a b, decEqFields as bs with
      | .isTrue h, .isTrue hs => .isTrue (by rw [hn, h, hs])
      | .isFalse h, _ => .isFalse (by simp [h])
      | _, .isFalse hs => .isFalse (by simp [hs])
    else .isFalse (by simp [hn])

end

instance : DecidableEq Json := decEq

mutual

/-- Equality of values: numbers and truth values by the number they count as, objects whatever the
order of their fields. -/
def same : Json → Json → Bool
  | .null, .null => true
  | .str s, .str t => s == t
  | .arr as, .arr bs => sameItems as bs
  | .obj as, .obj bs => as.length == bs.length && sameFields as bs
  | a, b =>
    match a.number?, b.number? with
    | some m, some n => m.same n
    | _, _ => false

def sameItems : List Json → List Json → Bool
  | [], [] => true
  | a :: as, b :: bs => same a b && sameItems as bs
  | _, _ => false

/-- Whether the second list has an equal value under every name of the first. -/
def sameFields : List (String × Json) → List (String × Json) → Bool
  | [], _ => true
  | (name, a) :: as, bs =>
    (match bs.lookup name with
      | some b => same a b
      | none => false) && sameFields as bs

end

end TreePath.Json
