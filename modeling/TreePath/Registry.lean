/-!
# Registries

A registry holds objects that are shared and change while they are shared. A slot names an object:
two slots are equal exactly if they name the same object, whatever the objects hold.
-/

namespace TreePath

structure Slot (α : Type) where
  index : Nat
  deriving Repr, Inhabited

instance {α : Type} : DecidableEq (Slot α)
  | ⟨i⟩, ⟨j⟩ => if h : i = j then isTrue (h ▸ rfl) else isFalse fun e => h (Slot.mk.inj e)

structure Registry (α : Type) where
  items : Array α := #[]
  deriving DecidableEq, Repr, Inhabited

namespace Registry

variable {α : Type}

def size (r : Registry α) : Nat :=
  r.items.size

/-- The object at a slot. Slots outside the registry show the default object. -/
def get [Inhabited α] (r : Registry α) (s : Slot α) : α :=
  r.items[s.index]?.getD default

def add (r : Registry α) (a : α) : Slot α × Registry α :=
  (⟨r.size⟩, ⟨r.items.push a⟩)

def addAll (r : Registry α) : List α → List (Slot α) × Registry α
  | [] => ([], r)
  | a :: as =>
    let (slot, r) := r.add a
    let (slots, r) := r.addAll as
    (slot :: slots, r)

/-- Adds an object that is to be used instead of an older one, if there is one. -/
def addOr (r : Registry α) (old : Slot α) : Option α → Slot α × Registry α
  | some a => r.add a
  | none => (old, r)

def set (r : Registry α) (s : Slot α) (a : α) : Registry α :=
  ⟨r.items.setIfInBounds s.index a⟩

def modify (r : Registry α) (s : Slot α) (g : α → α) : Registry α :=
  ⟨r.items.modify s.index g⟩

@[simp] theorem size_set (r : Registry α) (s : Slot α) (a : α) : (r.set s a).size = r.size := by
  simp [set, size]

@[simp] theorem size_add (r : Registry α) (a : α) : (r.add a).2.size = r.size + 1 := by
  simp [add, size]

@[simp] theorem get_add [Inhabited α] (r : Registry α) (a : α) :
    (r.add a).2.get (r.add a).1 = a := by
  simp [add, get, size]

theorem get_add_of_lt [Inhabited α] {r : Registry α} {s : Slot α} (a : α) (h : s.index < r.size) :
    (r.add a).2.get s = r.get s := by
  unfold size at h
  simp [add, get, Array.getElem?_push, Nat.ne_of_lt h]

theorem get_set_self [Inhabited α] {r : Registry α} {s : Slot α} (a : α) (h : s.index < r.size) :
    (r.set s a).get s = a := by
  unfold size at h
  simp [set, get, h]

theorem get_set_ne [Inhabited α] {r : Registry α} {s t : Slot α} (a : α) (h : s ≠ t) :
    (r.set s a).get t = r.get t := by
  have : s.index ≠ t.index := fun e => h (by cases s; cases t; simp_all)
  simp [set, get, this]

end Registry

end TreePath
