import TreePath.Proofs.Forest.Copies

namespace TreePath

/-- A loop that goes on from state to state ends. -/
def Ends {σ : Type} (next : σ → Option σ) : σ → Prop :=
  Acc fun t s => next s = some t

theorem Ends.of_eq_none {σ : Type} {next : σ → Option σ} {s : σ} (hs : next s = none) :
    Ends next s := by
  refine .intro s fun t ht => ?_
  rw [hs] at ht
  cases ht

theorem Ends.of_eq_some {σ : Type} {next : σ → Option σ} {s t : σ} (hs : next s = some t)
    (ht : Ends next t) : Ends next s := by
  refine .intro s fun u hu => ?_
  rw [hs] at hu
  cases hu
  exact ht

def Cursor.after? (f : Forest) (c : Cursor) : Option Cursor :=
  (c.next f).1.map fun _ => (c.next f).2

/-- What a walk visits, one element after the other, until it finds none. -/
inductive Cursor.Visits (f : Forest) : Cursor → List ElementId → Prop
  | done {c c' : Cursor} : c.next f = (none, c') → Visits f c []
  | visit {c c' : Cursor} {x : ElementId} {vs : List ElementId} :
    c.next f = (some x, c') → Visits f c' vs → Visits f c (x :: vs)

variable {f : Forest} {c : Cursor} {x : ElementId} {ws vs : List ElementId} {s : Copying}
  {m n : Nat}

theorem Cursor.Visits.ends (h : c.Visits f vs) : Ends (Cursor.after? f) c := by
  induction h with
  | done hnext => exact .of_eq_none (by rw [after?, hnext, Option.map_none])
  | visit hnext _ ih => exact .of_eq_some (by rw [after?, hnext, Option.map_some]) ih

/-- The stack that a cursor stands for has the children of the element visited last on top. -/
theorem Forest.Walks.visits (h : f.Walks ws vs)
    (hc : (c.visited.map f.children).getD [] ++ c.waiting = ws) : c.Visits f vs := by
  induction h generalizing c with
  | done =>
    have hnext : c.next f = (none, { waiting := [] }) := by rw [Cursor.next, hc]
    exact .done hnext
  | @visit x ws vs _ ih =>
    have hnext : c.next f = (some x, { visited := x, waiting := ws }) := by rw [Cursor.next, hc]
    exact .visit hnext (ih rfl)

theorem Copying.ends_of_run (h : (s.run n).waiting = []) : Ends Copying.next? s := by
  induction n generalizing s with
  | zero =>
    obtain ⟨f, waiting⟩ := s
    cases h
    exact .of_eq_none rfl
  | succ n ih =>
    cases hnext : s.next? with
    | none => exact .of_eq_none hnext
    | some t =>
      rw [run_of_next hnext] at h
      exact .of_eq_some hnext (ih h)

theorem Copying.run_stable (h : (s.run n).waiting = []) (hn : n ≤ m) : s.run m = s.run n := by
  induction n generalizing s m with
  | zero => exact run_of_waiting h m
  | succ n ih =>
    obtain ⟨m, rfl⟩ := Nat.exists_eq_add_one_of_ne_zero (Nat.ne_of_gt (Nat.lt_of_lt_of_le
      n.succ_pos hn))
    cases hwaiting : s.waiting with
    | nil => rw [run_of_waiting hwaiting, run_of_waiting hwaiting]
    | cons w waiting =>
      have hnext := next?_of_cons hwaiting
      rw [run_of_next hnext] at h ⊢
      rw [run_of_next hnext, ih h (Nat.le_of_succ_le_succ hn)]

namespace Forest

theorem WellFormed.ends_parent? (h : f.WellFormed) (x : ElementId) : Ends f.parent? x := by
  induction x using h.linked.parent_induction with
  | step x ih =>
    cases hx : f.parent? x with
    | none => exact .of_eq_none hx
    | some p => exact .of_eq_some hx (ih p hx)

theorem Linked.waiting_run (h : f.Linked) (hx : x ∈ f) :
    ((f.startCopying x).run f.size).waiting = [] :=
  (Copying.midway_end h hx).waiting_eq

end Forest

end TreePath
