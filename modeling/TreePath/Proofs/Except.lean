namespace Except

theorem exists_of_bind_eq_ok {ε α β : Type} {a : Except ε α} {g : α → Except ε β} {y : β}
    (h : a >>= g = .ok y) : ∃ x, a = .ok x ∧ g x = .ok y := by
  cases a with
  | error e => cases h
  | ok x => exact ⟨x, rfl, h⟩

variable {ε ε' α β : Type}

theorem toOption_map (e : Except ε α) (k : α → β) : (e.map k).toOption = e.toOption.map k := by
  cases e <;> rfl

theorem toOption_mapError (e : Except ε α) (k : ε → ε') : (e.mapError k).toOption = e.toOption := by
  cases e <;> rfl

/-- Computations that fail in the same way one after the other fail in the same way together. -/
theorem mapError_bind_congr {k : ε → ε'} {a b : Except ε α} {g h : α → Except ε β}
    (hab : a.mapError k = b.mapError k) (hgh : ∀ x, (g x).mapError k = (h x).mapError k) :
    (a >>= g).mapError k = (b >>= h).mapError k := by
  cases a with
  | error d =>
    cases b with
    | error e => exact congrArg Except.error (Except.error.inj hab)
    | ok y => cases hab
  | ok x =>
    cases b with
    | error e => cases hab
    | ok y =>
      cases hab
      exact hgh x

end Except

namespace List

variable {ε α β γ : Type} {xs : List α} {ys : List β} {g : α → Except ε β}

theorem mapM_map_eq_ok {u : γ → α} {v : γ → β} {zs : List γ} (h : ∀ z, g (u z) = .ok (v z)) :
    (zs.map u).mapM g = .ok (zs.map v) := by
  induction zs with
  | nil => rfl
  | cons z zs ih =>
    rw [map_cons, mapM_cons, h, ih]
    rfl

theorem map_eq_of_mapM_eq_ok {k : α → γ} {l : β → γ} (hg : ∀ x y, g x = .ok y → l y = k x)
    (h : xs.mapM g = .ok ys) : ys.map l = xs.map k := by
  induction xs generalizing ys with
  | nil =>
    cases h
    rfl
  | cons x xs ih =>
    rw [mapM_cons] at h
    obtain ⟨y, hy, h⟩ := Except.exists_of_bind_eq_ok h
    obtain ⟨zs, hzs, h⟩ := Except.exists_of_bind_eq_ok h
    cases h
    rw [map_cons, map_cons, hg x y hy, ih hzs]

theorem filterM_concat (q : α → Except ε Bool) (xs : List α) (x : α) :
    (xs ++ [x]).filterM q = do
      let kept ← xs.filterM q
      return kept ++ if ← q x then [x] else [] := by
  have hloop (kept : List α) : filterAuxM q (xs ++ [x]) kept = do
      let kept ← filterAuxM q xs kept
      return if ← q x then x :: kept else kept := by
    induction xs generalizing kept with
    | nil =>
      rw [nil_append, filterAuxM, filterAuxM]
      cases q x with
      | error e => rfl
      | ok b => cases b <;> rfl
    | cons y ys ih =>
      rw [cons_append, filterAuxM, filterAuxM]
      cases q y with
      | error e => rfl
      | ok b => exact ih _
  rw [filterM, filterM, hloop]
  cases filterAuxM q xs [] with
  | error e => rfl
  | ok kept =>
    cases q x with
    | error e => rfl
    | ok b =>
      cases b with
      | false => exact congrArg Except.ok (append_nil _).symm
      | true => exact congrArg Except.ok reverse_cons

end List
