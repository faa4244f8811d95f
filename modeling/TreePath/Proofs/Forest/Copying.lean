import TreePath.Forest.Clone
import TreePath.Proofs.Forest.Moves
import TreePath.Proofs.Forest.Settling

namespace TreePath.Forest

variable {f g : Forest} {c p q x y : ElementId} {ks : List Content} {i : Nat}

theorem size_createChildren (f : Forest) (p : ElementId) (ks : List Content) :
    (f.createChildren p ks).size = f.size + ks.length := by
  simp [createChildren, size, modify]

theorem mem_createChildren (hy : y ∈ f) : y ∈ f.createChildren p ks := by
  have hlt : y.index < f.size := hy
  show y.index < (f.createChildren p ks).size
  rw [size_createChildren]
  omega

theorem element_createChildren_of_mem (p : ElementId) (ks : List Content) (hy : y ∈ f) :
    (f.createChildren p ks).element y =
      if y = p then
        { f.element y with
          children := f.children y ++ (List.range' f.size ks.length).map ElementId.mk }
      else f.element y := by
  have hlt : y.index < f.elements.size := hy
  have hold : (Forest.mk (f.elements ++ (ks.map fun c =>
      { toContent := c, parent := some p : Element }).toArray)).element y = f.element y := by
    simp [element, get?, Array.getElem?_append, hlt]
  have hmem : y ∈ f.createChildren p ks := mem_createChildren hy
  rw [createChildren, mem_modify] at hmem
  rw [createChildren, element_modify, hold, children]
  simp only [hmem, and_true]

theorem element_createChildren_new (hp : p ∈ f) (hi : i < ks.length) :
    (f.createChildren p ks).element ⟨f.size + i⟩ = { toContent := ks[i], parent := some p } := by
  have hne : (⟨f.size + i⟩ : ElementId) ≠ p := by
    rintro rfl
    exact Nat.not_lt.2 (Nat.le_add_right _ _) hp
  rw [createChildren, element_modify_of_ne hne]
  simp [element, get?, size, hi]

theorem mem_createChildren_of_place
    (hc : c ∈ (List.range' f.size ks.length).map ElementId.mk) : c ∈ f.createChildren p ks := by
  obtain ⟨i, hi, rfl⟩ := List.mem_map.1 hc
  show i < (f.createChildren p ks).size
  rw [size_createChildren]
  exact (List.mem_range'_1.1 hi).2

theorem mem_children_createChildren (hp : p ∈ f) (hc : c ∈ (f.createChildren p ks).children y) :
    c ∈ f.children y ∨ c ∈ f.createChildren p ks := by
  rw [children] at hc
  by_cases hy : y ∈ f
  · rw [element_createChildren_of_mem p ks hy] at hc
    split at hc
    · exact (List.mem_append.1 hc).imp_right mem_createChildren_of_place
    · exact .inl hc
  · have hle : f.size ≤ y.index := Nat.le_of_not_lt hy
    have hyg : y.index < (f.createChildren p ks).size := mem_of_mem_children hc
    rw [size_createChildren] at hyg
    have hplace : y = ⟨f.size + (y.index - f.size)⟩ := by rw [Nat.add_sub_cancel' hle]
    rw [hplace, element_createChildren_new hp (by omega)] at hc
    cases hc

theorem modify_create_new (f : Forest) (k : Content) (m : Element → Element) :
    (f.create k).2.modify (f.create k).1 m = ⟨f.elements.push (m { toContent := k })⟩ := by
  simp only [create, modify, size]
  congr 1
  ext i hi _
  · simp
  · rw [Array.size_modify, Array.size_push, Nat.lt_succ_iff_lt_or_eq] at hi
    rcases hi with hlt | rfl
    · simp [Array.getElem_modify, Array.getElem_push, hlt, Nat.ne_of_gt hlt]
    · simp [Array.getElem_modify]

theorem createChildren_nil (f : Forest) (p : ElementId) : f.createChildren p [] = f := by
  simp only [createChildren, modify, List.map_nil, Array.append_empty, List.length_nil,
    List.range'_zero, List.append_nil]
  congr 1
  ext1
  · simp
  · simp only [Array.getElem_modify]
    split <;> rfl

end TreePath.Forest

namespace TreePath.Copying

open Forest

/-- Copies a child. The copy names `target` as its parent, becomes its last child and waits. -/
def copyChild (target : ElementId) (s : Copying) (child : ElementId) : Copying :=
  let (copy, f) := s.forest.copyNode child
  let f := f.modify copy fun e => { e with parent := some target }
  let f := f.modify target fun e => { e with children := e.children ++ [copy] }
  { forest := f, waiting := (child, copy) :: s.waiting }

/-- The rounds of `run`, where every child is copied for itself. -/
def runOneByOne : Nat → Copying → Copying
  | n + 1, { forest, waiting := (source, target) :: waiting } =>
    ((forest.children source).foldl (copyChild target) { forest, waiting }).runOneByOne n
  | _, s => s

/-- All that is listed or waits is there. -/
structure Closed (s : Copying) : Prop where
  children : ∀ y, ∀ c ∈ s.forest.children y, c ∈ s.forest
  waiting : ∀ w ∈ s.waiting, w.2 ∈ s.forest

variable {f : Forest} {source target : ElementId} {cs : List ElementId} {s : Copying}
  {waiting : List (ElementId × ElementId)}

theorem copyChild_eq (f : Forest) (target c : ElementId) (waiting : List (ElementId × ElementId)) :
    copyChild target ⟨f, waiting⟩ c =
      ⟨f.createChildren target [(f.element c).toContent], (c, ⟨f.size⟩) :: waiting⟩ := by
  simp only [copyChild, copyNode, modify_create_new]
  simp [createChildren, create, size]

theorem foldl_copyChild (ht : target ∈ f) (hcs : ∀ c ∈ cs, c ∈ f)
    (waiting : List (ElementId × ElementId)) :
    cs.foldl (copyChild target) ⟨f, waiting⟩ =
      { forest := f.createChildren target (cs.map fun c => (f.element c).toContent)
        waiting :=
          (cs.zip ((List.range' f.size cs.length).map ElementId.mk)).reverse ++ waiting } := by
  induction cs generalizing f waiting with
  | nil =>
    rw [List.map_nil, createChildren_nil]
    rfl
  | cons c cs ih =>
    have hgrown : ∀ d ∈ cs, d ∈ f.createChildren target [(f.element c).toContent] :=
      fun d hd => mem_createChildren (hcs d (List.mem_cons_of_mem _ hd))
    have hcontent : ∀ d ∈ cs,
        ((f.createChildren target [(f.element c).toContent]).element d).toContent =
          (f.element d).toContent := by
      intro d hd
      rw [element_createChildren_of_mem target _ (hcs d (List.mem_cons_of_mem _ hd))]
      split <;> rfl
    rw [List.foldl_cons, copyChild_eq, ih (mem_createChildren ht) hgrown,
      List.map_congr_left hcontent, size_createChildren, ← createChildren_append ht]
    simp [List.range'_succ]

theorem copyChildren_eq_foldl (ht : target ∈ s.forest)
    (hcs : ∀ c ∈ s.forest.children source, c ∈ s.forest) :
    copyChildren source target s = (s.forest.children source).foldl (copyChild target) s :=
  (foldl_copyChild ht hcs s.waiting).symm

theorem Closed.copyChildren (hs : Closed ⟨f, (source, target) :: waiting⟩) :
    Closed (copyChildren source target ⟨f, waiting⟩) where
  children y c hc := by
    rcases mem_children_createChildren (hs.waiting _ List.mem_cons_self) hc with hc | hc
    · exact mem_createChildren (hs.children y c hc)
    · exact hc
  waiting w hw := by
    rcases List.mem_append.1 hw with hw | hw
    · apply mem_createChildren_of_place
      rw [List.length_map]
      exact (List.of_mem_zip (List.mem_reverse.1 hw)).2
    · exact mem_createChildren (hs.waiting w (List.mem_cons_of_mem _ hw))

/-- Children copied at once or one by one: the loop makes the same copies. -/
theorem Closed.runOneByOne_eq (hs : s.Closed) (n : Nat) : s.runOneByOne n = s.run n := by
  induction n generalizing s with
  | zero => rfl
  | succ n ih =>
    obtain ⟨f, waiting⟩ := s
    cases waiting with
    | nil => rfl
    | cons w waiting =>
      obtain ⟨source, target⟩ := w
      have ht := hs.waiting _ List.mem_cons_self
      have hround : Copying.copyChildren source target ⟨f, waiting⟩ =
          (f.children source).foldl (copyChild target) ⟨f, waiting⟩ :=
        copyChildren_eq_foldl ht (hs.children source)
      rw [runOneByOne, run, ← hround, ih hs.copyChildren]

end TreePath.Copying

namespace TreePath.Forest

variable {f : Forest} {c s t x y : ElementId} {ws made rest : List ElementId} {n : Nat}

/-- What the next rounds copy where the children of these are still to be copied, in the order of
the copies. -/
def copied (f : Forest) : Nat → List ElementId → List ElementId
  | 0, _ => []
  | _, [] => []
  | n + 1, s :: ws => f.children s ++ f.copied n ((f.children s).reverse ++ ws)

@[simp] theorem copied_nil (f : Forest) (n : Nat) : f.copied n [] = [] := by
  cases n <;> rfl

def sources (f : Forest) (x : ElementId) : List ElementId :=
  x :: f.copied f.size [x]

/-- The copy of `s` where what is within `x` is copied. -/
def copyOf (f : Forest) (x s : ElementId) : ElementId :=
  ⟨f.size + (f.sources x).idxOf s⟩

def copyElement (f : Forest) (x s : ElementId) : Element :=
  { toContent := (f.element s).toContent
    parent := if s = x then none else (f.parent? s).map (f.copyOf x)
    children := (f.children s).map (f.copyOf x) }

theorem copyOf_notMem (f : Forest) (x s : ElementId) : f.copyOf x s ∉ f :=
  Nat.not_lt.2 (Nat.le_add_right _ _)

theorem copyOf_self (f : Forest) (x : ElementId) : f.copyOf x x = ⟨f.size⟩ := by
  rw [copyOf, sources, List.idxOf_cons_self, Nat.add_zero]

theorem copyOf_inj (hs : s ∈ f.sources x) (he : f.copyOf x s = f.copyOf x t) : s = t :=
  (List.idxOf_inj hs).1 (Nat.add_left_cancel (congrArg ElementId.index he))

/-- The copies of children that are copied in one round have numbers in a row. -/
theorem map_copyOf (hnodup : (f.sources x).Nodup) (hsources : f.sources x = made ++ (ws ++ rest)) :
    ws.map (f.copyOf x) = (List.range' (f.size + made.length) ws.length).map ElementId.mk := by
  rw [hsources] at hnodup
  obtain ⟨-, hlater, hapart⟩ := List.nodup_append.1 hnodup
  have hws := (List.nodup_append.1 hlater).1
  apply List.ext_getElem
  · simp
  · intro i hi _
    rw [List.length_map] at hi
    have hmem : ws[i] ∈ ws := List.getElem_mem hi
    have hmade : ws[i] ∉ made := fun hm => hapart _ hm _ (List.mem_append_left _ hmem) rfl
    simp only [List.getElem_map, List.getElem_range', copyOf, hsources]
    rw [List.idxOf_append_of_notMem hmade, List.idxOf_append_of_mem hmem, hws.idxOf_getElem]
    simp [Nat.add_assoc]

namespace Linked

variable (h : f.Linked)

include h

theorem flatMap_preorder_perm (ht : t ∈ f) (ws : List ElementId) :
    ((t :: ws).flatMap f.preorder).Perm
      (t :: ((f.children t).reverse ++ ws).flatMap f.preorder) := by
  rw [List.flatMap_cons, h.preorder_eq ht, List.flatMap_append]
  exact .cons t (((List.reverse_perm _).flatMap_right _).symm.append_right _)

/-- The elements that wait and those that are copied later are what walks from the former visit. -/
theorem perm_copied (hws : ∀ w ∈ ws, w ∈ f) (hn : (ws.flatMap f.preorder).length ≤ n) :
    (ws ++ f.copied n ws).Perm (ws.flatMap f.preorder) := by
  induction n generalizing ws with
  | zero =>
    cases ws with
    | nil => exact .refl _
    | cons t ws =>
      rw [(h.flatMap_preorder_perm (hws t List.mem_cons_self) ws).length_eq] at hn
      cases hn
  | succ n ih =>
    cases ws with
    | nil => exact .refl _
    | cons t ws =>
      have hround := h.flatMap_preorder_perm (hws t List.mem_cons_self) ws
      have hnext : ∀ w ∈ (f.children t).reverse ++ ws, w ∈ f := by
        intro w hw
        rcases List.mem_append.1 hw with hc | hw
        · exact (h.up_of_mem (List.mem_reverse.1 hc)).mem
        · exact hws w (List.mem_cons_of_mem _ hw)
      rw [hround.length_eq] at hn
      have hlater := ih hnext (Nat.le_of_succ_le_succ hn)
      refine .trans ?_ ((hlater.cons t).trans hround.symm)
      rw [copied, List.cons_append, ← List.append_assoc]
      refine .cons t (.append_right _ (List.perm_append_comm.trans ?_))
      exact (List.reverse_perm _).symm.append_right _

theorem length_preorder_le (hx : x ∈ f) : (f.preorder x).length ≤ f.size :=
  length_le_size (h.nodup_preorder hx) fun _ => h.mem_of_mem_preorder hx

/-- What is copied is what a walk visits, though in another order. -/
theorem sources_perm (hx : x ∈ f) : (f.sources x).Perm (f.preorder x) := by
  have hn : ([x].flatMap f.preorder).length ≤ f.size := by
    rw [List.flatMap_singleton]
    exact h.length_preorder_le hx
  have hperm := h.perm_copied (List.forall_mem_singleton.2 hx) hn
  rwa [List.flatMap_singleton] at hperm

theorem mem_sources (hx : x ∈ f) : s ∈ f.sources x ↔ s ∈ f.preorder x :=
  (h.sources_perm hx).mem_iff

theorem nodup_sources (hx : x ∈ f) : (f.sources x).Nodup :=
  (h.sources_perm hx).nodup_iff.2 (h.nodup_preorder hx)

end Linked

end TreePath.Forest

namespace TreePath.Copying

open Forest

def next? : Copying → Option Copying
  | { waiting := [], .. } => none
  | { forest, waiting := (source, target) :: waiting } =>
    some (copyChildren source target { forest, waiting })

theorem next?_of_cons {s : Copying} {source target : ElementId}
    {waiting : List (ElementId × ElementId)} (hs : s.waiting = (source, target) :: waiting) :
    s.next? = some (copyChildren source target ⟨s.forest, waiting⟩) := by
  obtain ⟨f, _⟩ := s
  cases hs
  rfl

theorem run_of_waiting {s : Copying} (hs : s.waiting = []) (n : Nat) : s.run n = s := by
  obtain ⟨f, _⟩ := s
  cases hs
  cases n <;> rfl

theorem run_of_next {s u : Copying} (hs : s.next? = some u) (n : Nat) :
    s.run (n + 1) = u.run n := by
  obtain ⟨f, waiting⟩ := s
  cases waiting with
  | nil => cases hs
  | cons w waiting =>
    cases hs
    rfl

/-- What holds between two rounds where `x` is copied: these are copied so far, and the children of
those that wait are still to be copied. -/
structure Midway (f : Forest) (x : ElementId) (made ws : List ElementId) (s : Copying) : Prop where
  subset : ws ⊆ made
  nodup : ws.Nodup
  size_eq : s.forest.size = f.size + made.length
  waiting_eq : s.waiting = ws.map fun t => (t, f.copyOf x t)
  element_eq : ∀ y ∈ f, s.forest.element y = f.element y
  copy_eq : ∀ t ∈ made, s.forest.element (f.copyOf x t) =
    { f.copyElement x t with children := if t ∈ ws then [] else (f.children t).map (f.copyOf x) }

variable {f : Forest} {x t : ElementId} {made ws rest : List ElementId} {s : Copying} {m n : Nat}

theorem midway_start (f : Forest) (x : ElementId) : (f.startCopying x).Midway f x [x] [x] where
  subset _ := id
  nodup := List.nodup_singleton x
  size_eq := by simp [startCopying, copyNode, create, size]
  waiting_eq := by
    rw [List.map_singleton, copyOf_self]
    rfl
  element_eq y hy := by
    have hne : y ≠ (f.create (f.element x).toContent).1 := by
      rintro rfl
      exact create_notMem f _ hy
    rw [startCopying, copyNode, element_create, if_neg hne]
  copy_eq t ht := by
    cases List.mem_singleton.1 ht
    have hnew : f.copyOf x x = (f.create (f.element x).toContent).1 := copyOf_self f x
    simp only [startCopying, copyNode, copyElement, element_create, hnew, List.mem_singleton,
      if_true]

namespace Midway

variable (hs : s.Midway f x made (t :: ws))

include hs

theorem copyOf_mem (hsources : f.sources x = made ++ rest) {u : ElementId} (hu : u ∈ made) :
    f.copyOf x u ∈ s.forest := by
  have hlt := List.idxOf_lt_length_of_mem hu
  show f.size + (f.sources x).idxOf u < s.forest.size
  rw [hs.size_eq, hsources, List.idxOf_append_of_mem hu]
  omega

theorem copyChildren_eq (hmem : ∀ y ∈ f.sources x, y ∈ f) (hnodup : (f.sources x).Nodup)
    (hsources : f.sources x = made ++ (f.children t ++ rest))
    (waiting : List (ElementId × ElementId)) :
    copyChildren t (f.copyOf x t) ⟨s.forest, waiting⟩ =
      { forest := s.forest.createChildren (f.copyOf x t)
          ((f.children t).map fun c => (f.element c).toContent)
        waiting := (f.children t).reverse.map (fun c => (c, f.copyOf x c)) ++ waiting } := by
  have hchildren : s.forest.children t = f.children t := by
    rw [children, hs.element_eq t, children]
    exact hmem t (hsources ▸ List.mem_append_left _ (hs.subset List.mem_cons_self))
  have hcontents : (f.children t).map (fun c => (s.forest.element c).toContent) =
      (f.children t).map fun c => (f.element c).toContent := by
    refine List.map_congr_left fun c hc => ?_
    rw [hs.element_eq c]
    exact hmem c (hsources ▸ List.mem_append_right _ (List.mem_append_left _ hc))
  have hcopies := map_copyOf hnodup hsources
  rw [← hs.size_eq] at hcopies
  have hpairs : (f.children t).zip ((f.children t).map (f.copyOf x)) =
      (f.children t).map fun c => (c, f.copyOf x c) := by
    rw [List.zip_map_right, List.zip_eq_zipWith, List.zipWith_self, List.map_map]
    rfl
  simp only [copyChildren, hchildren, hcontents, ← hcopies, hpairs, List.map_reverse]

theorem copy_eq_of_made (hsources : f.sources x = made ++ (f.children t ++ rest))
    (hapart : ∀ u ∈ made, u ∉ f.children t)
    (hcopies : (f.children t).map (f.copyOf x) =
      (List.range' s.forest.size (f.children t).length).map ElementId.mk)
    {u : ElementId} (hu : u ∈ made) (contents : List Content)
    (hlength : contents.length = (f.children t).length) :
    (s.forest.createChildren (f.copyOf x t) contents).element (f.copyOf x u) =
      { f.copyElement x u with
        children := if u ∈ (f.children t).reverse ++ ws then []
          else (f.children u).map (f.copyOf x) } := by
  have hold := hs.copy_eq u hu
  rw [element_createChildren_of_mem _ _ (hs.copyOf_mem hsources hu), children, hold, hlength,
    ← hcopies]
  obtain ⟨htws, -⟩ := List.nodup_cons.1 hs.nodup
  by_cases hut : u = t
  · subst hut
    simp [hapart u hu, htws]
  · have hne : f.copyOf x u ≠ f.copyOf x t := by
      refine mt (copyOf_inj ?_) hut
      exact hsources ▸ List.mem_append_left _ hu
    simp [hne, hapart u hu, hut]

theorem copy_eq_of_child (h : f.Linked) (hx : x ∈ made)
    (hsources : f.sources x = made ++ (f.children t ++ rest))
    (hapart : ∀ u ∈ made, u ∉ f.children t)
    (hcopies : (f.children t).map (f.copyOf x) =
      (List.range' s.forest.size (f.children t).length).map ElementId.mk)
    {u : ElementId} (hu : u ∈ f.children t) :
    (s.forest.createChildren (f.copyOf x t)
        ((f.children t).map fun c => (f.element c).toContent)).element (f.copyOf x u) =
      { f.copyElement x u with children := [] } := by
  obtain ⟨i, hi, rfl⟩ := List.getElem_of_mem hu
  have hcopy : f.copyOf x (f.children t)[i] = ⟨s.forest.size + i⟩ := by
    have hat := congrArg (·[i]?) hcopies
    simpa [hi] using hat
  have hup : f.parent? (f.children t)[i] = some t := h.up_of_mem hu
  have hne : (f.children t)[i] ≠ x := by
    intro he
    exact hapart x hx (he ▸ hu)
  have htarget := hs.copyOf_mem hsources (hs.subset List.mem_cons_self)
  rw [hcopy, element_createChildren_new htarget (by rwa [List.length_map])]
  simp [copyElement, hne, hup]

/-- A round copies the children of the element that waits first. -/
theorem next (h : f.Linked) (hx : x ∈ f) (hxs : x ∈ made)
    (hsources : f.sources x = made ++ (f.children t ++ rest)) :
    ∃ u, s.next? = some u ∧
      u.Midway f x (made ++ f.children t) ((f.children t).reverse ++ ws) := by
  have hnodup := h.nodup_sources hx
  have hmem : ∀ y ∈ f.sources x, y ∈ f := fun y hy =>
    h.mem_of_mem_preorder hx ((h.mem_sources hx).1 hy)
  have hapart : ∀ u ∈ made, u ∉ f.children t := by
    intro u hu hc
    rw [hsources] at hnodup
    exact (List.nodup_append.1 hnodup).2.2 u hu u (List.mem_append_left _ hc) rfl
  have hcopies := map_copyOf hnodup hsources
  rw [← hs.size_eq] at hcopies
  have hwaiting := hs.waiting_eq
  rw [List.map_cons] at hwaiting
  have hround := hs.copyChildren_eq hmem hnodup hsources (ws.map fun t => (t, f.copyOf x t))
  rw [← List.map_append] at hround
  refine ⟨_, (next?_of_cons hwaiting).trans (congrArg some hround), ?_, ?_, ?_, rfl,
    fun y hy => ?_, fun u hu => ?_⟩
  · intro u hu
    rcases List.mem_append.1 hu with hc | hu
    · exact List.mem_append_right _ (List.mem_reverse.1 hc)
    · exact List.mem_append_left _ (hs.subset (List.mem_cons_of_mem _ hu))
  · have hws := (List.nodup_cons.1 hs.nodup).2
    refine List.nodup_append.2 ⟨List.nodup_reverse.2 (h.nodup_children t), hws, ?_⟩
    rintro u hc v hv rfl
    exact hapart u (hs.subset (List.mem_cons_of_mem _ hv)) (List.mem_reverse.1 hc)
  · rw [size_createChildren, hs.size_eq, List.length_map, List.length_append, Nat.add_assoc]
  · have hyg : y ∈ s.forest := by
      have hlt : y.index < f.size := hy
      show y.index < s.forest.size
      rw [hs.size_eq]
      omega
    have hne : y ≠ f.copyOf x t := by
      rintro rfl
      exact copyOf_notMem f x t hy
    rw [element_createChildren_of_mem _ _ hyg, if_neg hne, hs.element_eq y hy]
  · rcases List.mem_append.1 hu with hu | hc
    · exact hs.copy_eq_of_made hsources hapart hcopies hu _ (List.length_map _)
    · rw [hs.copy_eq_of_child h hxs hsources hapart hcopies hc,
        if_pos (List.mem_append_left _ (List.mem_reverse.2 hc))]

end Midway

theorem Midway.mem_of_waiting (h : f.Linked) (hx : x ∈ f) (hs : s.Midway f x made ws)
    (hsources : f.sources x = made ++ rest) (ht : t ∈ ws) : t ∈ f := by
  apply h.mem_of_mem_preorder hx
  rw [← h.mem_sources hx, hsources]
  exact List.mem_append_left _ (hs.subset ht)

theorem Midway.run (h : f.Linked) (hx : x ∈ f) (hs : s.Midway f x made ws) (hxs : x ∈ made)
    (hn : (ws.flatMap f.preorder).length ≤ n) (hsources : f.sources x = made ++ f.copied n ws) :
    (s.run n).Midway f x (f.sources x) [] := by
  induction n generalizing s made ws with
  | zero =>
    cases ws with
    | nil =>
      rw [copied_nil, List.append_nil] at hsources
      rwa [hsources]
    | cons t ws =>
      have ht := hs.mem_of_waiting h hx hsources List.mem_cons_self
      rw [(h.flatMap_preorder_perm ht ws).length_eq] at hn
      cases hn
  | succ n ih =>
    cases ws with
    | nil =>
      rw [copied_nil, List.append_nil] at hsources
      rwa [hsources, run_of_waiting (by rw [hs.waiting_eq, List.map_nil])]
    | cons t ws =>
      have ht := hs.mem_of_waiting h hx hsources List.mem_cons_self
      obtain ⟨u, hnext, hu⟩ := hs.next h hx hxs hsources
      rw [(h.flatMap_preorder_perm ht ws).length_eq] at hn
      rw [run_of_next hnext]
      apply ih hu (List.mem_append_left _ hxs) (Nat.le_of_succ_le_succ hn)
      rw [hsources, copied, List.append_assoc]

/-- Where the bound of the loop is reached, everything is copied. -/
theorem midway_end (h : f.Linked) (hx : x ∈ f) :
    ((f.startCopying x).run f.size).Midway f x (f.sources x) [] := by
  refine (midway_start f x).run h hx List.mem_cons_self ?_ rfl
  rw [List.flatMap_singleton]
  exact h.length_preorder_le hx

end TreePath.Copying
