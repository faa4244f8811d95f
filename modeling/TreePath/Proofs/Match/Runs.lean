import TreePath.Proofs.Except
import TreePath.Proofs.Forest.Edits
import TreePath.Proofs.Match.Occurrences
import TreePath.Proofs.Path.Grammar
import TreePath.Request

namespace TreePath

namespace Step

/-- A step of a kind that every element can be asked for. -/
def IsKnown (s : Step) : Prop :=
  ∀ label, s.kind ≠ .other label

variable {s : Step}

theorem isKnown_iff : s.IsKnown ↔ s.kind.isKnown = true := by
  unfold IsKnown
  cases s.kind with
  | other label => exact ⟨fun h => (h label rfl).elim, nofun⟩
  | _ => exact ⟨fun _ => rfl, fun _ => nofun⟩

instance : DecidablePred IsKnown := fun _ => decidable_of_iff _ isKnown_iff.symm

theorem Spelling.isKnown {sp : List Char} (h : Spelling s sp) : s.IsKnown := by
  cases h <;> exact nofun

theorem isKnown_of_ofText {text : String} {tokens : List Step} (h : ofText text = .ok tokens)
    (hs : s ∈ tokens) : s.IsKnown := by
  obtain ⟨sp, hsp⟩ := exists_spelling_of_ofText h hs
  exact hsp.isKnown

end Step

namespace Forest

/-- Everything that a step yields for the members, in their order, repetitions included. -/
def plainStep (f : Forest) (members : List ElementId) (s : Step) :
    Except UnsupportedStep (List ElementId) := do
  let parts ← members.mapM (f.apply s)
  return parts.flatten

/-- Takes all steps and drops nothing on the way. -/
def plainRun (f : Forest) (steps : List Step) (members : List ElementId) :
    Except UnsupportedStep (List ElementId) :=
  steps.foldlM f.plainStep members

/-- The plain run of steps that every element can be asked for. -/
def flow (f : Forest) (steps : List Step) (members : List ElementId) : List ElementId :=
  steps.foldl (fun members s => members.flatMap (f.results s)) members

variable {f : Forest} {s : Step} {steps : List Step}

@[simp] theorem flow_cons (s : Step) (steps : List Step) (members : List ElementId) :
    f.flow (s :: steps) members = f.flow steps (members.flatMap (f.results s)) := rfl

theorem flow_append (steps steps' : List Step) (members : List ElementId) :
    f.flow (steps ++ steps') members = f.flow steps' (f.flow steps members) :=
  List.foldl_append

theorem flow_members_append (steps : List Step) (xs ys : List ElementId) :
    f.flow steps (xs ++ ys) = f.flow steps xs ++ f.flow steps ys := by
  induction steps generalizing xs ys with
  | nil => rfl
  | cons s steps ih => rw [flow_cons, List.flatMap_append, ih, flow_cons, flow_cons]

theorem flow_members_nil (steps : List Step) : f.flow steps [] = [] := by
  induction steps with
  | nil => rfl
  | cons s steps ih => exact ih

theorem flow_flatMap (steps : List Step) (members : List ElementId)
    (g : ElementId → List ElementId) :
    f.flow steps (members.flatMap g) = members.flatMap fun x => f.flow steps (g x) := by
  induction members with
  | nil => exact flow_members_nil steps
  | cons x members ih => rw [List.flatMap_cons, List.flatMap_cons, flow_members_append, ih]

theorem results_of_isNoOp (h : s.isNoOp = true) (x : ElementId) : f.results s x = [x] := by
  rw [Step.isNoOp, Bool.or_eq_true, decide_eq_true_iff, decide_eq_true_iff] at h
  unfold results
  rcases h with h | h <;> rw [h]

theorem results_child (hs : s.kind = .child) : f.results s = f.children := by
  funext x
  rw [results, hs]

theorem results_descendantOrSelf (hs : s.kind = .descendantOrSelf) : f.results s = f.preorder := by
  funext x
  rw [results, hs]

theorem results_parent (hs : s.kind = .parent) (x : ElementId) :
    f.results s x = (f.parent? x).toList := by
  rw [results, hs]

theorem results_test_cases (f : Forest) (hchild : s.kind ≠ .child)
    (hdown : s.kind ≠ .descendantOrSelf) (hparent : s.kind ≠ .parent) (x : ElementId) :
    f.results s x = [] ∨ f.results s x = [x] := by
  have test (b : Bool) : (if b then [x] else []) = [] ∨ (if b then [x] else []) = [x] := by
    cases b with
    | false => exact .inl rfl
    | true => exact .inr rfl
  unfold results
  cases hs : s.kind with
  | child => exact (hchild hs).elim
  | descendantOrSelf => exact (hdown hs).elim
  | parent => exact (hparent hs).elim
  | tag => exact test _
  | hasAttribute =>
    cases s.name.bind (f.attribute? x) with
    | none => exact .inl rfl
    | some actual => exact test _
  | hasChild => exact test _
  | self => exact .inr rfl
  | wildcard => exact .inr rfl
  | other label => exact .inl rfl

theorem results_cases (f : Forest) (s : Step) (x : ElementId) :
    f.results s x = f.children x ∨ f.results s x = f.preorder x ∨
      f.results s x = (f.parent? x).toList ∨ f.results s x = [] ∨ f.results s x = [x] := by
  by_cases hchild : s.kind = .child
  · rw [results_child hchild]
    exact .inl rfl
  by_cases hdown : s.kind = .descendantOrSelf
  · rw [results_descendantOrSelf hdown]
    exact .inr (.inl rfl)
  by_cases hparent : s.kind = .parent
  · rw [results_parent hparent]
    exact .inr (.inr (.inl rfl))
  · exact .inr (.inr (.inr (f.results_test_cases hchild hdown hparent x)))

theorem flow_filter_isNoOp (steps : List Step) (members : List ElementId) :
    f.flow (steps.filter (!·.isNoOp)) members = f.flow steps members := by
  induction steps generalizing members with
  | nil => rfl
  | cons s steps ih =>
    by_cases hs : s.isNoOp = true
    · have hsame : members.flatMap (f.results s) = members := by
        rw [funext (results_of_isNoOp hs)]
        exact List.flatMap_singleton' members
      rw [List.filter_cons_of_neg (by simpa using hs), ih, flow_cons, hsame]
    · rw [List.filter_cons_of_pos (by simpa using hs), flow_cons, flow_cons, ih]

theorem apply_of_isKnown (hs : s.IsKnown) (x : ElementId) : f.apply s x = .ok (f.results s x) := by
  unfold apply
  split
  · next label hkind => exact (hs label hkind).elim
  · rfl

theorem plainStep_of_isKnown (hs : s.IsKnown) (members : List ElementId) :
    f.plainStep members s = .ok (members.flatMap (f.results s)) := by
  have hparts : members.mapM (f.apply s) = .ok (members.map (f.results s)) := by
    rw [funext (apply_of_isKnown hs)]
    exact List.mapM_pure
  rw [plainStep, hparts, List.flatMap_def]
  rfl

theorem plainRun_of_isKnown (h : ∀ s ∈ steps, s.IsKnown) (members : List ElementId) :
    f.plainRun steps members = .ok (f.flow steps members) := by
  induction steps generalizing members with
  | nil => rfl
  | cons s steps ih =>
    rw [plainRun, List.foldlM_cons, plainStep_of_isKnown (h s List.mem_cons_self)]
    exact ih (fun t ht => h t (List.mem_cons_of_mem s ht)) _

theorem gather_holds (s : Step) (members : List ElementId) :
    (f.gather s members).Holds (members.flatMap (f.results s)) := by
  rw [gather, ← List.foldl_flatMap]
  exact Gathered.holds_foldl_add _

theorem advance_of_isKnown (hs : s.IsKnown) (sel : Selection) :
    f.advance sel s = .ok
      { members := (sel.members.flatMap (f.results s)).eraseDups
        yielded := sel.yielded + (sel.members.flatMap (f.results s)).length } := by
  rw [← (gather_holds s sel.members).toList_eq, ← (gather_holds s sel.members).count_eq]
  unfold advance
  split
  · next label x xs hkind _ => exact (hs label hkind).elim
  · rfl

theorem advance_eq {sel : Selection} (h : s.IsKnown ∨ sel.members = []) :
    f.advance sel s = .ok
      { members := (sel.members.flatMap (f.results s)).eraseDups
        yielded := sel.yielded + (sel.members.flatMap (f.results s)).length } := by
  rcases h with hs | hm
  · exact advance_of_isKnown hs sel
  · rw [← (gather_holds s sel.members).toList_eq, ← (gather_holds s sel.members).count_eq]
    unfold advance
    rw [hm]
    split
    · next hcons => cases hcons
    · rfl

theorem exists_other {sel : Selection} (h : ¬ (s.IsKnown ∨ sel.members = [])) :
    ∃ label, s.kind = .other label ∧ sel.members ≠ [] := by
  obtain ⟨hs, hm⟩ := not_or.1 h
  obtain ⟨label, hlabel⟩ := not_forall.1 hs
  exact ⟨label, not_not.1 hlabel, hm⟩

theorem advance_of_other {sel : Selection} {label : String} (hs : s.kind = .other label)
    (hm : sel.members ≠ []) : f.advance sel s = .error ⟨label⟩ := by
  obtain ⟨y, ys, hcons⟩ := List.exists_cons_of_ne_nil hm
  unfold advance
  rw [hs, hcons]

theorem eq_of_advance {sel next : Selection} (h : f.advance sel s = .ok next) :
    next = { members := (sel.members.flatMap (f.results s)).eraseDups
             yielded := sel.yielded + (sel.members.flatMap (f.results s)).length } := by
  by_cases hs : s.IsKnown ∨ sel.members = []
  · rw [advance_eq hs] at h
    exact (Except.ok.inj h).symm
  · obtain ⟨label, hlabel, hm⟩ := exists_other hs
    rw [advance_of_other hlabel hm] at h
    cases h

theorem select_eq (f : Forest) (p : Path) (x : ElementId) : f.select p x =
    p.steps.foldlM f.advance { members := (f.seedMembers p.seed x).eraseDups } := by
  rw [select, (Gathered.holds_foldl_add _).toList_eq]

/-- How many elements the steps yield, each for the members that are left of what the steps before
it have yielded when repetitions are dropped. -/
def fanOut (f : Forest) : List Step → List ElementId → Nat
  | [], _ => 0
  | s :: steps, members =>
    let yielded := members.flatMap (f.results s)
    yielded.length + f.fanOut steps yielded.eraseDups

theorem yielded_foldlM_advance {sel found : Selection}
    (h : steps.foldlM f.advance sel = .ok found) :
    found.yielded = sel.yielded + f.fanOut steps sel.members := by
  induction steps generalizing sel with
  | nil =>
    cases h
    rfl
  | cons s steps ih =>
    rw [List.foldlM_cons] at h
    obtain ⟨next, hnext, h⟩ := Except.exists_of_bind_eq_ok h
    obtain rfl := eq_of_advance hnext
    rw [ih h, fanOut, Nat.add_assoc]

theorem yielded_select {p : Path} {x : ElementId} {found : Selection}
    (h : f.select p x = .ok found) :
    found.yielded = f.fanOut p.steps (f.seedMembers p.seed x).eraseDups := by
  rw [select_eq] at h
  rw [yielded_foldlM_advance h, Nat.zero_add]

/-- Repetitions may be dropped after every step or at the end. -/
theorem foldlM_advance (h : ∀ s ∈ steps, s.IsKnown) {sel : Selection} {xs : List ElementId}
    (hsel : sel.members = xs.eraseDups) :
    ∃ found, steps.foldlM f.advance sel = .ok found ∧
      found.members = (f.flow steps xs).eraseDups := by
  induction steps generalizing sel xs with
  | nil => exact ⟨sel, rfl, hsel⟩
  | cons s steps ih =>
    rw [List.foldlM_cons, advance_of_isKnown (h s List.mem_cons_self)]
    -- The members stay the first occurrences in what the plain run has reached.
    refine ih (fun t ht => h t (List.mem_cons_of_mem s ht)) ?_
    rw [hsel, List.eraseDups_flatMap_eraseDups]

theorem select_of_isKnown {p : Path} (h : ∀ s ∈ p.steps, s.IsKnown) (x : ElementId) :
    ∃ found, f.select p x = .ok found ∧
      found.members = (f.flow p.steps (f.seedMembers p.seed x)).eraseDups :=
  foldlM_advance h (Gathered.holds_foldl_add _).toList_eq

theorem select_eq_of_isKnown {p : Path} (h : ∀ s ∈ p.steps, s.IsKnown) (x : ElementId) :
    f.select p x = .ok
      { members := (f.flow p.steps (f.seedMembers p.seed x)).eraseDups
        yielded := f.fanOut p.steps (f.seedMembers p.seed x).eraseDups } := by
  obtain ⟨found, hfound, hmembers⟩ := f.select_of_isKnown h x
  rw [hfound, ← hmembers, ← yielded_select hfound]

theorem select_of_ofText {text : String} {tokens : List Step} (h : Step.ofText text = .ok tokens)
    (x : ElementId) :
    ∃ found, f.select ⟨text, Seed.ofText text, tokens.filter (!·.isNoOp)⟩ x = .ok found ∧
      found.members = (f.flow tokens (f.seedMembers (Seed.ofText text) x)).eraseDups := by
  have hkept : ∀ s ∈ tokens.filter (!·.isNoOp), s.IsKnown :=
    fun s hs => Step.isKnown_of_ofText h (List.mem_filter.1 hs).1
  obtain ⟨found, hfound, hmembers⟩ := f.select_of_isKnown (p := ⟨text, Seed.ofText text, _⟩) hkept x
  rw [flow_filter_isNoOp] at hmembers
  exact ⟨found, hfound, hmembers⟩

theorem exists_select_of_ofText {text : String} {p : Path} (f : Forest)
    (h : Path.ofText text = .ok p) (x : ElementId) : ∃ found, f.select p x = .ok found := by
  obtain ⟨steps, hsteps, rfl⟩ := Path.exists_steps_of_ofText h
  obtain ⟨found, hfound, _⟩ := f.select_of_ofText hsteps x
  exact ⟨found, hfound⟩

def findAll (f : Forest) (text : String) (x : ElementId) : Except QueryFault (List ElementId) := do
  let p ← (Path.ofText text).mapError .malformed
  let found ← (f.select p x).mapError .unsupported
  return found.members

theorem findAll_of_select {text : String} {p : Path} {x : ElementId} {found : Selection}
    (hp : Path.ofText text = .ok p) (h : f.select p x = .ok found) :
    f.findAll text x = .ok found.members := by
  rw [findAll, hp]
  show ((f.select p x).mapError _ >>= _) = _
  rw [h]
  rfl

theorem findAll_of_ofText {text : String} {tokens : List Step} (h : Step.ofText text = .ok tokens)
    (x : ElementId) :
    f.findAll text x = .ok (f.flow tokens (f.seedMembers (Seed.ofText text) x)).eraseDups := by
  obtain ⟨found, hfound, hmembers⟩ := f.select_of_ofText h x
  rw [findAll_of_select (Path.ofText_eq_ok h) hfound, hmembers]

/-- A path finds the first occurrences in the plain run of all steps of its text. It makes no
difference whether steps without effect are taken. -/
theorem select_eq_plainRun (f : Forest) (x : ElementId) {text : String} {tokens : List Step}
    (h : Step.ofText text = .ok tokens) :
    ∃ p found whole plain,
      Path.ofText text = .ok p ∧ f.select p x = .ok found ∧
      f.select { p with steps := tokens } x = .ok whole ∧
      f.plainRun tokens (f.seedMembers (Seed.ofText text) x) = .ok plain ∧
      f.plainRun p.steps (f.seedMembers (Seed.ofText text) x) = .ok plain ∧
      found.members = plain.eraseDups ∧ whole.members = plain.eraseDups ∧ found.members.Nodup := by
  have hknown : ∀ s ∈ tokens, s.IsKnown := fun s hs => Step.isKnown_of_ofText h hs
  have hkept : ∀ s ∈ tokens.filter (!·.isNoOp), s.IsKnown :=
    fun s hs => hknown s (List.mem_filter.1 hs).1
  obtain ⟨found, hfound, hmembers⟩ := f.select_of_isKnown (p := ⟨text, Seed.ofText text, _⟩) hkept x
  obtain ⟨whole, hwhole, hsame⟩ := f.select_of_isKnown (p := ⟨text, Seed.ofText text, _⟩) hknown x
  rw [flow_filter_isNoOp] at hmembers
  refine ⟨_, found, whole, _, Path.ofText_eq_ok h, hfound, hwhole, plainRun_of_isKnown hknown _, ?_,
    hmembers, hsame, hmembers ▸ List.nodup_eraseDups⟩
  rw [plainRun_of_isKnown hkept, flow_filter_isNoOp]

theorem select_eq_plainRun_grove :
    let tokens := [Step.descendantOrSelf, Step.descendantOrSelf, Step.wildcard]
    Step.ofText "////*" = .ok tokens ∧
      grove.plainRun tokens [⟨0⟩] = .ok [⟨0⟩, ⟨1⟩, ⟨1⟩] ∧
      ∃ p found, Path.ofText "////*" = .ok p ∧ p.steps = tokens.dropLast ∧
        grove.select p ⟨1⟩ = .ok found ∧ found.members = [⟨0⟩, ⟨1⟩] := by
  intro tokens
  have h : Step.ofText "////*" = .ok tokens := by
    rw [Step.ofText_eq_ok_iff, Step.scan_of_some rfl, Step.scan_of_some rfl,
      Step.scan_of_some rfl, Step.scan_of_none rfl]
  have hplain : grove.plainRun tokens [⟨0⟩] = .ok [⟨0⟩, ⟨1⟩, ⟨1⟩] := rfl
  obtain ⟨p, found, -, plain, hp, hfound, -, hrun, -, hmembers, -⟩ :=
    grove.select_eq_plainRun ⟨1⟩ h
  cases hp.symm.trans (Path.ofText_eq_ok h)
  cases hrun.symm.trans hplain
  exact ⟨h, hplain, _, found, hp, rfl, hfound, hmembers⟩

end Forest

end TreePath
