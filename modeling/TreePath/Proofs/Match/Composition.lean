import TreePath.Proofs.Match.Runs
import TreePath.Proofs.Path.Joint
import TreePath.Proofs.Workspace.Queries

namespace TreePath

namespace Forest

variable {f : Forest}

theorem eraseDups_flatMap_flow (members : List ElementId) (steps : List Step)
    (g : ElementId → List ElementId) :
    (members.eraseDups.flatMap fun x => (f.flow steps (g x)).eraseDups).eraseDups =
      (f.flow steps (members.flatMap g)).eraseDups := by
  rw [flow_flatMap, List.eraseDups_flatMap_eraseDups]
  exact List.eraseDups_flatMap_congr members fun _ _ => List.eraseDups_eraseDups

theorem mapM_findAll {text : String} {tokens : List Step} (h : Step.ofText text = .ok tokens)
    (xs : List ElementId) :
    xs.mapM (f.findAll text) =
      .ok (xs.map fun x => (f.flow tokens (f.seedMembers (Seed.ofText text) x)).eraseDups) := by
  rw [funext (findAll_of_ofText h)]
  exact List.mapM_pure

/-- A text that begins with neither a slash nor a dot may be asked for behind a slash or from each
element that is found before it. So it is with every matcher that answers, and it goes on
answering. -/
theorem findAll_join (f : Forest) (n : ElementId) {e₁ e₂ : String} {tokens₁ tokens₂ : List Step}
    (hne : e₁ ≠ "") (h₁ : Step.ofText e₁ = .ok tokens₁) (h₂ : Step.ofText e₂ = .ok tokens₂)
    (hlast : ∀ s ∈ tokens₁.getLast?, s.kind ≠ .child)
    (hhead : ∀ c ∈ e₂.toList.head?, c ≠ '/' ∧ c ≠ '.') :
    (Path.ofText (e₁ ++ "/" ++ e₂)).isOk = true ∧
    (∃ xs parts, f.findAll e₁ n = .ok xs ∧ xs.mapM (f.findAll e₂) = .ok parts ∧
      f.findAll (e₁ ++ "/" ++ e₂) n = .ok parts.flatten.eraseDups) ∧
    ∀ (w : Workspace) (m : Slot Matcher), w.forest = f → w.Answers m → ∀ text x,
      (w.findAll m x (.text text)).1 = f.findAll text x ∧
      (w.findAll m x (.text text)).2.forest = f ∧ (w.findAll m x (.text text)).2.Answers m := by
  have hjoin := Step.ofText_join h₁ h₂ hlast hhead
  refine ⟨?_, ⟨_, _, findAll_of_ofText h₁ n, mapM_findAll h₂ _, ?_⟩, ?_⟩
  · rw [Path.ofText_eq_ok hjoin]
    rfl
  · rw [findAll_of_ofText hjoin, String.append_assoc, Seed.ofText_append hne,
      Seed.ofText_of_head hhead, ← List.flatMap_def, flow_append, flow_cons]
    exact congrArg _ (eraseDups_flatMap_flow _ tokens₂ f.children).symm
  · rintro w m rfl hw text x
    exact ⟨hw.findAll_text text x, w.forest_findAll m x (.text text), hw.findAll x (.text text)⟩

theorem findAll_join_grove :
    let w : Workspace := ({ forest := grove } : Workspace).ensureDefault.2
    let m : Slot Matcher := ({ forest := grove } : Workspace).ensureDefault.1
    Step.ofText ".." = .ok [.parent] ∧ Step.ofText "b" = .ok [.tag "b"] ∧
      (w.findAll m ⟨1⟩ (.text "..")).1 = .ok [⟨0⟩] ∧
      (w.findAll m ⟨0⟩ (.text "b")).1 = .ok [⟨1⟩] ∧
      (w.findAll m ⟨1⟩ (.text (".." ++ "/" ++ "b"))).1 = .ok [⟨1⟩] := by
  intro w m
  have h₁ : Step.ofText ".." = .ok [.parent] := by
    rw [Step.ofText_eq_ok_iff, Step.scan_of_some rfl, Step.scan_of_none rfl]
  have hread : Step.read? "b".toList = some (.tag "b", []) := by decide
  have h₂ : Step.ofText "b" = .ok [.tag "b"] := by
    rw [Step.ofText_eq_ok_iff, Step.scan_of_some hread, Step.scan_of_none rfl]
  have hup : grove.findAll ".." ⟨1⟩ = .ok [⟨0⟩] := findAll_of_ofText h₁ ⟨1⟩
  have hdown : grove.findAll "b" ⟨0⟩ = .ok [⟨1⟩] := findAll_of_ofText h₂ ⟨0⟩
  have hlast : ∀ s ∈ [Step.parent].getLast?, s.kind ≠ .child := by
    rintro s ⟨⟩
    exact nofun
  have hhead : ∀ c ∈ "b".toList.head?, c ≠ '/' ∧ c ≠ '.' := by
    rintro c ⟨⟩
    decide
  obtain ⟨-, ⟨xs, parts, hxs, hparts, hjoin⟩, hmatcher⟩ :=
    grove.findAll_join ⟨1⟩ (by decide) h₁ h₂ hlast hhead
  cases hxs.symm.trans hup
  have hone : [⟨0⟩].mapM (grove.findAll "b") = .ok [[⟨1⟩]] := by
    rw [List.mapM_cons, hdown]
    rfl
  cases hparts.symm.trans hone
  have hfound := hmatcher w m (Workspace.forest_ensureDefault _)
    (Workspace.answers_ensureDefault rfl)
  exact ⟨h₁, h₂, (hfound ".." ⟨1⟩).1.trans hup, (hfound "b" ⟨0⟩).1.trans hdown,
    (hfound (".." ++ "/" ++ "b") ⟨1⟩).1.trans hjoin⟩

end Forest

end TreePath
