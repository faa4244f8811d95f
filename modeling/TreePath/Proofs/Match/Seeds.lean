import TreePath.Proofs.Path.Joint
import TreePath.Proofs.Workspace.Transparency

namespace TreePath

variable {e : String} {tokens : List Step}

theorem Seed.ofText_of_slash (h : e.toList.head? = some '/') : Seed.ofText e = .root := by
  obtain ⟨cs, hcs⟩ := List.head?_eq_some_iff.1 h
  rw [Seed.ofText, hcs]
  rfl

theorem Path.seed_of_ofText {p : Path} (h : Path.ofText e = .ok p) : p.seed = Seed.ofText e := by
  obtain ⟨steps, -, rfl⟩ := exists_steps_of_ofText h
  rfl

namespace Step

theorem ofText_slash (h : ofText e = .ok tokens) (hhead : ∀ c ∈ e.toList.head?, c ≠ '/' ∧ c ≠ '.') :
    ofText ("/" ++ e) = .ok (child :: tokens) := by
  rw [ofText_eq_ok_iff] at h ⊢
  rw [String.toList_append]
  show scan ('/' :: e.toList) = _
  rw [scan_slash hhead, h]

theorem ofText_dot_slash (h : ofText e = .ok tokens)
    (hhead : ∀ c ∈ e.toList.head?, c ≠ '/' ∧ c ≠ '.') :
    ofText ("./" ++ e) = .ok (self :: child :: tokens) := by
  have hdot : ofText "." = .ok [self] := by
    rw [ofText_eq_ok_iff, scan_of_some rfl, scan_of_none rfl]
  have hlast : ∀ s ∈ [self].getLast?, s.kind ≠ .child := by
    rintro s ⟨⟩
    exact nofun
  have hjoin := ofText_join hdot h hlast hhead
  rwa [show "." ++ "/" = "./" from rfl] at hjoin

end Step

namespace Forest

variable {f : Forest} {m n : ElementId}

theorem findAll_slash (h : Step.ofText e = .ok tokens)
    (hhead : ∀ c ∈ e.toList.head?, c ≠ '/' ∧ c ≠ '.') (n : ElementId) :
    f.findAll ("/" ++ e) n = f.findAll e (f.root n) := by
  have hslash : ("/" ++ e).toList.head? = some '/' := by
    rw [String.toList_append]
    rfl
  rw [findAll_of_ofText (Step.ofText_slash h hhead), findAll_of_ofText h,
    Seed.ofText_of_slash hslash, Seed.ofText_of_head hhead]
  -- The step for the slash turns the root into its children.
  show Except.ok (f.flow tokens ([f.root n].flatMap f.children)).eraseDups = _
  rw [List.flatMap_singleton]
  rfl

theorem findAll_dot_slash (h : Step.ofText e = .ok tokens)
    (hhead : ∀ c ∈ e.toList.head?, c ≠ '/' ∧ c ≠ '.') (n : ElementId) :
    f.findAll ("./" ++ e) n = f.findAll e n := by
  have hself : Seed.ofText ("./" ++ e) = .self := by
    rw [Seed.ofText, String.toList_append]
    rfl
  rw [findAll_of_ofText (Step.ofText_dot_slash h hhead), findAll_of_ofText h, hself,
    Seed.ofText_of_head hhead]
  show Except.ok (f.flow tokens (([n].flatMap fun x => [x]).flatMap f.children)).eraseDups = _
  rw [List.flatMap_singleton, List.flatMap_singleton]
  rfl

theorem findAll_of_root_eq (hslash : e.toList.head? = some '/') (hroot : f.root m = f.root n) :
    f.findAll e m = f.findAll e n := by
  cases hp : Path.ofText e with
  | error fault => rw [findAll, findAll, hp]; rfl
  | ok p =>
    have hseed : p.seed = .root := (Path.seed_of_ofText hp).trans (Seed.ofText_of_slash hslash)
    have hselect : f.select p m = f.select p n := by
      rw [select_eq, select_eq, hseed, seedMembers, seedMembers, hroot]
    rw [findAll, findAll, hp]
    show ((f.select p m).mapError _ >>= _) = ((f.select p n).mapError _ >>= _)
    rw [hselect]

/-- A slash in front of a path text asks for the text at the root, a dot and a slash in front of it
change nothing, and a text that begins with a slash is answered alike from everywhere in a tree. So
it is for every matcher, whatever was done before. -/
theorem findAll_seeds (f : Forest) (m n : ElementId) :
    (∀ e, (Path.ofText e).isOk = true → (∀ c ∈ e.toList.head?, c ≠ '/' ∧ c ≠ '.') →
      (∃ xs, f.findAll ("/" ++ e) n = .ok xs ∧ f.findAll e (f.root n) = .ok xs) ∧
      (∃ xs, f.findAll ("./" ++ e) n = .ok xs ∧ f.findAll e n = .ok xs)) ∧
    (∀ e, (Path.ofText e).isOk = true → e.toList.head? = some '/' → f.root m = f.root n →
      ∃ xs, f.findAll e m = .ok xs ∧ f.findAll e n = .ok xs) ∧
    ∀ w, Workspace.Reached f w → ∀ via text x,
      (w.findAllBy via x (.text text)).1 = f.findAll text x := by
  refine ⟨fun e he hhead => ?_, fun e he hslash hroot => ?_, fun w hw via text x => ?_⟩
  · obtain ⟨tokens, htokens⟩ := Path.exists_steps_of_isOk he
    rw [findAll_slash htokens hhead, findAll_dot_slash htokens hhead]
    exact ⟨⟨_, findAll_of_ofText htokens _, findAll_of_ofText htokens _⟩,
      ⟨_, findAll_of_ofText htokens n, findAll_of_ofText htokens n⟩⟩
  · obtain ⟨tokens, htokens⟩ := Path.exists_steps_of_isOk he
    rw [findAll_of_root_eq hslash hroot]
    exact ⟨_, findAll_of_ofText htokens n, findAll_of_ofText htokens n⟩
  · exact hw.serves.findAllBy_text text

theorem findAll_seeds_grove :
    (Path.ofText "b").isOk = true ∧ (∀ c ∈ "b".toList.head?, c ≠ '/' ∧ c ≠ '.') ∧
      grove.root ⟨1⟩ = grove.root ⟨0⟩ ∧ Workspace.Reached grove { forest := grove } ∧
      ∀ via, (Workspace.findAllBy { forest := grove } via ⟨1⟩ (.text ("/" ++ "b"))).1 = .ok [⟨1⟩] ∧
        (Workspace.findAllBy { forest := grove } via ⟨1⟩ (.text ("./" ++ "b"))).1 = .ok [] ∧
        (Workspace.findAllBy { forest := grove } via ⟨0⟩ (.text ("/" ++ "b"))).1 = .ok [⟨1⟩] := by
  have hb : Step.ofText "b" = .ok [.tag "b"] := Step.ofText_of_isValid (by decide)
  have hok : (Path.ofText "b").isOk = true := by
    rw [Path.ofText_eq_ok hb]
    rfl
  have hhead : ∀ c ∈ "b".toList.head?, c ≠ '/' ∧ c ≠ '.' := by
    rintro c ⟨⟩
    decide
  have hroot : grove.root ⟨1⟩ = grove.root ⟨0⟩ := by decide
  have hreached : Workspace.Reached grove { forest := grove } := .start { last := 0 }
  have hatRoot : grove.findAll "b" (grove.root ⟨1⟩) = .ok [⟨1⟩] := findAll_of_ofText hb _
  have hatSelf : grove.findAll "b" ⟨1⟩ = .ok [] := findAll_of_ofText hb ⟨1⟩
  obtain ⟨hseeds, hsame, hmatchers⟩ := grove.findAll_seeds ⟨0⟩ ⟨1⟩
  obtain ⟨⟨xs, hslash, hxs⟩, ys, hdot, hys⟩ := hseeds "b" hok hhead
  cases hxs.symm.trans hatRoot
  cases hys.symm.trans hatSelf
  have hokSlash : (Path.ofText ("/" ++ "b")).isOk = true := by
    rw [Path.ofText_eq_ok (Step.ofText_slash hb hhead)]
    rfl
  obtain ⟨zs, hm, hn⟩ := hsame ("/" ++ "b") hokSlash rfl hroot.symm
  cases hn.symm.trans hslash
  refine ⟨hok, hhead, hroot, hreached, fun via => ⟨?_, ?_, ?_⟩⟩
  · exact (hmatchers _ hreached via _ _).trans hslash
  · exact (hmatchers _ hreached via _ _).trans hdot
  · exact (hmatchers _ hreached via _ _).trans hm

end Forest

end TreePath
