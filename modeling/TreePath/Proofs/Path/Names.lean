import Mathlib.Data.List.TFAE
import Mathlib.Order.Bounds.Basic
import Mathlib.Tactic.TFAE
import TreePath.Proofs.Path.Rendering

namespace TreePath

theorem Step.ofText_iff_isName {s : Step} {name text : String} (hs : s.name = some name)
    (h : Name.IsName name.toList → Spelling s text.toList) :
    ofText text = .ok [s] ↔ Name.IsName name.toList :=
  ofText_eq_singleton_iff.trans ⟨fun hsp => hsp.isName hs, h⟩

namespace Name

/-- Where the names end that begin at an offset of a text. -/
def ends (text : String) (start : Nat) : Set Nat :=
  {stop | stop ≤ text.length ∧ isValid (String.ofList (text.toList.extract start stop)) = true}

variable {n cs rest : List Char} {text : String} {start stop : Nat}

theorem IsName.prefix_split (h : IsName n) (hn : n <+: cs) : n <+: (split cs).1 := by
  obtain ⟨rest, rfl⟩ := hn
  cases n with
  | nil => exact h.elim
  | cons c n =>
    rw [List.cons_append, split, if_pos h.1, List.takeWhile_append_of_pos h.2]
    exact List.prefix_append (c :: n) _

theorem mem_ends :
    stop ∈ ends text start ↔
      stop ≤ text.length ∧ IsName ((text.toList.drop start).take (stop - start)) := by
  rw [ends, Set.mem_ofPred_eq, isValid_iff_isName, String.toList_ofList]

theorem prefix_of_mem_ends (hsplit : split (text.toList.drop start) = (n, rest))
    (h : stop ∈ ends text start) : (text.toList.drop start).take (stop - start) <+: n := by
  have hpre := (mem_ends.1 h).2.prefix_split (List.take_prefix _ _)
  rwa [hsplit] at hpre

theorem ends_eq_empty (hsplit : split (text.toList.drop start) = ([], rest)) :
    ends text start = ∅ := by
  rw [Set.eq_empty_iff_forall_notMem]
  intro stop hstop
  have hname := (mem_ends.1 hstop).2
  rw [List.prefix_nil.1 (prefix_of_mem_ends hsplit hstop)] at hname
  exact hname

theorem isGreatest_ends (hsplit : split (text.toList.drop start) = (n, rest)) (hn : IsName n) :
    IsGreatest (ends text start) (start + n.length) := by
  have happend : n ++ rest = text.toList.drop start := by
    rw [← split_append (text.toList.drop start), hsplit]
  have hlength := congrArg List.length happend
  rw [List.length_append, List.length_drop, String.length_toList] at hlength
  have hpos := List.length_pos_iff.2 (List.isEmpty_eq_false_iff.1 hn.isEmpty_eq_false)
  constructor
  · rw [mem_ends, Nat.add_sub_cancel_left, ← happend, List.take_left]
    exact ⟨by omega, hn⟩
  · intro stop hstop
    have hle := (prefix_of_mem_ends hsplit hstop).length_le
    rw [List.length_take, List.length_drop, String.length_toList] at hle
    have hstop := (mem_ends.1 hstop).1
    omega

theorem end?_natCast (text : String) (start : Nat) : end? text start =
    some ↑(start + (split (text.toList.drop start)).1.length) := by
  simp [end?]

/-- Looking for a name finds where the longest one ends, and stays where it is if none begins
there. -/
theorem end?_spec (text : String) (start : Nat) :
    ∃ stop : Nat, end? text start = some (stop : Int) ∧
      (IsGreatest (ends text start) stop ∨ ends text start = ∅ ∧ stop = start) := by
  refine ⟨_, end?_natCast text start, ?_⟩
  rcases split_cases (text.toList.drop start) with hnone | ⟨hname, -⟩
  · refine .inr ⟨ends_eq_empty hnone, ?_⟩
    rw [hnone]
    rfl
  · exact .inl (isGreatest_ends rfl hname)

/-- The valid names are the texts of a character that begins names and then characters that continue
them, and they are the texts that are read as one test for themselves, whether of the tag, of a
child or of an attribute. Within a text, a name is followed to the end of the longest valid name
that begins at the offset. -/
theorem read_alike (text : String) :
    List.TFAE [
      isValid text = true,
      IsName text.toList,
      Step.ofText text = .ok [.tag text],
      Step.ofText ("[" ++ text ++ "]") = .ok [.hasChild text],
      Step.ofText ("[@" ++ text ++ "]") = .ok [.hasAttribute text]] ∧
    ∀ start : Nat, ∃ stop : Nat, end? text start = some (stop : Int) ∧
      (IsGreatest (ends text start) stop ∨ ends text start = ∅ ∧ stop = start) := by
  refine ⟨?_, end?_spec text⟩
  tfae_have 1 ↔ 2 := isValid_iff_isName
  tfae_have 3 ↔ 2 := Step.ofText_iff_isName rfl fun h => by simpa using Step.Spelling.tag h
  tfae_have 4 ↔ 2 := Step.ofText_iff_isName rfl fun h => by simpa using Step.Spelling.hasChild h
  tfae_have 5 ↔ 2 := Step.ofText_iff_isName rfl fun h => by simpa using Step.Spelling.hasAttribute h
  tfae_finish

example : isValid "x.y-z" = true ∧ end? "[@x.y-z='/']" 2 = some 7 := by decide

end Name

end TreePath
