import Mathlib.Data.List.TakeWhile
import TreePath.Path.Reader

namespace TreePath

namespace Name

/-- A character that begins a name, and then characters that continue it. -/
def IsName : List Char → Prop
  | [] => False
  | c :: cs => isStart c = true ∧ ∀ d ∈ cs, isPart d = true

variable {n rest cs : List Char} {c : Char}

theorem isPart_of_isStart (h : isStart c = true) : isPart c = true := by
  rw [isPart, isPartCode, Bool.or_eq_true]
  exact .inl h

theorem IsName.isPart (h : IsName n) (hc : c ∈ n) : isPart c = true := by
  cases n with
  | nil => cases hc
  | cons d cs =>
    rcases List.mem_cons.1 hc with rfl | hc
    · exact isPart_of_isStart h.1
    · exact h.2 c hc

theorem IsName.isEmpty_eq_false (h : IsName n) : n.isEmpty = false := by
  cases n with
  | nil => exact h.elim
  | cons => rfl

theorem IsName.exists_cons (h : IsName n) : ∃ c cs, n = c :: cs ∧ isStart c = true := by
  cases n with
  | nil => exact h.elim
  | cons c cs => exact ⟨c, cs, rfl, h.1⟩

theorem dropWhile_of_stops (h : ∀ c ∈ rest.head?, isPart c = false) :
    rest.dropWhile isPart = rest := by
  cases rest with
  | nil => rfl
  | cons c cs => rw [List.dropWhile_cons_of_neg (by simp [h c rfl])]

theorem split_of_isName (h : IsName n) (hrest : ∀ c ∈ rest.head?, isPart c = false) :
    split (n ++ rest) = (n, rest) := by
  cases n with
  | nil => exact h.elim
  | cons c cs =>
    have htake : (cs ++ rest).takeWhile isPart = cs := by
      rw [List.takeWhile_append_of_pos h.2]
      cases rest with
      | nil => exact List.append_nil cs
      | cons d ds => rw [List.takeWhile_cons_of_neg (by simp [hrest d rfl]), List.append_nil]
    have hdrop : (cs ++ rest).dropWhile isPart = rest := by
      rw [List.dropWhile_append_of_pos h.2, dropWhile_of_stops hrest]
    rw [List.cons_append, split, if_pos h.1, htake, hdrop]

theorem split_before (h : IsName n) (hc : isPart c = false) :
    split (n ++ c :: rest) = (n, c :: rest) :=
  split_of_isName h fun d hd => by
    cases hd
    exact hc

theorem split_cases (cs : List Char) :
    split cs = ([], cs) ∨
      IsName (split cs).1 ∧ ∀ c ∈ (split cs).2.head?, isPart c = false := by
  cases cs with
  | nil => exact .inl rfl
  | cons c cs =>
    by_cases hc : isStart c = true
    · refine .inr ?_
      rw [split, if_pos hc]
      refine ⟨⟨hc, fun d hd => List.mem_takeWhile_imp hd⟩, fun d hd => ?_⟩
      have hnot := List.head?_dropWhile_not isPart cs
      rw [Option.mem_def.1 hd] at hnot
      exact hnot
    · exact .inl (by rw [split, if_neg hc])

theorem isName_of_isValid {text : String} (h : isValid text = true) : IsName text.toList := by
  rw [isValid, Bool.and_eq_true] at h
  obtain ⟨hname, hrest⟩ := h
  rcases split_cases text.toList with hnone | ⟨hsplit, _⟩
  · rw [hnone] at hname
    cases hname
  · have hwhole := split_append text.toList
    rw [List.isEmpty_iff.1 hrest, List.append_nil] at hwhole
    rwa [hwhole] at hsplit

theorem isValid_iff_isName {text : String} : isValid text = true ↔ IsName text.toList := by
  refine ⟨isName_of_isValid, fun h => ?_⟩
  have hsplit : split (text.toList ++ []) = (text.toList, []) := split_of_isName h nofun
  rw [List.append_nil] at hsplit
  simp [isValid, hsplit, h.isEmpty_eq_false]

end Name

namespace Step

/-- The texts that spell a step. -/
inductive Spelling : Step → List Char → Prop
  | slashDots : Spelling parent ['/', '.', '.']
  | dots : Spelling parent ['.', '.']
  | slashDot : Spelling self ['/', '.']
  | dot : Spelling self ['.']
  | slashes : Spelling descendantOrSelf ['/', '/']
  | star : Spelling wildcard ['*']
  | tag {n : List Char} : Name.IsName n → Spelling (tag (String.ofList n)) n
  | hasChild {n : List Char} :
    Name.IsName n → Spelling (hasChild (String.ofList n)) ('[' :: (n ++ [']']))
  | hasAttribute {n : List Char} :
    Name.IsName n → Spelling (hasAttribute (String.ofList n)) ('[' :: '@' :: (n ++ [']']))
  | attributeEq {n v : List Char} {q : Char} :
    Name.IsName n → q = '\x27' ∨ q = '"' → q ∉ v →
      Spelling (attributeEq (String.ofList n) (String.ofList v))
        ('[' :: '@' :: (n ++ '=' :: q :: (v ++ [q, ']'])))
  | slash : Spelling child ['/']

/-- The characters that carry a spelling of a step on. -/
def Extends (s : Step) (c : Char) : Prop :=
  match s.kind with
  | .tag => Name.isPart c = true
  | .self => c = '.'
  | .child => c = '/' ∨ c = '.'
  | _ => False

/-- Nothing at the head of the text carries a spelling of the step on. -/
def StopsAt (s : Step) (rest : List Char) : Prop :=
  ∀ c ∈ rest.head?, ¬ s.Extends c

variable {s : Step} {n sp cs rest : List Char}

theorem readDot_of_stops (h : self.StopsAt rest) : readDot rest = (self, rest) := by
  unfold readDot
  split
  · exact (h _ rfl rfl).elim
  · rfl

theorem readSlash_dot_of_stops (h : self.StopsAt rest) :
    readSlash ('.' :: rest) = (self, rest) := by
  unfold readSlash
  split
  · next he =>
    cases he
    exact (h _ rfl rfl).elim
  · next he =>
    cases he
    rfl
  · next he => cases he
  · next hno _ => exact (hno rest rfl).elim

theorem readSlash_of_stops (h : child.StopsAt rest) : readSlash rest = (child, rest) := by
  unfold readSlash
  split
  · exact (h _ rfl (.inr rfl)).elim
  · exact (h _ rfl (.inr rfl)).elim
  · exact (h _ rfl (.inl rfl)).elim
  · rfl

theorem readTag_of_isName (hn : Name.IsName n) (h : (tag (String.ofList n)).StopsAt rest) :
    readTag (n ++ rest) = some (tag (String.ofList n), rest) := by
  have hsplit : Name.split (n ++ rest) = (n, rest) :=
    Name.split_of_isName hn fun c hc => eq_false_of_ne_true (h c hc)
  simp [readTag, hsplit, hn.isEmpty_eq_false]

theorem readHasChild_of_isName (hn : Name.IsName n) :
    readHasChild (n ++ ']' :: rest) = some (hasChild (String.ofList n), rest) := by
  simp [readHasChild, Name.split_before hn (c := ']') rfl, hn.isEmpty_eq_false]

theorem readAttribute_of_isName (hn : Name.IsName n) :
    readAttribute (n ++ ']' :: rest) = some (hasAttribute (String.ofList n), rest) := by
  simp [readAttribute, Name.split_before hn (c := ']') rfl, hn.isEmpty_eq_false]

theorem readAttribute_of_quoted {v : List Char} {q : Char} (hn : Name.IsName n)
    (hq : q = '\x27' ∨ q = '"') (hv : q ∉ v) :
    readAttribute (n ++ '=' :: q :: (v ++ q :: ']' :: rest)) =
      some (attributeEq (String.ofList n) (String.ofList v), rest) := by
  have hpos : ∀ c ∈ v, decide (c ≠ q) = true := by
    intro c hc
    rw [decide_eq_true_iff]
    rintro rfl
    exact hv hc
  have htake : (v ++ q :: ']' :: rest).takeWhile (· ≠ q) = v := by
    rw [List.takeWhile_append_of_pos hpos, List.takeWhile_cons_of_neg (by simp), List.append_nil]
  have hdrop : (v ++ q :: ']' :: rest).dropWhile (· ≠ q) = q :: ']' :: rest := by
    rw [List.dropWhile_append_of_pos hpos, List.dropWhile_cons_of_neg (by simp)]
  have hvalue : readValue (String.ofList n) (q :: (v ++ q :: ']' :: rest)) =
      some (attributeEq (String.ofList n) (String.ofList v), rest) := by
    simp only [readValue, if_pos hq, hdrop, htake]
  simp only [readAttribute, Name.split_before hn (c := '=') rfl, hn.isEmpty_eq_false, hvalue]
  rfl

theorem read?_of_isStart {c : Char} (hc : Name.isStart c = true) :
    read? (c :: cs) = readTag (c :: cs) := by
  unfold read?
  split
  · next he => cases he; exact absurd hc (by decide)
  · next he => cases he; exact absurd hc (by decide)
  · next he => cases he; exact absurd hc (by decide)
  · next he => cases he; exact absurd hc (by decide)
  · next he => cases he; exact absurd hc (by decide)
  · rfl

theorem read?_bracket_of_isStart {c : Char} (hc : Name.isStart c = true) :
    read? ('[' :: c :: cs) = readHasChild (c :: cs) := by
  unfold read?
  split
  · next he => cases he
  · next he => cases he
  · next he => cases he
  · next he => cases he; exact absurd hc (by decide)
  · next he => cases he; rfl
  · next hno => exact (hno _ rfl).elim

/-- A spelling is read if nothing after it carries it on. -/
theorem Spelling.read?_append (h : Spelling s sp) (hrest : s.StopsAt rest) :
    read? (sp ++ rest) = some (s, rest) := by
  cases h with
  | slashDots => rfl
  | dots => rfl
  | slashDot => exact congrArg some (readSlash_dot_of_stops hrest)
  | dot => exact congrArg some (readDot_of_stops hrest)
  | slashes => rfl
  | star => rfl
  | slash => exact congrArg some (readSlash_of_stops hrest)
  | tag hn =>
    obtain ⟨c, cs, rfl, hc⟩ := hn.exists_cons
    rw [List.cons_append, read?_of_isStart hc]
    exact readTag_of_isName hn hrest
  | hasChild hn =>
    have hread : readHasChild (_ ++ ']' :: rest) = _ := readHasChild_of_isName hn
    obtain ⟨c, cs, rfl, hc⟩ := hn.exists_cons
    simp only [List.cons_append, List.append_assoc, List.nil_append] at hread ⊢
    rwa [read?_bracket_of_isStart hc]
  | hasAttribute hn =>
    rw [List.cons_append, List.cons_append, List.append_assoc]
    exact readAttribute_of_isName hn
  | attributeEq hn hq hv =>
    simp only [List.cons_append, List.append_assoc]
    exact readAttribute_of_quoted hn hq hv

theorem Spelling.read?_eq (h : Spelling s sp) : read? sp = some (s, []) := by
  have hstops : s.StopsAt [] := nofun
  have hread := h.read?_append hstops
  rwa [List.append_nil] at hread

theorem Spelling.isName {name : String} (h : Spelling s sp) (hname : s.name = some name) :
    Name.IsName name.toList := by
  cases h with
  | tag hn | hasChild hn | hasAttribute hn | attributeEq hn =>
    cases hname
    rwa [String.toList_ofList]
  | _ => cases hname

theorem readSlash_spelling (cs : List Char) :
    ∃ sp, Spelling (readSlash cs).1 sp ∧ '/' :: cs = sp ++ (readSlash cs).2 ∧
      (readSlash cs).1.StopsAt (readSlash cs).2 := by
  unfold readSlash
  split
  · exact ⟨_, .slashDots, rfl, fun c _ => id⟩
  · next cs hno =>
    refine ⟨_, .slashDot, rfl, ?_⟩
    rintro c hc rfl
    obtain ⟨ds, rfl⟩ := List.head?_eq_some_iff.1 hc
    exact hno ds rfl
  · exact ⟨_, .slashes, rfl, fun c _ => id⟩
  · next cs _ hdot hslash =>
    refine ⟨_, .slash, rfl, ?_⟩
    rintro c hc (rfl | rfl)
    · obtain ⟨ds, rfl⟩ := List.head?_eq_some_iff.1 hc
      exact hslash ds rfl
    · obtain ⟨ds, rfl⟩ := List.head?_eq_some_iff.1 hc
      exact hdot ds rfl

theorem readDot_spelling (cs : List Char) :
    ∃ sp, Spelling (readDot cs).1 sp ∧ '.' :: cs = sp ++ (readDot cs).2 ∧
      (readDot cs).1.StopsAt (readDot cs).2 := by
  unfold readDot
  split
  · exact ⟨_, .dots, rfl, fun c _ => id⟩
  · next cs hno =>
    refine ⟨_, .dot, rfl, ?_⟩
    rintro c hc rfl
    obtain ⟨ds, rfl⟩ := List.head?_eq_some_iff.1 hc
    exact hno ds rfl

theorem readTag_spelling (h : readTag cs = some (s, rest)) :
    ∃ sp, Spelling s sp ∧ cs = sp ++ rest ∧ s.StopsAt rest := by
  have hsplit := Name.split_append cs
  unfold readTag at h
  rcases Name.split_cases cs with he | ⟨hn, hstops⟩
  · rw [he] at h
    cases h
  · simp only [hn.isEmpty_eq_false] at h
    cases h
    exact ⟨_, .tag hn, hsplit.symm, fun c hc hpart =>
      Bool.false_ne_true ((hstops c hc).symm.trans hpart)⟩

theorem readHasChild_spelling (h : readHasChild cs = some (s, rest)) :
    ∃ sp, Spelling s sp ∧ '[' :: cs = sp ++ rest ∧ s.StopsAt rest := by
  have hsplit := Name.split_append cs
  unfold readHasChild at h
  rcases Name.split_cases cs with he | ⟨hn, _⟩
  · rw [he] at h
    cases h
  · simp only [hn.isEmpty_eq_false] at h
    split at h
    · cases h
    · split at h
      · next hr =>
        cases h
        rw [hr] at hsplit
        refine ⟨_, .hasChild hn, ?_, fun c _ => id⟩
        simp only [List.cons_append, List.append_assoc, List.nil_append, hsplit]
      · cases h

theorem readValue_spelling (hn : Name.IsName n)
    (h : readValue (String.ofList n) cs = some (s, rest)) :
    ∃ sp, Spelling s sp ∧ '[' :: '@' :: (n ++ '=' :: cs) = sp ++ rest ∧ s.StopsAt rest := by
  unfold readValue at h
  split at h
  · next q cs =>
    split at h
    · next hq =>
      split at h
      · next d rest' hdrop =>
        cases h
        have hd : d = q := by
          have hnot := List.head?_dropWhile_not (· ≠ q) cs
          rw [hdrop] at hnot
          simpa using hnot
        have hv : q ∉ cs.takeWhile (· ≠ q) := by
          intro hmem
          simpa using List.mem_takeWhile_imp hmem
        have hcs := List.takeWhile_append_dropWhile (p := (· ≠ q)) (l := cs)
        rw [hdrop, hd] at hcs
        refine ⟨_, .attributeEq hn hq hv, ?_, fun c _ => id⟩
        simp only [List.cons_append, List.append_assoc, List.nil_append, hcs]
      · cases h
    · cases h
  · cases h

theorem readAttribute_spelling (h : readAttribute cs = some (s, rest)) :
    ∃ sp, Spelling s sp ∧ '[' :: '@' :: cs = sp ++ rest ∧ s.StopsAt rest := by
  have hsplit := Name.split_append cs
  unfold readAttribute at h
  rcases Name.split_cases cs with he | ⟨hn, _⟩
  · rw [he] at h
    cases h
  · simp only [hn.isEmpty_eq_false] at h
    split at h
    · cases h
    · split at h
      · next hr =>
        cases h
        rw [hr] at hsplit
        refine ⟨_, .hasAttribute hn, ?_, fun c _ => id⟩
        simp only [List.cons_append, List.append_assoc, List.nil_append, hsplit]
      · next hr =>
        rw [← hsplit, hr]
        exact readValue_spelling hn h
      · cases h

theorem read?_spelling (h : read? cs = some (s, rest)) :
    ∃ sp, Spelling s sp ∧ cs = sp ++ rest ∧ s.StopsAt rest := by
  unfold read? at h
  split at h
  · next cs =>
    have hslash := readSlash_spelling cs
    rwa [Option.some.inj h] at hslash
  · next cs =>
    have hdot := readDot_spelling cs
    rwa [Option.some.inj h] at hdot
  · cases h
    exact ⟨_, .star, rfl, fun c _ => id⟩
  · exact readAttribute_spelling h
  · exact readHasChild_spelling h
  · exact readTag_spelling h

theorem read?_eq_some_iff :
    read? cs = some (s, rest) ↔ ∃ sp, Spelling s sp ∧ cs = sp ++ rest ∧ s.StopsAt rest := by
  refine ⟨read?_spelling, ?_⟩
  rintro ⟨sp, hsp, rfl, hrest⟩
  exact hsp.read?_append hrest

end Step

end TreePath
