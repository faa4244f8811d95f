import Mathlib.Algebra.Group.Int.Defs
import Mathlib.Algebra.Group.Nat.Defs
import TreePath.Json.Printer
import TreePath.Json.Reader

namespace TreePath.Json

variable {c w : Char} {cs ds ws : List Char} {n digits : Nat}

/-- A number that stands before this ends there. -/
def EndsNumber (cs : List Char) : Prop :=
  ∀ c ∈ cs.head?, c.isDigit = false ∧ c ≠ '.' ∧ c ≠ 'e' ∧ c ≠ 'E'

theorem endsNumber_nil : EndsNumber [] :=
  nofun

theorem endsNumber_cons (h : c.isDigit = false ∧ c ≠ '.' ∧ c ≠ 'e' ∧ c ≠ 'E') :
    EndsNumber (c :: cs) := by
  intro d hd
  cases hd
  exact h

theorem splitDigits_append (hds : ∀ d ∈ ds, d.isDigit = true) (hcs : EndsNumber cs) :
    splitDigits (ds ++ cs) = (ds, cs) := by
  rw [splitDigits, List.takeWhile_append_of_pos hds, List.dropWhile_append_of_pos hds]
  cases cs with
  | nil => simp
  | cons c cs =>
    have hc := (hcs c rfl).1
    simp [hc]

theorem splitFraction_of_ends (hcs : EndsNumber cs) : splitFraction cs = ([], cs) := by
  cases cs with
  | nil => rfl
  | cons c cs =>
    obtain ⟨-, hpoint, -⟩ := hcs c rfl
    unfold splitFraction
    split
    · next heq =>
      cases heq
      exact (hpoint rfl).elim
    · rfl

theorem splitExponent_of_ends (hcs : EndsNumber cs) : splitExponent cs = (none, cs) := by
  cases cs with
  | nil => rfl
  | cons c cs =>
    obtain ⟨-, -, hlower, hupper⟩ := hcs c rfl
    unfold splitExponent
    exact if_neg (not_or.2 ⟨hlower, hupper⟩)

theorem isDigit_of_mem_writeNat (hc : c ∈ writeNat n) : c.isDigit = true :=
  Nat.isDigit_of_mem_toDigits (by decide) (by decide) hc

theorem exists_writeNat (n : Nat) : ∃ c cs, writeNat n = c :: cs ∧ c.isDigit = true := by
  obtain ⟨c, cs, hcons⟩ := List.exists_cons_of_ne_nil (Nat.toDigits_ne_nil (n := n) (b := 10))
  refine ⟨c, cs, hcons, ?_⟩
  apply isDigit_of_mem_writeNat (n := n)
  rw [writeNat, hcons]
  exact List.mem_cons_self

theorem ne_of_isDigit (hw : w.isDigit = false) (hc : c.isDigit = true) : w ≠ c := by
  rintro rfl
  rw [hw] at hc
  cases hc

/-- An integer begins with a digit or a minus, so like no other value and not with a blank. -/
theorem exists_writeInt (n : Int) : ∃ c cs, writeInt n = c :: cs ∧
    (isBlank c = false ∧ c ≠ ']') ∧ c ≠ '"' ∧ c ≠ '[' ∧ c ≠ '{' := by
  cases n with
  | ofNat n =>
    obtain ⟨c, cs, hcons, hc⟩ := exists_writeNat n
    have hne {w : Char} (hw : w.isDigit = false) : c ≠ w := (ne_of_isDigit hw hc).symm
    have hblank : isBlank c = false := by
      simp [isBlank, hne (w := ' ') rfl, hne (w := '\t') rfl, hne (w := '\n') rfl,
        hne (w := '\r') rfl]
    exact ⟨c, cs, hcons, ⟨hblank, hne rfl⟩, hne rfl, hne rfl, hne rfl⟩
  | negSucc n => exact ⟨'-', _, rfl, by decide⟩

theorem exists_writeNat_of_pos (hn : 0 < n) : ∃ c cs, writeNat n = c :: cs ∧ c ≠ '0' := by
  induction n using Nat.strongRecOn with
  | ind n ih =>
    rw [writeNat, Nat.toDigits_eq_if (by decide)]
    split
    · next hlt =>
      have hdigit : ∀ n < 10, 0 < n → Nat.digitChar n ≠ '0' := by decide
      exact ⟨_, [], rfl, hdigit n hlt hn⟩
    · obtain ⟨c, cs, hcons, hc⟩ := ih (n / 10) (by omega) (by omega)
      rw [writeNat] at hcons
      rw [hcons]
      exact ⟨c, _, rfl, hc⟩

/-- A reader that reads so many digits at most reads an integer or finds it too long. -/
def fits (digits : Nat) (n : Int) : Except ReadFault Unit :=
  if (writeNat n.natAbs).length ≤ digits then .ok () else .error .tooLong

theorem isWritableInt_iff {n : Int} (hn : 0 ≤ n) : isWritableInt n ↔ n < 10 ^ maxDigits := by
  obtain ⟨n, rfl⟩ := Int.eq_ofNat_of_zero_le hn
  rw [isWritableInt, decide_eq_true_iff, Int.natAbs_natCast, writeNat,
    Nat.length_toDigits_le_iff (by decide) (by decide)]
  exact_mod_cast Iff.rfl

theorem readMagnitude_writeNat (digits n : Nat) (hcs : EndsNumber cs) :
    readMagnitude digits (writeNat n ++ cs) = (fits digits n).map fun _ => (.int n, cs) := by
  have hfraction := splitFraction_of_ends hcs
  have hexponent := splitExponent_of_ends hcs
  have hcases : readMagnitude digits (writeNat n ++ cs) =
      if (writeNat n).length ≤ digits then .ok (.int n, cs) else .error .tooLong := by
    rcases Nat.eq_zero_or_pos n with rfl | hpos
    · show readMagnitude digits ('0' :: cs) = _
      simp [readMagnitude, hfraction, hexponent]
      rfl
    · obtain ⟨c, ds, hcons, hc⟩ := exists_writeNat_of_pos hpos
      have hsplit := splitDigits_append (fun d hd => isDigit_of_mem_writeNat (n := n) hd) hcs
      have hvalue : Nat.ofDigitChars 10 (writeNat n) 0 = n := Nat.ofDigitChars_ten_toDigits
      have hzero : ∀ rest, writeNat n ++ cs = '0' :: rest → False := by
        intro rest heq
        rw [hcons] at heq
        cases heq
        exact hc rfl
      have hne : (writeNat n).isEmpty = false := by rw [hcons, List.isEmpty_cons]
      rw [readMagnitude.eq_2 _ _ hzero, hsplit]
      simp [hfraction, hexponent, hvalue, hne]
  rw [hcases, fits, Int.natAbs_natCast]
  split <;> rfl

theorem readNumber_writeInt (digits : Nat) (n : Int) (hcs : EndsNumber cs) :
    readNumber digits (writeInt n ++ cs) = (fits digits n).map fun _ => (.int n, cs) := by
  cases n with
  | ofNat n =>
    obtain ⟨c, ds, hcons, hc⟩ := exists_writeNat n
    have hread := readMagnitude_writeNat digits n hcs
    rw [writeInt, hcons] at *
    unfold readNumber
    split
    · next heq =>
      cases heq
      cases hc
    · exact hread
  | negSucc n =>
    have hread := readMagnitude_writeNat digits (n + 1) hcs
    have hfits : fits digits (.negSucc n) = fits digits (n + 1 : Nat) := rfl
    rw [writeInt, List.cons_append, readNumber, hread, hfits]
    cases fits digits (n + 1 : Nat) <;> rfl

theorem findSome?_words_writeInt (n : Int) (cs : List Char) :
    words.findSome? (fun (word, v) => (expect? word (writeInt n ++ cs)).map (v, ·)) = none := by
  cases n with
  | ofNat n =>
    obtain ⟨c, ds, hcons, hc⟩ := exists_writeNat n
    have hminus : '-' ≠ c := ne_of_isDigit rfl hc
    have hnull : 'n' ≠ c := ne_of_isDigit rfl hc
    have htrue : 't' ≠ c := ne_of_isDigit rfl hc
    have hfalse : 'f' ≠ c := ne_of_isDigit rfl hc
    have hnan : 'N' ≠ c := ne_of_isDigit rfl hc
    have hinfinity : 'I' ≠ c := ne_of_isDigit rfl hc
    rw [writeInt, hcons]
    simp [words, expect?, hminus, hnull, htrue, hfalse, hnan, hinfinity]
  | negSucc n =>
    obtain ⟨c, ds, hcons, hc⟩ := exists_writeNat (n + 1)
    have hinfinity : 'I' ≠ c := ne_of_isDigit rfl hc
    rw [writeInt, hcons]
    simp [words, expect?, hinfinity]

theorem readScalar_writeInt (digits : Nat) (n : Int) (hcs : EndsNumber cs) :
    readScalar digits (writeInt n ++ cs) = (fits digits n).map fun _ => (.int n, cs) := by
  rw [readScalar, findSome?_words_writeInt, readNumber_writeInt digits n hcs]
  cases fits digits n <;> rfl

end TreePath.Json
