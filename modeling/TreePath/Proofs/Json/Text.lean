import TreePath.Json.Printer
import TreePath.Json.Reader

namespace TreePath.Json

variable {c : Char} {cs done : List Char} {n u fuel : Nat}

theorem hexDigit?_digitChar (h : n < 16) : hexDigit? (Nat.digitChar n) = some n := by
  have hall : ∀ n < 16, hexDigit? (Nat.digitChar n) = some n := by decide
  exact hall n h

theorem readUnit?_hexUnit (hu : u < 0x10000) (cs : List Char) :
    readUnit? (hexUnit u ++ cs) = some (u, cs) := by
  have hdigit (n : Nat) : hexDigit? (Nat.digitChar (n % 16)) = some (n % 16) :=
    hexDigit?_digitChar (Nat.mod_lt n (by decide))
  have hsum : u / 0x1000 % 16 * 0x1000 + u / 0x100 % 16 * 0x100 + u / 0x10 % 16 * 0x10 + u % 16 =
      u := by omega
  simp [hexUnit, readUnit?, hdigit, hsum]

/-- No character lies among the halves of pairs. -/
theorem toNat_cases (c : Char) :
    c.toNat < 0xD800 ∨ 0xDFFF < c.toNat ∧ c.toNat < 0x110000 :=
  c.valid

theorem readUnits?_single (h : c.toNat < 0x10000) (cs : List Char) :
    readUnits? (hexUnit c.toNat ++ cs) = some (c, cs) := by
  have hvalid := toNat_cases c
  have hhigh : ¬ (0xD800 ≤ c.toNat ∧ c.toNat < 0xDC00) := by omega
  have hlow : ¬ (0xDC00 ≤ c.toNat ∧ c.toNat < 0xE000) := by omega
  simp [readUnits?, readUnit?_hexUnit h, hhigh, hlow, Char.ofNat_toNat]

theorem readUnits?_pair {high low : Nat} (hhigh : 0xD800 ≤ high ∧ high < 0xDC00)
    (hlow : 0xDC00 ≤ low ∧ low < 0xE000)
    (hjoin : 0x10000 + (high - 0xD800) * 0x400 + (low - 0xDC00) = c.toNat) (cs : List Char) :
    readUnits? (hexUnit high ++ '\\' :: 'u' :: (hexUnit low ++ cs)) = some (c, cs) := by
  have hreadHigh (cs : List Char) : readUnit? (hexUnit high ++ cs) = some (high, cs) :=
    readUnit?_hexUnit (by omega) cs
  have hreadLow : readUnit? (hexUnit low ++ cs) = some (low, cs) := readUnit?_hexUnit (by omega) cs
  simp [readUnits?, hreadHigh, hreadLow, expect?, hhigh, hlow, hjoin, Char.ofNat_toNat]

theorem readEscape?_units (c : Char) (cs : List Char) :
    ∃ tail, (units c).flatMap (fun u => '\\' :: 'u' :: hexUnit u) ++ cs = '\\' :: tail ∧
      readEscape? tail = some (c, cs) := by
  by_cases h : c.toNat < 0x10000
  · refine ⟨'u' :: (hexUnit c.toNat ++ cs), ?_, ?_⟩
    · simp [units, h]
    · exact readUnits?_single h cs
  · have hvalid := toNat_cases c
    refine ⟨'u' :: (hexUnit (0xD800 + (c.toNat - 0x10000) / 0x400) ++
      '\\' :: 'u' :: (hexUnit (0xDC00 + (c.toNat - 0x10000) % 0x400) ++ cs)), ?_, ?_⟩
    · simp [units, h]
    · exact readUnits?_pair (by omega) (by omega) (by omega) cs

/-- A character stands for itself, or an escape stands for it that is read as it. -/
theorem writeChar_cases (c : Char) (cs : List Char) :
    (writeChar c = [c] ∧ c ≠ '"' ∧ c ≠ '\\' ∧ 0x20 ≤ c.toNat) ∨
      ∃ tail, writeChar c ++ cs = '\\' :: tail ∧ readEscape? tail = some (c, cs) := by
  rw [writeChar]
  split
  · next h => rcases h with rfl | rfl <;> exact .inr ⟨_, rfl, rfl⟩
  · next hquote =>
    obtain ⟨hquote, hslash⟩ := not_or.1 hquote
    split
    · next h => exact .inr ⟨'n' :: cs, rfl, h ▸ rfl⟩
    split
    · next h => exact .inr ⟨'r' :: cs, rfl, h ▸ rfl⟩
    split
    · next h => exact .inr ⟨'t' :: cs, rfl, h ▸ rfl⟩
    split
    · next h => exact .inr ⟨'b' :: cs, rfl, h ▸ rfl⟩
    split
    · next h => exact .inr ⟨'f' :: cs, rfl, h ▸ rfl⟩
    split
    · next h => exact .inl ⟨rfl, hquote, hslash, h.1⟩
    · exact .inr (readEscape?_units c cs)

theorem readText?_writeChar (c : Char) (cs : List Char) :
    readText? (fuel + 1) done (writeChar c ++ cs) = readText? fuel (c :: done) cs := by
  rcases writeChar_cases c cs with ⟨hself, hquote, hslash, hprint⟩ | ⟨tail, htail, hread⟩
  · have hcontrol : ¬ c.toNat < 0x20 := Nat.not_lt.2 hprint
    rw [hself]
    simp [readText?, hquote, hslash, hcontrol]
  · rw [htail]
    simp [readText?, hread]

theorem readText?_write (s : List Char) (hfuel : s.length < fuel) (cs : List Char) :
    readText? fuel done (s.flatMap writeChar ++ '"' :: cs) =
      some (String.ofList (done.reverse ++ s), cs) := by
  induction s generalizing fuel done with
  | nil =>
    obtain ⟨fuel, rfl⟩ := Nat.exists_eq_add_one_of_ne_zero (Nat.ne_of_gt hfuel)
    simp [readText?]
  | cons c s ih =>
    obtain ⟨fuel, rfl⟩ := Nat.exists_eq_add_one_of_ne_zero (Nat.ne_of_gt (Nat.zero_lt_of_lt hfuel))
    rw [List.flatMap_cons, List.append_assoc, readText?_writeChar,
      ih (Nat.lt_of_succ_lt_succ hfuel), List.reverse_cons, List.append_assoc]
    rfl

theorem length_writeChar_pos (c : Char) : 0 < (writeChar c).length := by
  rcases writeChar_cases c [] with ⟨hself, _⟩ | ⟨tail, htail, _⟩
  · rw [hself]
    exact Nat.one_pos
  · rw [List.append_nil] at htail
    rw [htail]
    exact Nat.succ_pos _

theorem length_le_flatMap_writeChar (s : List Char) : s.length ≤ (s.flatMap writeChar).length := by
  induction s with
  | nil => exact Nat.le_refl 0
  | cons c s ih =>
    have hc := length_writeChar_pos c
    rw [List.flatMap_cons, List.length_append, List.length_cons]
    omega

theorem readText?_writeText (s : String) (cs : List Char)
    (hfuel : (writeText s).length ≤ fuel + 1) :
    ∃ tail, writeText s ++ cs = '"' :: tail ∧ readText? fuel [] tail = some (s, cs) := by
  have hlength := length_le_flatMap_writeChar s.toList
  refine ⟨s.toList.flatMap writeChar ++ '"' :: cs, ?_, ?_⟩
  · simp [writeText]
  · rw [readText?_write, List.reverse_nil, List.nil_append, String.ofList_toList]
    simp only [writeText, List.length_cons, List.length_append, List.length_nil] at hfuel
    omega

end TreePath.Json
