import TreePath.Proofs.Json.Entries
import TreePath.Proofs.Json.Scalars
import TreePath.Proofs.Json.Text

namespace TreePath

namespace Json

def Layout.IsBlank : Layout → Prop
  | .line => True
  | .block indent => ∀ c ∈ indent, Json.isBlank c = true

/-- No field comes twice, and there is no number but integers. -/
inductive IsPlain : Json → Prop
  | null : IsPlain .null
  | bool (t : Bool) : IsPlain (.bool t)
  | int (n : Int) : IsPlain (.int n)
  | str (s : String) : IsPlain (.str s)
  | arr {items : List Json} : (∀ v ∈ items, IsPlain v) → IsPlain (.arr items)
  | obj {fields : List (String × Json)} :
    (fields.map Prod.fst).Nodup → (∀ e ∈ fields, IsPlain e.2) → IsPlain (.obj fields)

mutual

/-- The first fault that a reader with these bounds finds in a value that was written. -/
def verdict (b : Bounds) : Json → Except ReadFault Unit
  | .num (.int n) => fits b.digits n
  | .arr items => do
    let b ← b.inner
    verdictOfItems b items
  | .obj fields => do
    let b ← b.inner
    verdictOfFields b fields
  | _ => .ok ()

def verdictOfItems (b : Bounds) : List Json → Except ReadFault Unit
  | [] => .ok ()
  | v :: items => do
    verdict b v
    verdictOfItems b items

def verdictOfFields (b : Bounds) : List (String × Json) → Except ReadFault Unit
  | [] => .ok ()
  | (_, v) :: fields => do
    verdict b v
    verdictOfFields b fields

end

theorem verdictOfItems_singleton (b : Bounds) (v : Json) :
    verdictOfItems b [v] = verdict b v := by
  rw [verdictOfItems, verdictOfItems]
  cases verdict b v <;> rfl

theorem verdictOfFields_singleton (b : Bounds) (name : String) (v : Json) :
    verdictOfFields b [(name, v)] = verdict b v := by
  rw [verdictOfFields, verdictOfFields]
  cases verdict b v <;> rfl

variable {b : Bounds} {v : Json} {layout : Layout} {c : Char} {cs rest : List Char}
  {items : List Json} {fields : List (String × Json)} {depth outer fuel : Nat}

theorem skipBlanks_cons (hc : isBlank c = false) : skipBlanks (c :: cs) = c :: cs := by
  rw [skipBlanks, List.dropWhile_cons, hc]
  rfl

theorem Layout.IsBlank.gap (h : layout.IsBlank) (depth : Nat) :
    ∀ c ∈ layout.gap depth, Json.isBlank c = true := by
  cases layout with
  | line => exact nofun
  | block indent =>
    intro c hc
    rcases List.mem_cons.1 hc with rfl | hc
    · rfl
    · obtain ⟨part, hpart, hc⟩ := List.mem_flatten.1 hc
      rw [List.eq_of_mem_replicate hpart] at hc
      exact h c hc

theorem skipBlanks_gap (h : layout.IsBlank) (depth : Nat) (hc : isBlank c = false) :
    skipBlanks (layout.gap depth ++ c :: cs) = c :: cs := by
  rw [skipBlanks, List.dropWhile_append_of_pos (h.gap depth)]
  exact skipBlanks_cons hc

theorem Layout.IsBlank.exists_separator (h : layout.IsBlank) (depth : Nat) :
    ∃ blanks, layout.separator depth = ',' :: blanks ∧ ∀ c ∈ blanks, Json.isBlank c = true := by
  cases layout with
  | line => exact ⟨[' '], rfl, List.forall_mem_singleton.2 rfl⟩
  | block indent => exact ⟨_, rfl, h.gap depth⟩

theorem endsNumber_gap (layout : Layout) (depth : Nat)
    (hc : c.isDigit = false ∧ c ≠ '.' ∧ c ≠ 'e' ∧ c ≠ 'E') :
    EndsNumber (layout.gap depth ++ c :: rest) := by
  cases layout with
  | line => exact endsNumber_cons hc
  | block indent => exact endsNumber_cons (by decide)

theorem IsPlain.exists_write (h : v.IsPlain) (layout : Layout) (depth : Nat) :
    ∃ c cs, v.write layout depth = c :: cs ∧ isBlank c = false ∧ c ≠ ']' := by
  cases h with
  | null => exact ⟨_, _, rfl, by decide⟩
  | bool t => cases t <;> exact ⟨_, _, rfl, by decide⟩
  | int n =>
    obtain ⟨c, cs, hcons, hc, _⟩ := exists_writeInt n
    exact ⟨c, cs, hcons, hc⟩
  | str s => exact ⟨_, _, rfl, by decide⟩
  | @arr items _ => cases items <;> exact ⟨_, _, rfl, by decide⟩
  | @obj fields _ _ => cases fields <;> exact ⟨_, _, rfl, by decide⟩

theorem IsPlain.head?_write_ne (h : v.IsPlain) (layout : Layout) (depth : Nat)
    (rest : List Char) : (v.write layout depth ++ rest).head? ≠ some ']' := by
  obtain ⟨c, cs, hcons, _, hc⟩ := h.exists_write layout depth
  rw [hcons]
  intro heq
  cases heq
  exact hc rfl

theorem IsPlain.skipBlanks_write (h : v.IsPlain) {bs : List Char}
    (hbs : ∀ c ∈ bs, isBlank c = true) (layout : Layout) (depth : Nat) (rest : List Char) :
    skipBlanks (bs ++ (v.write layout depth ++ rest)) = v.write layout depth ++ rest := by
  obtain ⟨c, cs, hcons, hc, _⟩ := h.exists_write layout depth
  rw [skipBlanks, List.dropWhile_append_of_pos hbs, hcons]
  exact skipBlanks_cons hc

theorem IsPlain.skipBlanks_space (h : v.IsPlain) (layout : Layout) (depth : Nat)
    (rest : List Char) :
    skipBlanks (' ' :: (v.write layout depth ++ rest)) = v.write layout depth ++ rest := by
  have hspace : ∀ c ∈ [' '], isBlank c = true := List.forall_mem_singleton.2 rfl
  exact h.skipBlanks_write hspace layout depth rest

theorem skipBlanks_writeText {bs : List Char} (hbs : ∀ c ∈ bs, isBlank c = true) (s : String)
    (cs : List Char) : skipBlanks (bs ++ (writeText s ++ cs)) = writeText s ++ cs := by
  rw [skipBlanks, List.dropWhile_append_of_pos hbs]
  exact skipBlanks_cons rfl

section

variable {ds es : List Char} {digits : Nat} {name : String} {r t : Except ReadFault Unit}

theorem readItems_last (hv : readValue fuel b cs = r.map fun _ => (v, ds))
    (hend : skipBlanks ds = ']' :: rest) :
    readItems (fuel + 1) b cs = r.map fun _ => ([v], rest) := by
  cases r with
  | error e => simp only [readItems, hv, Except.map, bind, Except.bind]
  | ok _ => simp only [readItems, hv, hend, Except.map, bind, Except.bind, pure, Except.pure]

theorem readItems_more (hv : readValue fuel b cs = r.map fun _ => (v, ds))
    (hmore : skipBlanks ds = ',' :: es)
    (hitems : readItems fuel b (skipBlanks es) = t.map fun _ => (items, rest)) :
    readItems (fuel + 1) b cs = (r >>= fun _ => t).map fun _ => (v :: items, rest) := by
  cases r with
  | error e => simp only [readItems, hv, Except.map, bind, Except.bind]
  | ok _ =>
    cases t <;>
      simp only [readItems, hv, hmore, hitems, Except.map, bind, Except.bind, pure, Except.pure]

theorem readFields_last (hname : (writeText name).length ≤ fuel + 1)
    (hv : readValue fuel b (skipBlanks ds) = r.map fun _ => (v, es))
    (hend : skipBlanks es = '}' :: rest) :
    readFields (fuel + 1) b (writeText name ++ ':' :: ds) =
      r.map fun _ => ([(name, v)], rest) := by
  obtain ⟨tail, htail, hread⟩ := readText?_writeText name (':' :: ds) hname
  have hcolon : skipBlanks (':' :: ds) = ':' :: ds := skipBlanks_cons rfl
  rw [htail]
  cases r <;>
    simp only [readFields, expect?, if_true, Option.bind_some, hread, orMalformed, hcolon, hv, hend,
      Except.map, bind, Except.bind, pure, Except.pure]

theorem readFields_more (hname : (writeText name).length ≤ fuel + 1)
    (hv : readValue fuel b (skipBlanks ds) = r.map fun _ => (v, es)) {more : List Char}
    (hmore : skipBlanks es = ',' :: more)
    (hfields : readFields fuel b (skipBlanks more) = t.map fun _ => (fields, rest)) :
    readFields (fuel + 1) b (writeText name ++ ':' :: ds) =
      (r >>= fun _ => t).map fun _ => ((name, v) :: fields, rest) := by
  obtain ⟨tail, htail, hread⟩ := readText?_writeText name (':' :: ds) hname
  have hcolon : skipBlanks (':' :: ds) = ':' :: ds := skipBlanks_cons rfl
  rw [htail]
  cases r <;> cases t <;>
    simp only [readFields, expect?, if_true, Option.bind_some, hread, orMalformed, hcolon, hv,
      hmore, hfields, Except.map, bind, Except.bind, pure, Except.pure]

theorem readValue_scalar (hquote : c ≠ '"') (hlist : c ≠ '[') (hobject : c ≠ '{') :
    readValue (fuel + 1) b (c :: cs) = readScalar b.digits (c :: cs) := by
  rw [readValue]
  · rintro _ ⟨⟩
    exact hquote rfl
  · rintro _ ⟨⟩
    exact hlist rfl
  · rintro _ ⟨⟩
    exact hobject rfl

theorem readValue_arr_nil : readValue (fuel + 1) b ('[' :: ']' :: rest) =
    (verdict b (.arr [])).map fun _ => (.arr [], rest) := by
  have hskip : skipBlanks (']' :: rest) = ']' :: rest := skipBlanks_cons rfl
  rw [readValue, verdict, hskip]
  cases b.inner <;> rfl

theorem readValue_obj_nil : readValue (fuel + 1) b ('{' :: '}' :: rest) =
    (verdict b (.obj [])).map fun _ => (.obj [], rest) := by
  have hskip : skipBlanks ('}' :: rest) = '}' :: rest := skipBlanks_cons rfl
  rw [readValue, verdict, hskip]
  cases b.inner <;> rfl

theorem readValue_arr (hskip : skipBlanks cs = ds) (hhead : ds.head? ≠ some ']')
    (hitems : ∀ b, readItems fuel b ds = (verdictOfItems b items).map fun _ => (items, rest)) :
    readValue (fuel + 1) b ('[' :: cs) =
      (verdict b (.arr items)).map fun _ => (.arr items, rest) := by
  rw [readValue, verdict, hskip]
  cases b.inner with
  | error e => rfl
  | ok b =>
    simp only [bind, Except.bind, pure, Except.pure]
    split
    · exact (hhead rfl).elim
    · rw [hitems]
      cases verdictOfItems b items <;> rfl

theorem readValue_obj (hskip : skipBlanks cs = ds) (hhead : ds.head? ≠ some '}')
    (hfields : ∀ b, readFields fuel b ds = (verdictOfFields b fields).map fun _ => (fields, rest)) :
    readValue (fuel + 1) b ('{' :: cs) =
      (verdict b (.obj fields)).map fun _ => (.obj (mergeEntries fields), rest) := by
  rw [readValue, verdict, hskip]
  cases b.inner with
  | error e => rfl
  | ok b =>
    simp only [bind, Except.bind, pure, Except.pure]
    split
    · exact (hhead rfl).elim
    · rw [hfields]
      cases verdictOfFields b fields <;> rfl

end

/-- A value that was written is read as its verdict says, whatever follows it. -/
def ReadsBack (layout : Layout) (depth : Nat) (v : Json) : Prop :=
  ∀ b fuel rest, 2 * (v.write layout depth).length ≤ fuel → EndsNumber rest →
    readValue fuel b (v.write layout depth ++ rest) = (verdict b v).map fun _ => (v, rest)

/-- What follows the first item of a list, up to the end of the list and beyond. -/
def closeItems (layout : Layout) (depth outer : Nat) (items : List Json) (rest : List Char) :
    List Char :=
  writeItems layout depth items ++ (layout.gap outer ++ ']' :: rest)

def closeFields (layout : Layout) (depth outer : Nat) (fields : List (String × Json))
    (rest : List Char) : List Char :=
  writeFields layout depth fields ++ (layout.gap outer ++ '}' :: rest)

theorem exists_closeItems_cons (h : layout.IsBlank) (depth outer : Nat) (v : Json)
    (items : List Json) (rest : List Char) :
    ∃ blanks, (∀ c ∈ blanks, isBlank c = true) ∧
      closeItems layout depth outer (v :: items) rest =
        ',' :: (blanks ++ (v.write layout depth ++ closeItems layout depth outer items rest)) := by
  obtain ⟨blanks, hsep, hblanks⟩ := h.exists_separator depth
  refine ⟨blanks, hblanks, ?_⟩
  rw [closeItems, closeItems, writeItems, hsep]
  simp only [List.cons_append, List.append_assoc]

theorem exists_closeFields_cons (h : layout.IsBlank) (depth outer : Nat) (e : String × Json)
    (fields : List (String × Json)) (rest : List Char) :
    ∃ blanks, (∀ c ∈ blanks, isBlank c = true) ∧
      closeFields layout depth outer (e :: fields) rest =
        ',' :: (blanks ++ (writeText e.1 ++ ':' :: ' ' ::
          (e.2.write layout depth ++ closeFields layout depth outer fields rest))) := by
  obtain ⟨blanks, hsep, hblanks⟩ := h.exists_separator depth
  refine ⟨blanks, hblanks, ?_⟩
  rw [closeFields, closeFields, writeFields, hsep]
  simp only [List.cons_append, List.append_assoc]

theorem length_writeItems_cons (layout : Layout) (depth : Nat) (v : Json) (items : List Json) :
    (v.write layout depth).length + (writeItems layout depth items).length <
      (writeItems layout depth (v :: items)).length := by
  rw [writeItems, List.length_append, List.length_append]
  cases layout <;> simp only [Layout.separator, List.length_cons] <;> omega

theorem length_writeFields_cons (layout : Layout) (depth : Nat) (e : String × Json)
    (fields : List (String × Json)) :
    (writeText e.1).length + (e.2.write layout depth).length +
      (writeFields layout depth fields).length <
        (writeFields layout depth (e :: fields)).length := by
  simp only [writeFields, List.length_append, List.length_cons]
  omega

theorem endsNumber_closeItems (h : layout.IsBlank) :
    EndsNumber (closeItems layout depth outer items rest) := by
  cases items with
  | nil => exact endsNumber_gap layout outer (by decide)
  | cons v items =>
    obtain ⟨blanks, _, hcons⟩ := exists_closeItems_cons h depth outer v items rest
    rw [hcons]
    exact endsNumber_cons (by decide)

theorem endsNumber_closeFields (h : layout.IsBlank) :
    EndsNumber (closeFields layout depth outer fields rest) := by
  cases fields with
  | nil => exact endsNumber_gap layout outer (by decide)
  | cons e fields =>
    obtain ⟨blanks, _, hcons⟩ := exists_closeFields_cons h depth outer e fields rest
    rw [hcons]
    exact endsNumber_cons (by decide)

theorem readItems_write (hblank : layout.IsBlank) (hv : ReadsBack layout depth v)
    (hplain : ∀ w ∈ items, w.IsPlain) (hback : ∀ w ∈ items, ReadsBack layout depth w)
    (hfuel : 2 * ((v.write layout depth).length + (writeItems layout depth items).length) < fuel) :
    readItems fuel b (v.write layout depth ++ closeItems layout depth outer items rest) =
      (verdictOfItems b (v :: items)).map fun _ => (v :: items, rest) := by
  induction items generalizing v fuel with
  | nil =>
    obtain ⟨fuel, rfl⟩ := Nat.exists_eq_add_one_of_ne_zero (Nat.ne_of_gt (Nat.zero_lt_of_lt hfuel))
    have hvalue := hv b fuel (closeItems layout depth outer [] rest) (by omega)
      (endsNumber_closeItems hblank)
    rw [verdictOfItems_singleton]
    exact readItems_last hvalue (skipBlanks_gap hblank outer rfl)
  | cons w items ih =>
    obtain ⟨fuel, rfl⟩ := Nat.exists_eq_add_one_of_ne_zero (Nat.ne_of_gt (Nat.zero_lt_of_lt hfuel))
    obtain ⟨blanks, hblanks, hcons⟩ := exists_closeItems_cons hblank depth outer w items rest
    have hlength := length_writeItems_cons layout depth w items
    have hvalue := hv b fuel (closeItems layout depth outer (w :: items) rest) (by omega)
      (endsNumber_closeItems hblank)
    have hitems : readItems fuel b
        (w.write layout depth ++ closeItems layout depth outer items rest) =
          (verdictOfItems b (w :: items)).map fun _ => (w :: items, rest) :=
      ih (hback w List.mem_cons_self) (fun u hu => hplain u (List.mem_cons_of_mem w hu))
        (fun u hu => hback u (List.mem_cons_of_mem w hu)) (by omega)
    rw [← (hplain w List.mem_cons_self).skipBlanks_write hblanks] at hitems
    rw [hcons] at hvalue ⊢
    exact readItems_more hvalue (skipBlanks_cons rfl) hitems

theorem readFields_write {name : String} (hblank : layout.IsBlank) (hv : v.IsPlain)
    (hback : ReadsBack layout depth v) (hplain : ∀ e ∈ fields, e.2.IsPlain)
    (hbacks : ∀ e ∈ fields, ReadsBack layout depth e.2)
    (hfuel : 2 * ((writeText name).length + (v.write layout depth).length +
      (writeFields layout depth fields).length) < fuel) :
    readFields fuel b (writeText name ++ ':' :: ' ' ::
      (v.write layout depth ++ closeFields layout depth outer fields rest)) =
        (verdictOfFields b ((name, v) :: fields)).map fun _ => ((name, v) :: fields, rest) := by
  induction fields generalizing name v fuel with
  | nil =>
    obtain ⟨fuel, rfl⟩ := Nat.exists_eq_add_one_of_ne_zero (Nat.ne_of_gt (Nat.zero_lt_of_lt hfuel))
    have hname : (writeText name).length ≤ fuel + 1 := by omega
    have hvalue := hback b fuel (closeFields layout depth outer [] rest) (by omega)
      (endsNumber_closeFields hblank)
    rw [← hv.skipBlanks_space] at hvalue
    rw [verdictOfFields_singleton]
    exact readFields_last hname hvalue (skipBlanks_gap hblank outer rfl)
  | cons e fields ih =>
    obtain ⟨fuel, rfl⟩ := Nat.exists_eq_add_one_of_ne_zero (Nat.ne_of_gt (Nat.zero_lt_of_lt hfuel))
    obtain ⟨blanks, hblanks, hcons⟩ := exists_closeFields_cons hblank depth outer e fields rest
    have hlength := length_writeFields_cons layout depth e fields
    have hname : (writeText name).length ≤ fuel + 1 := by omega
    have hvalue := hback b fuel (closeFields layout depth outer (e :: fields) rest) (by omega)
      (endsNumber_closeFields hblank)
    have hfields : readFields fuel b (writeText e.1 ++ ':' :: ' ' ::
        (e.2.write layout depth ++ closeFields layout depth outer fields rest)) =
          (verdictOfFields b (e :: fields)).map fun _ => (e :: fields, rest) :=
      ih (hplain e List.mem_cons_self) (hbacks e List.mem_cons_self)
        (fun f hf => hplain f (List.mem_cons_of_mem e hf))
        (fun f hf => hbacks f (List.mem_cons_of_mem e hf)) (by omega)
    rw [← skipBlanks_writeText hblanks] at hfields
    rw [← hv.skipBlanks_space, hcons] at hvalue
    rw [hcons]
    exact readFields_more hname hvalue (skipBlanks_cons rfl) hfields

theorem readValue_writeInt (n : Int) (hrest : EndsNumber rest) :
    readValue (fuel + 1) b (writeInt n ++ rest) =
      (fits b.digits n).map fun _ => (.int n, rest) := by
  obtain ⟨c, cs, hcons, _, hquote, hlist, hobject⟩ := exists_writeInt n
  have hscalar := readScalar_writeInt b.digits n hrest
  rw [hcons] at hscalar ⊢
  rw [List.cons_append, readValue_scalar hquote hlist hobject]
  exact hscalar

theorem IsPlain.readsBack_of_succ (h : v.IsPlain)
    (hsucc : ∀ b fuel rest, 2 * (v.write layout depth).length ≤ fuel + 1 → EndsNumber rest →
      readValue (fuel + 1) b (v.write layout depth ++ rest) =
        (verdict b v).map fun _ => (v, rest)) :
    ReadsBack layout depth v := by
  intro b fuel rest hfuel hrest
  obtain ⟨c, cs, hcons, _⟩ := h.exists_write layout depth
  have hlength : (v.write layout depth).length = cs.length + 1 := by
    rw [hcons, List.length_cons]
  obtain ⟨fuel, rfl⟩ := Nat.exists_eq_add_one_of_ne_zero (show fuel ≠ 0 by omega)
  exact hsucc b fuel rest hfuel hrest

theorem write_arr_append (layout : Layout) (depth : Nat) (v : Json) (items : List Json)
    (rest : List Char) : write layout depth (.arr (v :: items)) ++ rest =
      '[' :: (layout.gap (depth + 1) ++ (v.write layout (depth + 1) ++
        closeItems layout (depth + 1) depth items rest)) := by
  simp only [write, closeItems, List.cons_append, List.append_assoc, List.nil_append]

theorem length_write_arr (layout : Layout) (depth : Nat) (v : Json) (items : List Json) :
    (v.write layout (depth + 1)).length + (writeItems layout (depth + 1) items).length + 2 ≤
      (write layout depth (.arr (v :: items))).length := by
  simp only [write, List.cons_append, List.length_cons, List.length_append, List.length_nil]
  omega

theorem write_obj_append (layout : Layout) (depth : Nat) (e : String × Json)
    (fields : List (String × Json)) (rest : List Char) :
    write layout depth (.obj (e :: fields)) ++ rest =
      '{' :: (layout.gap (depth + 1) ++ (writeText e.1 ++ ':' :: ' ' ::
        (e.2.write layout (depth + 1) ++ closeFields layout (depth + 1) depth fields rest))) := by
  simp only [write, closeFields, List.cons_append, List.append_assoc, List.nil_append]

theorem length_write_obj (layout : Layout) (depth : Nat) (e : String × Json)
    (fields : List (String × Json)) :
    (writeText e.1).length + (e.2.write layout (depth + 1)).length +
      (writeFields layout (depth + 1) fields).length + 2 ≤
        (write layout depth (.obj (e :: fields))).length := by
  simp only [write, List.cons_append, List.length_cons, List.length_append, List.length_nil]
  omega

theorem readsBack_arr (hblank : layout.IsBlank) (hplain : ∀ v ∈ items, v.IsPlain)
    (hback : ∀ v ∈ items, ReadsBack layout (depth + 1) v) :
    ReadsBack layout depth (.arr items) := by
  apply (IsPlain.arr hplain).readsBack_of_succ
  intro b fuel rest hfuel _
  cases items with
  | nil => exact readValue_arr_nil
  | cons v items =>
    have hv := hplain v List.mem_cons_self
    have hlength := length_write_arr layout depth v items
    have hskip := hv.skipBlanks_write (hblank.gap (depth + 1)) layout (depth + 1)
      (closeItems layout (depth + 1) depth items rest)
    rw [write_arr_append]
    apply readValue_arr hskip (hv.head?_write_ne layout (depth + 1) _)
    intro b
    exact readItems_write hblank (hback v List.mem_cons_self)
      (fun w hw => hplain w (List.mem_cons_of_mem v hw))
      (fun w hw => hback w (List.mem_cons_of_mem v hw)) (by omega)

theorem readsBack_obj (hblank : layout.IsBlank) (hkeys : (fields.map Prod.fst).Nodup)
    (hplain : ∀ e ∈ fields, e.2.IsPlain)
    (hback : ∀ e ∈ fields, ReadsBack layout (depth + 1) e.2) :
    ReadsBack layout depth (.obj fields) := by
  apply (IsPlain.obj hkeys hplain).readsBack_of_succ
  intro b fuel rest hfuel _
  cases fields with
  | nil => exact readValue_obj_nil
  | cons e fields =>
    have hlength := length_write_obj layout depth e fields
    have hskip := skipBlanks_writeText (hblank.gap (depth + 1)) e.1
      (':' :: ' ' :: (e.2.write layout (depth + 1) ++
        closeFields layout (depth + 1) depth fields rest))
    have hread (b : Bounds) : readFields fuel b (writeText e.1 ++ ':' :: ' ' ::
        (e.2.write layout (depth + 1) ++ closeFields layout (depth + 1) depth fields rest)) =
          (verdictOfFields b (e :: fields)).map fun _ => (e :: fields, rest) :=
      readFields_write hblank (hplain e List.mem_cons_self) (hback e List.mem_cons_self)
        (fun d hd => hplain d (List.mem_cons_of_mem e hd))
        (fun d hd => hback d (List.mem_cons_of_mem e hd)) (by omega)
    have hvalue := readValue_obj hskip nofun hread (b := b)
    rw [mergeEntries_of_nodup hkeys] at hvalue
    rw [write_obj_append]
    exact hvalue

/-- By induction on the value, where the parts of a list and of an object stand one level deeper. -/
theorem IsPlain.readsBack (h : v.IsPlain) (hblank : layout.IsBlank) (depth : Nat) :
    ReadsBack layout depth v := by
  induction h generalizing depth with
  | null =>
    apply IsPlain.null.readsBack_of_succ
    intro b fuel rest _ _
    rfl
  | bool t =>
    apply (IsPlain.bool t).readsBack_of_succ
    intro b fuel rest _ _
    cases t <;> rfl
  | int n =>
    apply (IsPlain.int n).readsBack_of_succ
    intro b fuel rest _ hrest
    exact readValue_writeInt n hrest
  | str s =>
    apply (IsPlain.str s).readsBack_of_succ
    intro b fuel rest hfuel _
    rw [write] at hfuel ⊢
    obtain ⟨tail, htail, hread⟩ := readText?_writeText s rest
      (show (writeText s).length ≤ fuel + 1 by omega)
    rw [htail, readValue, hread]
    rfl
  | arr hplain ih => exact readsBack_arr hblank hplain fun v hv => ih v hv (depth + 1)
  | obj hkeys hplain ih => exact readsBack_obj hblank hkeys hplain fun e he => ih e he (depth + 1)

theorem Layout.isBlank_spaces (n : Nat) : (spaces n).IsBlank := by
  intro c hc
  rw [List.eq_of_mem_replicate hc]
  rfl

/-- What is rendered is read back, or the reader finds that it exceeds its bounds. -/
theorem IsPlain.read_render (h : v.IsPlain) (hblank : layout.IsBlank) (b : Bounds) :
    read b (v.render layout) = (verdict b v).map fun _ => v := by
  have hread := h.readsBack hblank 0 b (2 * (v.write layout 0).length + 2) [] (by omega)
    endsNumber_nil
  obtain ⟨c, cs, hcons, hc, _⟩ := h.exists_write layout 0
  have hskip : skipBlanks (v.write layout 0) = v.write layout 0 := by
    rw [hcons]
    exact skipBlanks_cons hc
  rw [List.append_nil] at hread
  rw [read, render, String.length_ofList, String.toList_ofList, hskip, hread]
  cases verdict b v <;> rfl

end Json

end TreePath
