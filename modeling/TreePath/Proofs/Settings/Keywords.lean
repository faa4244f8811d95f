import Mathlib.Data.List.Infix
import Mathlib.Data.List.Nodup
import TreePath.Proofs.Json.Entries
import TreePath.Settings.Override

namespace TreePath.Settings

theorem after?_eq_some {head text rest : String} (h : after? head text = some rest) :
    text = head ++ rest := by
  rw [after?] at h
  split at h
  · next hprefix =>
    cases h
    obtain ⟨cs, hcs⟩ := List.isPrefixOf_iff_prefix.1 hprefix
    rw [← String.toList_inj, String.toList_append, String.toList_ofList, ← String.length_toList,
      ← hcs, List.drop_left]
  · cases h

theorem after?_append (head rest : String) : after? head (head ++ rest) = some rest := by
  have hprefix : head.toList.isPrefixOf (head ++ rest).toList = true := by
    rw [String.toList_append, List.isPrefixOf_iff_prefix]
    exact List.prefix_append _ _
  rw [after?, if_pos hprefix, String.toList_append, ← String.length_toList, List.drop_left,
    String.ofList_toList]

namespace Keyword

def text : Keyword → String
  | queryField field => "query__" ++ field
  | logField field => "global___" ++ field
  | query => "query"
  | log => "global_"
  | top name => name

theorem text_ofText (t : String) : (ofText t).text = t := by
  unfold ofText
  split
  · next h => exact (after?_eq_some h).symm
  · next h _ => exact (after?_eq_some h).symm
  · split
    · next h => exact h.symm
    · split
      · next h => exact h.symm
      · rfl

theorem ofText_queryField (field : String) : ofText ("query__" ++ field) = .queryField field := by
  rw [ofText, after?_append]

theorem ofText_logField (field : String) : ofText ("global___" ++ field) = .logField field := by
  have hquery : after? "query__" ("global___" ++ field) = none := by
    rw [after?, String.toList_append]
    exact if_neg Bool.false_ne_true
  rw [ofText, after?_append, hquery]

theorem ofText_injective : Function.Injective ofText :=
  Function.LeftInverse.injective text_ofText

/-- The keyword is about a section as a whole, and the other one about a field of that section. -/
def covers : Keyword → Keyword → Bool
  | query, queryField _ | log, logField _ => true
  | _, _ => false

theorem covers_top (k : Keyword) (name : String) : k.covers (top name) = false := by
  cases k <;> rfl

/-- What the keyword asks of the section for queries: all of it, or a field. -/
def queryPart? : Keyword → Option (Option String)
  | query => some none
  | queryField field => some (some field)
  | _ => none

def logPart? : Keyword → Option (Option String)
  | log => some none
  | logField field => some (some field)
  | _ => none

def topPart? : Keyword → Option String
  | top name => some name
  | _ => none

/-- Different keywords ask for different parts. -/
def IsPart {α : Type} (part? : Keyword → Option α) : Prop :=
  ∀ k l a, part? k = some a → part? l = some a → k = l

theorem isPart_top : IsPart topPart? := by
  intro k l a hk hl
  cases k <;> cases hk
  cases l <;> cases hl
  rfl

/-- The part is a section, where the keyword for the whole of it covers those for its fields. -/
structure IsSection (part? : Keyword → Option (Option String)) : Prop where
  isPart : IsPart part?
  covers_of_part {k l : Keyword} {field : String} :
    part? k = some none → part? l = some (some field) → k.covers l = true
  part_of_covers {k l : Keyword} {p : Option String} :
    k.covers l = true → part? l = some p → part? k = some none ∧ ∃ field, p = some field

theorem isSection_query : IsSection queryPart? where
  isPart k l a hk hl := by cases k <;> cases hk <;> cases l <;> cases hl <;> rfl
  covers_of_part {k l field} hk hl := by
    cases k <;> cases hk
    cases l <;> cases hl
    rfl
  part_of_covers {k l p} hcovers hl := by
    cases l <;> cases hl <;> cases k <;> cases hcovers
    exact ⟨rfl, _, rfl⟩

theorem isSection_log : IsSection logPart? where
  isPart k l a hk hl := by cases k <;> cases hk <;> cases l <;> cases hl <;> rfl
  covers_of_part {k l field} hk hl := by
    cases k <;> cases hk
    cases l <;> cases hl
    rfl
  part_of_covers {k l p} hcovers hl := by
    cases l <;> cases hl <;> cases k <;> cases hcovers
    exact ⟨rfl, _, rfl⟩

end Keyword

open Keyword

section Parts

variable {α : Type} {part? : Keyword → Option α} {ks ls : List (String × Json)} {a : α}

/-- The keywords that are about a part, by what they ask of it. -/
def parts (part? : Keyword → Option α) (ks : List (String × Json)) : List (α × Json) :=
  ks.filterMap fun e => (part? (Keyword.ofText e.1)).map fun a => (a, e.2)

theorem mem_parts {p : α × Json} :
    p ∈ parts part? ks ↔ ∃ e ∈ ks, part? (Keyword.ofText e.1) = some p.1 ∧ e.2 = p.2 := by
  simp only [parts, List.mem_filterMap, Option.map_eq_some_iff]
  constructor
  · rintro ⟨e, he, a, ha, rfl⟩
    exact ⟨e, he, ha, rfl⟩
  · rintro ⟨e, he, ha, hv⟩
    exact ⟨e, he, p.1, ha, Prod.ext rfl hv⟩

theorem parts_cons_of_none {e : String × Json} (h : part? (Keyword.ofText e.1) = none) :
    parts part? (e :: ks) = parts part? ks := by
  rw [parts, List.filterMap_cons, h]
  rfl

theorem parts_cons_of_some {e : String × Json} (h : part? (Keyword.ofText e.1) = some a) :
    parts part? (e :: ks) = (a, e.2) :: parts part? ks := by
  rw [parts, List.filterMap_cons, h]
  rfl

theorem nodup_parts (hpart : IsPart part?) (h : (ks.map Prod.fst).Nodup) :
    ((parts part? ks).map Prod.fst).Nodup := by
  have hkeys : (parts part? ks).map Prod.fst =
      (ks.map Prod.fst).filterMap fun t => part? (Keyword.ofText t) := by
    rw [parts, List.map_filterMap, List.filterMap_map]
    congr 1
    funext e
    simp only [Option.map_map, Function.comp_apply]
    cases part? (Keyword.ofText e.1) <;> rfl
  rw [hkeys]
  exact h.filterMap fun t u a ht hu => ofText_injective (hpart _ _ a ht hu)

theorem parts_perm (h : ks.Perm ls) : (parts part? ks).Perm (parts part? ls) :=
  h.filterMap _

theorem lookup_parts [BEq α] [LawfulBEq α] (hpart : IsPart part?) (h : (ks.map Prod.fst).Nodup)
    {t : String} (ht : part? (Keyword.ofText t) = some a) :
    (parts part? ks).lookup a = ks.lookup t := by
  ext v
  rw [lookup_eq_some_iff_mem (nodup_parts hpart h), lookup_eq_some_iff_mem h, mem_parts]
  constructor
  · rintro ⟨e, he, ha, rfl⟩
    rwa [ofText_injective (hpart _ _ a ht ha)]
  · intro hmem
    exact ⟨_, hmem, ht, rfl⟩

end Parts

/-- Asks more of a section: to be a value as a whole, or to have a field. -/
def ask (asked : Option Json) : Option String × Json → Except Fault (Option Json)
  | (none, v) => .ok (some v)
  | (some field, v) => return some (← addField asked field v)

/-- What is asked of a section after all, where `whole` is a value for all of it and `fields` are
values for its fields. -/
inductive Asks (asks : List (Option String × Json)) : Except Fault (Option Json) → Prop
  | nothing : asks = [] → Asks asks (.ok none)
  | fields (fields : List (String × Json)) :
    asks ≠ [] → (fields.map Prod.fst).Nodup →
    (∀ v, asks.lookup none = some v → ∃ whole, v = .obj whole) →
    (∀ n, fields.lookup n =
      (asks.lookup (some n)).or ((asks.lookup none).bind (Json.field? n))) →
    Asks asks (.ok (some (.obj fields)))
  | notObject (v : Json) : asks = [(none, v)] → (∀ whole, v ≠ .obj whole) → Asks asks (.ok (some v))
  | fails (v : Json) : asks.lookup none = some v → (∀ whole, v ≠ .obj whole) → 1 < asks.length →
    Asks asks (.error .revisionNotObject)

variable {asks : List (Option String × Json)} {field : String} {v : Json}

theorem addField_of_notObject (h : ∀ whole, v ≠ .obj whole) (field : String) (w : Json) :
    addField (some v) field w = .error .revisionNotObject := by
  cases v with
  | obj whole => exact (h whole rfl).elim
  | _ => rfl

theorem Asks.whole (v : Json)
    (hobject : ∀ fields, v = .obj fields → (fields.map Prod.fst).Nodup) :
    Asks [(none, v)] (.ok (some v)) := by
  by_cases h : ∃ whole, v = .obj whole
  · obtain ⟨whole, rfl⟩ := h
    refine .fields whole (List.cons_ne_nil _ _) (hobject whole rfl) (fun w hw => ?_) fun n => rfl
    cases hw
    exact ⟨whole, rfl⟩
  · exact .notObject v rfl fun whole hv => h ⟨whole, hv⟩

/-- The order in which a section is asked for more makes no difference in the end. -/
theorem Asks.of_perm {others : List (Option String × Json)} {r : Except Fault (Option Json)}
    (h : Asks asks r) (hperm : asks.Perm others) (hdistinct : (asks.map Prod.fst).Nodup) :
    Asks others r := by
  have hlookup := lookup_eq_of_perm hperm hdistinct
  cases h with
  | nothing hnil => exact .nothing (List.nil_perm.1 (hnil ▸ hperm))
  | fields fields hnil hfields hobject hfield =>
    refine .fields fields (fun he => hnil (List.perm_nil.1 (he ▸ hperm))) hfields ?_ fun n => ?_
    · intro v hv
      exact hobject v ((hlookup none).trans hv)
    · rw [hfield, hlookup, hlookup]
  | notObject v hasks hobject =>
    exact .notObject v (List.singleton_perm.1 (hasks ▸ hperm)).symm hobject
  | fails v hv hobject hlength =>
    exact .fails v ((hlookup none).symm.trans hv) hobject (hperm.length_eq ▸ hlength)

/-- Two values that ask for the same: they are equal, or both give the same fields. -/
inductive Alike : Option Json → Option Json → Prop
  | refl (asked : Option Json) : Alike asked asked
  | fields {fields others : List (String × Json)} :
    (fields.map Prod.fst).Nodup → (others.map Prod.fst).Nodup →
    (∀ n, fields.lookup n = others.lookup n) → Alike (some (.obj fields)) (some (.obj others))

theorem Asks.alike {r r' : Except Fault (Option Json)} (h : Asks asks r) (h' : Asks asks r') :
    (∃ a b, r = .ok a ∧ r' = .ok b ∧ Alike a b) ∨ ∃ e, r = .error e ∧ r' = .error e := by
  cases h with
  | nothing hnil =>
    subst hnil
    cases h' with
    | nothing => exact .inl ⟨_, _, rfl, rfl, .refl _⟩
    | fields _ hne => exact (hne rfl).elim
    | notObject _ hasks => cases hasks
    | fails _ hv => cases hv
  | fields fields hne hfields hobject hlookup =>
    cases h' with
    | nothing hnil => exact (hne hnil).elim
    | fields others _ hothers _ hlookup' =>
      refine .inl ⟨_, _, rfl, rfl, .fields hfields hothers fun n => ?_⟩
      rw [hlookup, hlookup']
    | notObject v hasks hno =>
      obtain ⟨whole, rfl⟩ := hobject v (hasks ▸ rfl)
      exact (hno whole rfl).elim
    | fails v hv hno =>
      obtain ⟨whole, rfl⟩ := hobject v hv
      exact (hno whole rfl).elim
  | notObject v hasks hno =>
    subst hasks
    cases h' with
    | nothing hnil => cases hnil
    | fields _ _ _ hobject =>
      obtain ⟨whole, rfl⟩ := hobject v rfl
      exact (hno whole rfl).elim
    | notObject w hasks =>
      cases hasks
      exact .inl ⟨_, _, rfl, rfl, .refl _⟩
    | fails _ _ _ hlength => exact (Nat.lt_irrefl 1 hlength).elim
  | fails v hv hno hlength =>
    cases h' with
    | nothing hnil =>
      subst hnil
      cases hv
    | fields _ _ _ hobject =>
      obtain ⟨whole, rfl⟩ := hobject v hv
      exact (hno whole rfl).elim
    | notObject _ hasks =>
      subst hasks
      exact (Nat.lt_irrefl 1 hlength).elim
    | fails => exact .inr ⟨_, rfl, rfl⟩

theorem Asks.add {r : Except Fault (Option Json)} (h : Asks asks r)
    (hnew : some field ∉ asks.map Prod.fst) (v : Json) :
    Asks (asks ++ [(some field, v)]) (r >>= fun asked => ask asked (some field, v)) := by
  have hnil : asks ++ [(some field, v)] ≠ [] := List.append_ne_nil_of_right_ne_nil _ nofun
  have hnone : (asks ++ [(some field, v)]).lookup none = asks.lookup none :=
    lookup_concat_of_ne nofun
  cases h with
  | nothing hempty =>
    subst hempty
    refine .fields [(field, v)] hnil (List.nodup_singleton _) nofun fun n => ?_
    show _ = (List.lookup (some n) [(some field, v)]).or none
    simp [lookup_cons_eq_ite]
  | fields fields _ hfields hobject hlookup =>
    refine .fields (setEntry field v fields) hnil (nodup_keys_setEntry field v hfields)
      (hnone ▸ hobject) fun n => ?_
    rw [hnone]
    by_cases hn : n = field
    · subst hn
      rw [lookup_setEntry_self, List.lookup_append, lookup_eq_none_iff_notMem.2 hnew,
        List.lookup_cons_self]
      rfl
    · have hlater : (asks ++ [(some field, v)]).lookup (some n) = asks.lookup (some n) :=
        lookup_concat_of_ne fun h => hn (Option.some.inj h)
      rw [lookup_setEntry_of_ne hn, hlookup, hlater]
  | notObject w hasks hobject =>
    subst hasks
    have hfails : ask (some w) (some field, v) = .error .revisionNotObject := by
      rw [ask, addField_of_notObject hobject]
      rfl
    show Asks _ (ask (some w) (some field, v))
    rw [hfails]
    exact .fails w rfl hobject (Nat.lt_succ_self 1)
  | fails w hw hobject hlength =>
    refine .fails w (hnone.trans hw) hobject ?_
    rw [List.length_append]
    exact Nat.lt_succ_of_lt hlength

/-- What is asked for keyword by keyword is what is asked for altogether if the section as a whole
comes first. -/
theorem asks_foldlM (hdistinct : (asks.map Prod.fst).Nodup)
    (hobjects : ∀ fields, (none, .obj fields) ∈ asks → (fields.map Prod.fst).Nodup)
    (hfirst : asks.Pairwise fun _ p => p.1 ≠ none) : Asks asks (asks.foldlM ask none) := by
  induction asks using List.reverseRecOn with
  | nil => exact .nothing rfl
  | append_singleton asks p ih =>
    rw [List.map_append, List.nodup_append] at hdistinct
    rw [List.pairwise_append] at hfirst
    obtain ⟨_ | field, v⟩ := p
    · have hnil : asks = [] := by
        refine List.eq_nil_iff_forall_not_mem.2 fun q hq => ?_
        exact hfirst.2.2 q hq _ List.mem_cons_self rfl
      subst hnil
      exact .whole v fun whole hv => hobjects whole (hv ▸ List.mem_cons_self)
    · have hnew : some field ∉ asks.map Prod.fst := by
        intro hmem
        exact hdistinct.2.2 _ hmem _ List.mem_cons_self rfl
      have ih := ih hdistinct.1 (fun fields hq => hobjects fields (List.mem_append_left _ hq))
        hfirst.1
      simpa only [List.foldlM_append, List.foldlM_cons, List.foldlM_nil, bind_pure]
        using ih.add hnew v

theorem eq_of_ask_eq_error {asked : Option Json} {p : Option String × Json} {e : Fault}
    (h : ask asked p = .error e) : e = .revisionNotObject := by
  obtain ⟨_ | field, v⟩ := p
  · cases h
  · cases asked with
    | none => cases h
    | some w =>
      cases w with
      | obj => cases h
      | _ =>
        cases h
        rfl

theorem eq_of_foldlM_ask_eq_error {asked : Option Json} {e : Fault}
    (h : asks.foldlM ask asked = .error e) : e = .revisionNotObject := by
  induction asks generalizing asked with
  | nil => cases h
  | cons p asks ih =>
    rw [List.foldlM_cons] at h
    cases hask : ask asked p with
    | error d =>
      rw [hask] at h
      cases h
      exact eq_of_ask_eq_error hask
    | ok a =>
      rw [hask] at h
      exact ih h

variable {ks ls : List (String × Json)}

/-- The keywords of each section can be followed on their own. There is only one thing that can be
wrong with them, so it does not matter where it is found first. -/
theorem foldlM_add (ks : List (String × Json)) (c : Changes) :
    ks.foldlM (fun c e => c.add e.1 e.2) c = (do
      let query ← (parts queryPart? ks).foldlM ask c.query
      let log ← (parts logPart? ks).foldlM ask c.log
      return { query, log,
               top := (parts topPart? ks).foldl (fun done e => setEntry e.1 e.2 done) c.top }) := by
  induction ks generalizing c with
  | nil => rfl
  | cons e ks ih =>
    rw [List.foldlM_cons, Changes.add]
    simp only [parts, List.filterMap_cons] at ih ⊢
    cases hk : Keyword.ofText e.1 with
    | query => exact ih _
    | log => exact ih _
    | top name => exact ih _
    | queryField field =>
      simp only [queryPart?, logPart?, topPart?, Option.map_some, Option.map_none,
        List.foldlM_cons, ask]
      cases addField c.query field e.2 with
      | error d => rfl
      | ok asked => exact ih _
    | logField field =>
      simp only [queryPart?, logPart?, topPart?, Option.map_some, Option.map_none,
        List.foldlM_cons]
      cases hadd : addField c.log field e.2 with
      | error d =>
        have hask : ask c.log (some field, e.2) = .error d := by
          rw [ask, hadd]
          rfl
        rw [hask, eq_of_ask_eq_error hask]
        generalize hquery : List.foldlM ask c.query _ = query
        cases query with
        | error d => rw [eq_of_foldlM_ask_eq_error hquery]; rfl
        | ok query => rfl
      | ok asked =>
        have hask : ask c.log (some field, e.2) = .ok (some asked) := by
          rw [ask, hadd]
          rfl
        rw [hask]
        exact ih _

theorem ofKeywords_eq (hdistinct : (ks.map Prod.fst).Nodup) :
    Changes.ofKeywords ks = (do
      let query ← (parts queryPart? ks).foldlM ask none
      let log ← (parts logPart? ks).foldlM ask none
      return { query, log, top := parts topPart? ks }) := by
  have htop := mergeEntries_of_nodup (nodup_parts isPart_top hdistinct)
  rw [mergeEntries] at htop
  rw [Changes.ofKeywords, mergeEntries_of_nodup hdistinct]
  refine (foldlM_add ks {}).trans ?_
  rw [htop]

/-- Keywords as they are passed on: none comes twice, and no object has a name twice. -/
structure IsPassed (ks : List (String × Json)) : Prop where
  distinct : (ks.map Prod.fst).Nodup
  objects : ∀ e ∈ ks, ∀ fields, e.2 = .obj fields → (fields.map Prod.fst).Nodup

theorem IsPassed.of_perm (h : IsPassed ks) (hperm : ks.Perm ls) : IsPassed ls where
  distinct := (hperm.map Prod.fst).nodup h.distinct
  objects e he := h.objects e (hperm.mem_iff.2 he)

/-- No keyword for a field comes before that for its section as a whole, which would make the
section forget the field. -/
def WholeFirst (ks : List (String × Json)) : Prop :=
  ks.Pairwise fun e d => (Keyword.ofText d.1).covers (Keyword.ofText e.1) = false

instance : DecidablePred WholeFirst :=
  fun ks => inferInstanceAs (Decidable (ks.Pairwise _))

theorem asks_parts {part? : Keyword → Option (Option String)} (hsection : IsSection part?)
    (h : IsPassed ks) (hfirst : WholeFirst ks) :
    Asks (parts part? ks) ((parts part? ks).foldlM ask none) := by
  refine asks_foldlM (nodup_parts hsection.isPart h.distinct) (fun fields hp => ?_) ?_
  · obtain ⟨e, he, -, hv⟩ := mem_parts.1 hp
    exact h.objects e he fields hv
  · have hne : ks.Pairwise fun e d => e.1 ≠ d.1 := List.pairwise_map.1 h.distinct
    refine (hfirst.and hne).filterMap _ fun e d hed p hp q hq hnone => ?_
    obtain ⟨a, ha, rfl⟩ := Option.map_eq_some_iff.1 hp
    obtain ⟨b, hb, rfl⟩ := Option.map_eq_some_iff.1 hq
    obtain rfl : b = none := hnone
    cases a with
    | none => exact hed.2 (ofText_injective (hsection.isPart _ _ _ ha hb))
    | some field =>
      rw [hsection.covers_of_part hb ha] at hed
      cases hed.1

/-- The keywords without those for fields whose section is named as a whole later. -/
def effective : List (String × Json) → List (String × Json)
  | [] => []
  | e :: ks =>
    if ks.any fun d => (Keyword.ofText d.1).covers (Keyword.ofText e.1) then effective ks
    else e :: effective ks

theorem effective_sublist (ks : List (String × Json)) : (effective ks).Sublist ks := by
  induction ks with
  | nil => exact .slnil
  | cons e ks ih =>
    rw [effective]
    split
    · exact ih.cons e
    · exact ih.cons_cons e

theorem exists_ask_field {asked : Option Json} (hopen : ∀ v ∈ asked, ∃ fields, v = .obj fields)
    (field : String) (v : Json) :
    ∃ fields, ask asked (some field, v) = .ok (some (.obj fields)) := by
  cases asked with
  | none => exact ⟨_, rfl⟩
  | some w =>
    obtain ⟨fields, rfl⟩ := hopen w rfl
    exact ⟨_, rfl⟩

theorem foldlM_ask_congr {asked asked' : Option Json} (hnone : none ∈ asks.map Prod.fst)
    (hopen : ∀ v ∈ asked, ∃ fields, v = .obj fields)
    (hopen' : ∀ v ∈ asked', ∃ fields, v = .obj fields) :
    asks.foldlM ask asked = asks.foldlM ask asked' := by
  induction asks generalizing asked asked' with
  | nil => cases hnone
  | cons p asks ih =>
    obtain ⟨_ | field, v⟩ := p
    · rfl
    · obtain ⟨fields, hfields⟩ := exists_ask_field hopen field v
      obtain ⟨others, hothers⟩ := exists_ask_field hopen' field v
      have hrest : none ∈ asks.map Prod.fst := (List.mem_cons.1 hnone).resolve_left nofun
      rw [List.foldlM_cons, List.foldlM_cons, hfields, hothers]
      refine ih hrest ?_ ?_
      · intro w hw
        exact ⟨fields, (Option.some.inj hw).symm⟩
      · intro w hw
        exact ⟨others, (Option.some.inj hw).symm⟩

/-- The keywords that have an effect ask of a section what all of them ask of it. Along the way the
section has only been asked for fields, or its keyword as a whole has come already. -/
theorem foldlM_parts_effective {part? : Keyword → Option (Option String)}
    (hsection : IsSection part?) (hdistinct : (ks.map Prod.fst).Nodup) {asked : Option Json}
    (hasked : (∀ v ∈ asked, ∃ fields, v = .obj fields) ∨ none ∉ (parts part? ks).map Prod.fst) :
    (parts part? (effective ks)).foldlM ask asked = (parts part? ks).foldlM ask asked := by
  induction ks generalizing asked with
  | nil => rfl
  | cons e ks ih =>
    have hparts := nodup_parts hsection.isPart hdistinct
    have ih {asked : Option Json} := @ih (List.nodup_cons.1 hdistinct).2 asked
    rw [effective]
    cases hp : part? (Keyword.ofText e.1) with
    | none =>
      rw [parts_cons_of_none hp] at hasked ⊢
      split
      · exact ih hasked
      · rw [parts_cons_of_none hp]
        exact ih hasked
    | some p =>
      rw [parts_cons_of_some hp] at hparts hasked ⊢
      split
      · next hany =>
        obtain ⟨d, hd, hde⟩ := List.any_eq_true.1 hany
        obtain ⟨hwhole, field, rfl⟩ := hsection.part_of_covers hde hp
        have hmem : none ∈ (parts part? ks).map Prod.fst :=
          List.mem_map.2 ⟨(none, d.2), mem_parts.2 ⟨d, hd, hwhole, rfl⟩, rfl⟩
        have hopen := hasked.resolve_right fun h => h (List.mem_cons_of_mem _ hmem)
        obtain ⟨fields, hfields⟩ := exists_ask_field hopen field e.2
        rw [List.foldlM_cons, hfields, ih (.inl hopen)]
        refine foldlM_ask_congr hmem hopen fun v hv => ?_
        exact ⟨fields, (Option.some.inj hv).symm⟩
      · rw [parts_cons_of_some hp, List.foldlM_cons, List.foldlM_cons]
        cases p with
        | none => exact ih (.inr (List.nodup_cons.1 hparts).1)
        | some field =>
          cases hask : ask asked (some field, e.2) with
          | error d => rfl
          | ok asked' =>
            refine ih (hasked.imp (fun hopen v hv => ?_) fun h hmem =>
              h (List.mem_cons_of_mem _ hmem))
            obtain ⟨fields, hfields⟩ := exists_ask_field hopen field e.2
            cases hask.symm.trans hfields
            exact ⟨fields, (Option.some.inj hv).symm⟩

end TreePath.Settings
