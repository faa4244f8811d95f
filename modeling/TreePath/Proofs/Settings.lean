import TreePath.Compiler
import TreePath.Proofs.Except
import TreePath.Settings.Override

namespace TreePath

theorem Number.lt_int (a b : Int) : (Number.int a).lt (.int b) = decide (a < b) := by
  have hscale (n : Int) : n * Int.pow 2 (0 - 0 : Int).toNat = n := Int.mul_one n
  have hcompare : (Number.int a).compare? (.int b) = some (Ord.compare a b) := by
    show some (Ord.compare (a * _) (b * _)) = _
    rw [hscale, hscale]
  rw [lt, hcompare, Bool.eq_iff_iff, decide_eq_true_iff, decide_eq_true_iff, Option.some.injEq]
  exact Int.compare_eq_lt

namespace QuerySettings

inductive Assignment where
  | enableCaching (b : Bool)
  | cacheSizeLimit (n : Int)
  | enableMetrics (b : Bool)

def Assignment.field : Assignment → String
  | enableCaching _ => "enable_caching"
  | cacheSizeLimit _ => "cache_size_limit"
  | enableMetrics _ => "enable_metrics"

def Assignment.value : Assignment → Json
  | enableCaching b | enableMetrics b => b
  | cacheSizeLimit n => n

def IsLimited (q : QuerySettings) : Prop :=
  ∃ n, q.limit? = some n

variable {q : QuerySettings}

theorem IsLimited.caching (h : q.IsLimited) : ∃ v, q.caching = .ok v := by
  obtain ⟨n, hn⟩ := h
  rw [QuerySettings.caching, hn]
  split
  · exact ⟨_, rfl⟩
  · exact ⟨_, rfl⟩

/-- Whether paths are kept: this is asked for, and there is room for one. -/
def KeepsPaths (q : QuerySettings) : Prop :=
  q.enableCaching.truthy = true ∧ ∃ n, q.limit? = some n ∧ (Number.int 0).lt n = true

theorem truthy_caching {caching : Json} (h : q.caching = .ok caching) :
    caching.truthy = true ↔ q.KeepsPaths := by
  rw [QuerySettings.caching] at h
  split at h
  · next hon =>
    split at h
    · next n hn =>
      cases h
      constructor
      · intro hlt
        exact ⟨hon, n, hn, hlt⟩
      · rintro ⟨-, k, hk, hlt⟩
        cases hn.symm.trans hk
        exact hlt
    · cases h
  · next hoff =>
    cases h
    exact ⟨fun hon => (hoff hon).elim, fun hkeeps => hkeeps.1⟩

theorem isLimited_of_check {invalid : Settings.Invalid → Settings.Fault}
    (h : q.check invalid = .ok ()) : q.IsLimited := by
  rw [check] at h
  split at h
  · cases h
  · next n hn => exact ⟨n, hn⟩

theorem check_eq_ok_iff {invalid : Settings.Invalid → Settings.Fault} {n : Int}
    (hlimit : q.limit? = some (.int n)) : q.check invalid = .ok () ↔ 0 ≤ n := by
  rw [check, hlimit]
  simp only [Number.lt_int, decide_eq_true_iff]
  by_cases hn : n < 0
  · rw [if_pos hn]
    exact iff_of_false nofun (Int.not_le.2 hn)
  · rw [if_neg hn]
    exact iff_of_true rfl (Int.not_lt.1 hn)

theorem IsLimited.assign (h : q.IsLimited) (a : Assignment) :
    (Settings.assign set? q a.field a.value).IsLimited := by
  cases a with
  | enableCaching b => exact h
  | cacheSizeLimit n => exact ⟨.int n, rfl⟩
  | enableMetrics b => exact h

/-- So many paths are kept, and that is not none. -/
structure Keeps (q : QuerySettings) (limit : Nat) : Prop where
  enabled : q.enableCaching.truthy = true
  limit_eq : q.limit? = some (.int limit)
  pos : 0 < limit

variable {limit : Nat}

theorem Keeps.caching (h : q.Keeps limit) : q.caching = .ok true := by
  rw [QuerySettings.caching, if_pos h.enabled, h.limit_eq]
  dsimp only
  rw [Number.lt_int, decide_eq_true (Int.natCast_pos.2 h.pos)]

theorem Keeps.exceeds (h : q.Keeps limit) : q.exceeds = fun size => decide (limit < size) := by
  funext size
  rw [QuerySettings.exceeds, h.limit_eq, Option.any_some, Number.lt_int, Bool.eq_iff_iff,
    decide_eq_true_iff, decide_eq_true_iff, Int.ofNat_lt]

end QuerySettings

namespace Settings

variable {s : Settings} {r : Revision}

theorem isLimited_of_check (h : s.check = .ok ()) : s.query.IsLimited := by
  obtain ⟨_, hquery, _⟩ := Except.exists_of_bind_eq_ok h
  exact QuerySettings.isLimited_of_check hquery

theorem check_of_override {keywords : List (String × Json)} (h : s.override keywords = .ok r) :
    (r.apply s).check = .ok () := by
  rw [override] at h
  split at h
  · cases h
  · obtain ⟨_, _, h⟩ := Except.exists_of_bind_eq_ok h
    obtain ⟨_, _, h⟩ := Except.exists_of_bind_eq_ok h
    obtain ⟨_, _, h⟩ := Except.exists_of_bind_eq_ok h
    obtain ⟨_, _, h⟩ := Except.exists_of_bind_eq_ok h
    obtain ⟨_, hcheck, h⟩ := Except.exists_of_bind_eq_ok h
    cases h
    exact hcheck

end Settings

end TreePath
