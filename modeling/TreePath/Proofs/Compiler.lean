import TreePath.Compiler
import TreePath.Proofs.Path.Grammar
import TreePath.Proofs.Recency

namespace TreePath

theorem Path.expression_of_ofText {text : String} {p : Path} (h : Path.ofText text = .ok p) :
    p.expression = text := by
  obtain ⟨steps, _, rfl⟩ := exists_steps_of_ofText h
  rfl

theorem QuerySettings.count_count (q : QuerySettings) (k k' : Metrics → Metrics) (n : Metrics) :
    q.count k (q.count k' n) = q.count (k ∘ k') n := by
  rw [count, count, count]
  split <;> rfl

/-- What a request for a text counts: it depends on whether paths are kept, whether one is kept for
the text, and whether the text is read as a path. -/
def Metrics.countText : Bool → Bool → Bool → Metrics → Metrics
  | true, true, _ => countHit
  | true, false, true => countCompilation ∘ countMiss
  | true, false, false => countMiss
  | false, _, true => countCompilation
  | false, _, false => id

namespace Compiler

/-- Paths are kept for the texts that they were read from. -/
def Faithful (cache : Recency String Prepared) : Prop :=
  ∀ e ∈ cache.entries, Path.ofText e.1 = .ok e.2.path

variable {q : QuerySettings} {g : Logger} {text : String} {s : State}
  {cache : Recency String Prepared} {p : Prepared} {path : Path} {e : Path.Malformed}

theorem read_of_ok (h : Path.ofText text = .ok path) :
    read q g text s = (.ok ⟨path, s.serial⟩, (accept q g path s).2) := by
  rw [read, h]
  rfl

theorem read_of_error (h : Path.ofText text = .error e) :
    read q g text s = (.error (.malformed e), reject g e s) := by
  rw [read, h]

theorem lookUp_of_find (h : s.cache.find? text = some p) :
    lookUp q g text s = (.ok p, hit q g text p s) := by
  rw [lookUp, h]

theorem lookUp_of_ok (h : s.cache.find? text = none) (hp : Path.ofText text = .ok path) :
    lookUp q g text s =
      (.ok ⟨path, s.serial⟩, keep q ⟨path, s.serial⟩ (accept q g path (miss q s)).2) := by
  rw [lookUp, h]
  simp only [read_of_ok hp]
  rfl

theorem cache_lookUp_of_ok (h : s.cache.find? text = none) (hp : Path.ofText text = .ok path) :
    (lookUp q g text s).2.cache = (s.cache.use text ⟨path, s.serial⟩).trim q.exceeds := by
  rw [lookUp_of_ok h hp]
  show (s.cache.use path.expression _).trim _ = _
  rw [Path.expression_of_ofText hp]

theorem lookUp_of_error (h : s.cache.find? text = none) (he : Path.ofText text = .error e) :
    lookUp q g text s = (.error (.malformed e), reject g e (miss q s)) := by
  rw [lookUp, h]
  simp only [read_of_error he]

theorem prepare_text {caching : Json} (hq : q.caching = .ok caching) :
    prepare q g (.text text) s =
      if caching.truthy then lookUp q g text s else read q g text s := by
  simp only [prepare, hq]

theorem faithful_empty : Faithful {} :=
  nofun

theorem Faithful.ofText_of_find? (h : Faithful cache) (hfind : cache.find? text = some p) :
    Path.ofText text = .ok p.path :=
  h (text, p) (Recency.mem_of_find? hfind)

theorem Faithful.use (h : Faithful cache) (hp : Path.ofText text = .ok p.path) :
    Faithful (cache.use text p) := by
  intro e he
  rcases Recency.mem_use he with he | rfl
  · exact h e he
  · exact hp

theorem Faithful.trim (h : Faithful cache) (tooLarge : Nat → Bool) :
    Faithful (cache.trim tooLarge) :=
  fun e he => h e (Recency.mem_trim he)

theorem path_read : (read q g text s).1.map (·.path) = (Path.ofText text).mapError .malformed := by
  cases h : Path.ofText text with
  | ok path =>
    rw [read_of_ok h]
    rfl
  | error e =>
    rw [read_of_error h]
    rfl

theorem path_lookUp (h : Faithful s.cache) :
    (lookUp q g text s).1.map (·.path) = (Path.ofText text).mapError .malformed := by
  cases hfind : s.cache.find? text with
  | some p =>
    rw [lookUp_of_find hfind, h.ofText_of_find? hfind]
    rfl
  | none =>
    cases hp : Path.ofText text with
    | ok path =>
      rw [lookUp_of_ok hfind hp]
      rfl
    | error e =>
      rw [lookUp_of_error hfind hp]
      rfl

theorem path_prepare {caching : Json} (hq : q.caching = .ok caching) (h : Faithful s.cache) :
    (prepare q g (.text text) s).1.map (·.path) = (Path.ofText text).mapError .malformed := by
  rw [prepare_text hq]
  split
  · exact path_lookUp h
  · exact path_read

theorem cache_read : (read q g text s).2.cache = s.cache := by
  cases h : Path.ofText text with
  | ok path =>
    rw [read_of_ok h]
    rfl
  | error e =>
    rw [read_of_error h]
    rfl

theorem metrics_read (known : Bool) : (read q g text s).2.metrics =
    q.count (.countText false known (Path.ofText text).isOk) s.metrics := by
  cases h : Path.ofText text with
  | ok path =>
    rw [read_of_ok h]
    rfl
  | error e =>
    rw [read_of_error h]
    exact (ite_self _).symm

theorem metrics_lookUp : (lookUp q g text s).2.metrics =
    q.count (.countText true (s.cache.find? text).isSome (Path.ofText text).isOk) s.metrics := by
  cases hfind : s.cache.find? text with
  | some p =>
    rw [lookUp_of_find hfind]
    rfl
  | none =>
    cases hp : Path.ofText text with
    | ok path =>
      rw [lookUp_of_ok hfind hp]
      exact QuerySettings.count_count ..
    | error e =>
      rw [lookUp_of_error hfind hp]
      rfl

theorem metrics_prepare {caching : Json} (hq : q.caching = .ok caching) :
    (prepare q g (.text text) s).2.metrics = q.count (.countText caching.truthy
      (s.cache.find? text).isSome (Path.ofText text).isOk) s.metrics := by
  rw [prepare_text hq]
  split
  · next htruthy =>
    rw [htruthy]
    exact metrics_lookUp
  · next htruthy =>
    rw [Bool.not_eq_true] at htruthy
    rw [htruthy]
    exact metrics_read _

theorem Faithful.lookUp (h : Faithful s.cache) : Faithful (lookUp q g text s).2.cache := by
  cases hfind : s.cache.find? text with
  | some p =>
    rw [lookUp_of_find hfind]
    exact h.use (h.ofText_of_find? hfind)
  | none =>
    cases hp : Path.ofText text with
    | ok path =>
      have hkept : Faithful (s.cache.use text ⟨path, s.serial⟩) := h.use hp
      rw [cache_lookUp_of_ok hfind hp]
      exact hkept.trim q.exceeds
    | error e =>
      rw [lookUp_of_error hfind hp]
      exact h

theorem cache_refuse (caching : Bool) (request : Request) :
    (refuse q caching request s).2.cache = s.cache := by
  rw [refuse]
  split
  · rfl
  · split <;> rfl

theorem Faithful.prepare (h : Faithful s.cache) (request : Request) :
    Faithful (prepare q g request s).2.cache := by
  cases hq : q.caching with
  | error e =>
    simp only [Compiler.prepare, hq]
    exact h
  | ok caching =>
    cases request with
    | text text =>
      rw [prepare_text hq]
      split
      · exact h.lookUp
      · rwa [cache_read]
    | path p =>
      simp only [Compiler.prepare, hq, cache_refuse]
      exact h
    | other isKey =>
      simp only [Compiler.prepare, hq, cache_refuse]
      exact h

end Compiler

end TreePath
