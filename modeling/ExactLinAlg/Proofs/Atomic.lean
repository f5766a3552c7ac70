import ExactLinAlg.Mat.InPlace

/-!
# Commands in place are atomic

In place, an operation has changed something when a later step of it fails, unless it first reads
and then only writes. Three properties say which steps may stand where: a computation that only
reads (`InPlace.ReadOnly`) may come before one that changes nothing if it fails (`InPlace.Atomic`),
and one that cannot fail (`InPlace.Total`) after it. Every command is put together like this, the
echelon form with the help of a copy (`InPlace.atomic_onCopy`), so every command is atomic
(`Mat.Command.atomic_perform`).
-/

namespace ExactLinAlg

namespace InPlace

variable {α β : Type} {p : InPlace α} {q : α → InPlace β} {m n : Mat} {a : α} {e : Error}

/-- The matrix after a computation, whether it fails or not. -/
def after (p : InPlace α) (m : Mat) : Mat :=
  match p.run m with
  | .ok _ n => n
  | .error _ n => n

theorem after_of_ok (h : p.run m = .ok a n) : p.after m = n := by
  rw [after, h]

theorem after_of_error (h : p.run m = .error e n) : p.after m = n := by
  rw [after, h]

theorem run_bind_of_ok (h : p.run m = .ok a n) : (p >>= q).run m = (q a).run n := by
  show EStateM.bind p q m = _
  rw [EStateM.bind, show p m = .ok a n from h]
  rfl

theorem run_bind_of_error (h : p.run m = .error e n) : (p >>= q).run m = .error e n := by
  show EStateM.bind p q m = _
  rw [EStateM.bind, show p m = .error e n from h]

theorem error_of_run_bind (h : (p >>= q).run m = .error e n) :
    p.run m = .error e n ∨ ∃ a k, p.run m = .ok a k ∧ (q a).run k = .error e n := by
  cases hp : p.run m with
  | ok a k =>
    rw [run_bind_of_ok hp] at h
    exact Or.inr ⟨a, k, rfl, h⟩
  | error f k =>
    rw [run_bind_of_error hp] at h
    cases h
    exact Or.inl rfl

theorem run_reads_of_ok {f : Mat → Except Error α} (h : f m = .ok a) :
    (reads f).run m = .ok a m := by
  rw [reads, run_bind_of_ok (p := get) (a := m) (n := m) rfl, h]
  rfl

theorem run_reads_of_error {f : Mat → Except Error α} (h : f m = .error e) :
    (reads f).run m = .error e m := by
  rw [reads, run_bind_of_ok (p := get) (a := m) (n := m) rfl, h]
  rfl

theorem run_onCopy_of_ok (h : p.run m = .ok a n) : (onCopy p).run m = .ok a n := by
  rw [onCopy, run_bind_of_ok (p := get) (a := m) (n := m) rfl, h]
  rfl

theorem run_onCopy_of_error (h : p.run m = .error e n) : (onCopy p).run m = .error e m := by
  rw [onCopy, run_bind_of_ok (p := get) (a := m) (n := m) rfl, h]
  rfl

/-! ## Which steps may stand where -/

/-- The computation changes nothing. -/
def ReadOnly (p : InPlace α) : Prop := ∀ m, p.after m = m

/-- If the computation fails, it has changed nothing. -/
def Atomic (p : InPlace α) : Prop := ∀ m e n, p.run m = .error e n → n = m

/-- The computation cannot fail. -/
def Total (p : InPlace α) : Prop := ∀ m, ∃ a n, p.run m = .ok a n

theorem readOnly_reads (f : Mat → Except Error α) : (reads f).ReadOnly := by
  intro m
  cases h : f m with
  | ok a => exact after_of_ok (run_reads_of_ok h)
  | error e => exact after_of_error (run_reads_of_error h)

theorem total_modify (f : Mat → Mat) : Total (modify f : InPlace Unit) := fun m => ⟨(), f m, rfl⟩

theorem total_pure (a : α) : Total (pure a) := fun m => ⟨a, m, rfl⟩

theorem Total.bind (hp : Total p) (hq : ∀ a, Total (q a)) : Total (p >>= q) := by
  intro m
  obtain ⟨a, n, h⟩ := hp m
  rw [run_bind_of_ok h]
  exact hq a n

theorem Total.forM {f : α → InPlace Unit} (hf : ∀ a, Total (f a)) (l : List α) :
    Total (l.forM f) := by
  induction l with
  | nil => exact total_pure ()
  | cons a l ih => exact (hf a).bind fun _ => ih

theorem Total.atomic (hp : Total p) : p.Atomic := by
  intro m e n h
  obtain ⟨a, k, hk⟩ := hp m
  exact nomatch h.symm.trans hk

theorem ReadOnly.atomic (hp : p.ReadOnly) : p.Atomic := by
  intro m e n h
  rw [← after_of_error h]
  exact hp m

/-- What is read may decide what is done. -/
theorem Atomic.read_bind (hp : p.ReadOnly) (hq : ∀ a, (q a).Atomic) : (p >>= q).Atomic := by
  intro m e n h
  rcases error_of_run_bind h with h | ⟨a, k, hk, h⟩
  · exact hp.atomic m e n h
  · have hkm : k = m := (after_of_ok hk).symm.trans (hp m)
    rw [hq a k e n h, hkm]

/-- After the last failure everything may be changed. -/
theorem Atomic.bind_total (hp : p.Atomic) (hq : ∀ a, Total (q a)) : (p >>= q).Atomic := by
  intro m e n h
  rcases error_of_run_bind h with h | ⟨a, k, -, h⟩
  · exact hp m e n h
  · obtain ⟨b, l, hl⟩ := hq a k
    exact nomatch h.symm.trans hl

theorem ReadOnly.bind (hp : p.ReadOnly) (hq : ∀ a, (q a).ReadOnly) : (p >>= q).ReadOnly := by
  intro m
  cases h : p.run m with
  | ok a k =>
    have hkm : k = m := (after_of_ok h).symm.trans (hp m)
    rw [after, run_bind_of_ok h, hkm]
    exact hq a m
  | error e k => rw [after_of_error (run_bind_of_error h), ← hp m, after_of_error h]

theorem ReadOnly.forM {f : α → InPlace Unit} (hf : ∀ a, (f a).ReadOnly) (l : List α) :
    (l.forM f).ReadOnly := by
  induction l with
  | nil => exact fun m => rfl
  | cons a l ih => exact (hf a).bind fun _ => ih

/-- What is done on a copy may fail anywhere. -/
theorem atomic_onCopy (p : InPlace α) : (onCopy p).Atomic := by
  intro m e n h
  cases hp : p.run m with
  | ok a k => exact nomatch h.symm.trans (run_onCopy_of_ok hp)
  | error f k =>
    rw [run_onCopy_of_error hp] at h
    cases h
    rfl

/-! ## The changes -/

theorem total_overwriteLine (i : Nat) (values : Vec) : Total (overwriteLine i values) :=
  Total.forM (fun _ => total_modify _) _

theorem atomic_setAt (i j : Nat) (x : Fraction) : (setAt i j x).Atomic := by
  refine Atomic.read_bind (readOnly_reads _) fun _ => ?_
  refine Atomic.read_bind (readOnly_reads _) fun _ => ?_
  refine Atomic.read_bind (readOnly_reads _) fun _ => ?_
  exact (total_modify _).atomic

theorem atomic_setRow (i : Nat) (row : Vec) : (setRow i row).Atomic := by
  refine Atomic.read_bind (readOnly_reads _) fun _ => ?_
  refine Atomic.read_bind (readOnly_reads _) fun _ => ?_
  refine Atomic.read_bind (readOnly_reads _) fun old => ?_
  exact ((total_modify _).bind fun _ => total_pure old).atomic

theorem atomic_replaceRows (data : List Vec) : (replaceRows data).Atomic := by
  refine Atomic.read_bind (readOnly_reads _) fun _ => ?_
  refine Atomic.read_bind (ReadOnly.forM (fun row => readOnly_reads _) data) fun _ => ?_
  exact Total.atomic fun m => ⟨m.data, _, rfl⟩

theorem atomic_rowOp (op : RowOp) : (rowOp op).Atomic := by
  cases op with
  | swap i j =>
    refine Atomic.read_bind (readOnly_reads _) fun upper => ?_
    refine Atomic.read_bind (readOnly_reads _) fun lower => ?_
    exact ((total_modify _).bind fun _ => total_modify _).atomic
  | scale factor i =>
    refine Atomic.read_bind (readOnly_reads _) fun row => ?_
    refine Atomic.read_bind (readOnly_reads _) fun updated => ?_
    exact (total_overwriteLine i updated).atomic
  | addScaled factor source target =>
    refine Atomic.read_bind (readOnly_reads _) fun pair => ?_
    refine Atomic.read_bind (readOnly_reads _) fun updated => ?_
    exact (total_overwriteLine target updated).atomic

theorem atomic_query (f : Mat → Except Error α) (answer : α → Mat.Answer) :
    (query f answer).Atomic :=
  ((readOnly_reads f).bind fun _ _ => rfl : ReadOnly (query f answer)).atomic

theorem atomic_produce (keep : Bool) (f : Mat → Except Error Mat) : (produce keep f).Atomic := by
  refine Atomic.read_bind (readOnly_reads f) fun result => ?_
  cases keep with
  | false => exact (total_pure _).atomic
  | true => exact Total.atomic fun m => ⟨_, _, rfl⟩

end InPlace

namespace Mat.Command

open InPlace

/-- A command that fails has changed nothing. -/
theorem atomic_perform (c : Command) : c.perform.Atomic := by
  cases c with
  | set i j x => exact (atomic_setAt i j x).bind_total fun _ => total_pure _
  | setRow i values => exact (atomic_setRow i values).bind_total fun _ => total_pure _
  | replaceRows data => exact (atomic_replaceRows data).bind_total fun _ => total_pure _
  | gauss full => exact (atomic_onCopy (eliminate full)).bind_total fun _ => total_pure _
  | rowOp op => exact (atomic_rowOp op).bind_total fun _ => total_pure _
  | mul right keep => exact atomic_produce keep _
  | mulLeft left keep => exact atomic_produce keep _
  | transposed keep => exact atomic_produce keep _
  | inverse keep => exact atomic_produce keep _
  | hstack right keep => exact atomic_produce keep _
  | describe => exact atomic_query _ _
  | get i j => exact atomic_query _ _
  | entry i j => exact atomic_query _ _
  | row i => exact atomic_query _ _
  | mulVec v => exact atomic_query _ _
  | solve b => exact atomic_query _ _
  | determinant => exact atomic_query _ _
  | rank => exact atomic_query _ _
  | text => exact atomic_query _ _
  | equal other => exact atomic_query _ _

end Mat.Command

end ExactLinAlg
