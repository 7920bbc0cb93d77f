import Mathlib.Algebra.BigOperators.Group.List.Basic
import Mathlib.Algebra.Ring.Int.Defs
import Tejas.LabelledRuns
import Tejas.Peterson

/-!
# The lock on a slot of the shared memory

`Shm::get_lock` and `Shm::release_lock` of the instrumentation side, and
`tejas_get_lock` and `tejas_release_lock` of the JNI side. Both work on the `value`
words that follow the `COUNT` packets of a slot. Between them a side may read the
queue size and write it back changed. Every access to a shared word is one step.
-/

namespace Tejas.ShmLock

open LabelledRuns Peterson

/-- `map[COUNT]`: the queue size. -/
def queueSizeWord : ℕ := 0

/-- The words of `Shm::get_lock` and `Shm::release_lock`, counted from `COUNT`. -/
def get_lock : LockCode ℕ ℤ where
  flag := 1
  turn := 3
  otherFlag := 2
  up := 1
  down := 0
  gives := 1
  waitsUp := 1
  waitsFor := 1

/-- The words of `tejas_get_lock` and `tejas_release_lock`. -/
def tejas_get_lock : LockCode ℕ ℤ where
  flag := 2
  turn := 3
  otherFlag := 1
  up := 1
  down := 0
  gives := 0
  waitsUp := 1
  waitsFor := 0

theorem get_lock_mirrors : Mirrors get_lock tejas_get_lock := by
  constructor <;> decide

theorem tejas_get_lock_mirrors : Mirrors tejas_get_lock get_lock := by
  constructor <;> decide

inductive Side
  | pin | jni
  deriving DecidableEq, Repr

def Side.code : Side → LockCode ℕ ℤ
  | .pin => get_lock
  | .jni => tejas_get_lock

def Side.other : Side → Side
  | .pin => .jni
  | .jni => .pin

/-- The words of one slot, the stage of each side, and the queue size a side has read
and not yet written back. -/
structure State where
  words : ℕ → ℤ
  stage : Side → Stage
  loaded : Side → Option ℤ

/-- A slot whose flags are down. -/
def initial (size turn : ℤ) : State where
  words := fun i => if i = queueSizeWord then size else if i = get_lock.turn then turn else 0
  stage := fun _ => .outside
  loaded := fun _ => none

/-- One access of one side: the next access of its lock code, or inside the lock a read
of the queue size or a write of the size it read changed by `d`. -/
inductive Access
  | lock (side : Side)
  | load (side : Side)
  | store (side : Side) (d : ℤ)
  deriving DecidableEq, Repr

/-- `get_lock` and `release_lock`; with the release the local size is forgotten. -/
def State.lock (s : State) (side : Side) : State :=
  let moved := side.code.advance s.words (s.stage side)
  { words := moved.1
    stage := Function.update s.stage side moved.2
    loaded := if s.stage side = .inside then Function.update s.loaded side none else s.loaded }

/-- `queue_size = shmem[COUNT].value`. -/
def State.load (s : State) (side : Side) : State :=
  { s with loaded := Function.update s.loaded side (some (s.words queueSizeWord)) }

/-- `shmem[COUNT].value = queue_size`. -/
def State.store (s : State) (side : Side) (size : ℤ) : State :=
  { s with
    words := Function.update s.words queueSizeWord size
    loaded := Function.update s.loaded side none }

def next (s : State) : Access → Option State
  | .lock side => some (s.lock side)
  | .load side => if s.stage side = .inside then some (s.load side) else none
  | .store side d => (s.loaded side).map (fun size => s.store side (size + d))

/-- The two codes mirror each other from either side. -/
theorem Side.mirrors (side : Side) : Mirrors side.code side.other.code := by
  cases side with
  | pin => exact get_lock_mirrors
  | jni => exact tejas_get_lock_mirrors

@[simp] theorem Side.other_ne (side : Side) : side.other ≠ side := by
  cases side <;> decide

@[simp] theorem Side.other_other (side : Side) : side.other.other = side := by
  cases side <;> rfl

theorem Side.eq_or_other (side side' : Side) : side' = side ∨ side' = side.other := by
  cases side <;> cases side' <;> decide

theorem Side.queueSizeWord_ne (side : Side) :
    queueSizeWord ≠ side.code.flag ∧ queueSizeWord ≠ side.code.turn := by
  cases side <;> decide

@[simp] theorem State.lock_queueSize (s : State) (side : Side) :
    (s.lock side).words queueSizeWord = s.words queueSizeWord :=
  side.code.advance_frame _ _ side.queueSizeWord_ne.1 side.queueSizeWord_ne.2

/-- Both sides' lock codes hold the other one off, and a size a side has read inside the
lock is still the size in the slot. -/
structure Sound (s : State) : Prop where
  lock : ∀ side : Side,
    Excludes side.code side.other.code s.words (s.stage side) (s.stage side.other) True True
  loaded : ∀ side size, s.loaded side = some size →
    s.stage side = .inside ∧ s.words queueSizeWord = size

namespace Sound

variable {s t : State}

/-- What one side's view says, the other side's says too. -/
theorem lock_of_side {s : State} (side : Side)
    (h : Excludes side.code side.other.code s.words (s.stage side) (s.stage side.other)
      True True) (side' : Side) :
    Excludes side'.code side'.other.code s.words (s.stage side') (s.stage side'.other)
      True True := by
  rcases side.eq_or_other side' with heq | hother
  · rw [heq]
    exact h
  · rw [hother, Side.other_other]
    exact h.symm side.mirrors

theorem not_both (h : Sound s) (side : Side) :
    ¬ (s.stage side = .inside ∧ s.stage side.other = .inside) :=
  (h.lock side).not_both_inside side.mirrors trivial trivial

/-- While one side holds a size, the other holds none. -/
theorem other_loaded (h : Sound s) {side : Side} (hin : s.stage side = .inside) :
    s.loaded side.other = none := by
  cases hother : s.loaded side.other with
  | none => rfl
  | some size => exact absurd ⟨hin, (h.loaded _ size hother).1⟩ (h.not_both side)

theorem initial (size turn : ℤ) : Sound (initial size turn) where
  lock := by
    intro side
    cases side <;> constructor <;> simp [ShmLock.initial, Side.code, Side.other, get_lock,
      tejas_get_lock, queueSizeWord]
  loaded := by simp [ShmLock.initial]

theorem step_lock (h : Sound s) (side : Side) : Sound (s.lock side) where
  lock := by
    apply lock_of_side side
    have hback : Mirrors side.other.code side.code := by
      simpa using side.other.mirrors
    have moved := (h.lock side).advance side.mirrors hback
    simpa [State.lock] using moved
  loaded := by
    intro side' size hload
    have hstay : side' ≠ side ∧ s.loaded side' = some size := by
      by_cases hin : s.stage side = .inside
      · by_cases heq : side' = side
        · simp [State.lock, hin, heq] at hload
        · exact ⟨heq, by simpa [State.lock, hin, heq] using hload⟩
      · have hold : s.loaded side' = some size := by simpa [State.lock, hin] using hload
        refine ⟨fun heq => hin ?_, hold⟩
        exact heq ▸ (h.loaded side' size hold).1
    obtain ⟨hne, hold⟩ := hstay
    obtain ⟨hin, hsize⟩ := h.loaded side' size hold
    refine ⟨?_, (s.lock_queueSize side).trans hsize⟩
    simpa [State.lock, hne] using hin

theorem step_load (h : Sound s) {side : Side} (hin : s.stage side = .inside) :
    Sound (s.load side) where
  lock := h.lock
  loaded := by
    intro side' size hload
    by_cases heq : side' = side
    · subst heq
      exact ⟨hin, by simpa [State.load] using hload⟩
    · exact h.loaded side' size (by simpa [State.load, heq] using hload)

/-- Writing the size back leaves nobody with a size read before. -/
theorem step_store (h : Sound s) {side : Side} (hin : s.stage side = .inside) (size : ℤ) :
    Sound (s.store side size) where
  lock := by
    intro side'
    refine (h.lock side').frame ?_ ?_ ?_
    · exact Function.update_of_ne side'.queueSizeWord_ne.1.symm _ _
    · exact Function.update_of_ne side'.other.queueSizeWord_ne.1.symm _ _
    · exact Function.update_of_ne side'.queueSizeWord_ne.2.symm _ _
  loaded := by
    intro side' size' hload
    rcases side.eq_or_other side' with heq | hother
    · simp [State.store, heq] at hload
    · have hnone := h.other_loaded hin
      simp [State.store, hother, hnone] at hload

theorem step {a : Access} (h : Sound s) (hs : next s a = some t) : Sound t := by
  cases a with
  | lock side =>
    cases hs
    exact h.step_lock side
  | load side =>
    by_cases hin : s.stage side = .inside
    · simp only [next, hin, if_true, Option.some.injEq] at hs
      exact hs ▸ h.step_load hin
    · simp [next, hin] at hs
  | store side d =>
    obtain ⟨size, hload, ht⟩ := Option.map_eq_some_iff.mp hs
    exact ht ▸ h.step_store (h.loaded side size hload).1 (size + d)

theorem run {size turn : ℤ} {accesses : List Access}
    (run : Run (StepOf next) (ShmLock.initial size turn) accesses s) : Sound s :=
  run.invariant (initial size turn) (fun _ _ _ h hs => h.step hs)

end Sound

/-- However the single accesses of the two sides are interleaved, the sides are never
both between `get_lock` and `release_lock`. A side that has read the queue size finds it
unchanged when it writes it back, and meanwhile the other side has not read it. -/
theorem lock_excludes {size turn : ℤ} {accesses : List Access} {s : State}
    (run : Run (StepOf next) (initial size turn) accesses s) :
    ¬ (s.stage .pin = .inside ∧ s.stage .jni = .inside) ∧
      ∀ side read, s.loaded side = some read →
        s.stage side = .inside ∧ s.words queueSizeWord = read ∧ s.loaded side.other = none := by
  have sound := Sound.run run
  refine ⟨sound.not_both .pin, ?_⟩
  intro side read hload
  obtain ⟨hin, hsize⟩ := sound.loaded side read hload
  exact ⟨hin, hsize, sound.other_loaded hin⟩

/-- Both sides ask for the lock, the instrumentation side gets it and reads the size. -/
theorem lock_excludes_contended : ∃ s : State,
    (s.stage .pin = .inside ∧ s.stage .jni = .gave ∧ s.loaded .pin = some 7) ∧
      ¬ (s.stage .pin = .inside ∧ s.stage .jni = .inside) ∧
      ∀ side read, s.loaded side = some read →
        s.stage side = .inside ∧ s.words queueSizeWord = read ∧ s.loaded side.other = none := by
  have reached : (exec next (initial 7 0) [.lock .pin, .lock .jni, .lock .pin, .lock .jni,
      .lock .pin, .lock .jni, .lock .pin, .lock .jni, .load .pin]).any
      (fun s => decide (s.stage .pin = .inside ∧ s.stage .jni = .gave ∧
        s.loaded .pin = some 7)) = true := by decide
  obtain ⟨s, hs, hstate⟩ := (Option.any_eq_true _ _).mp reached
  exact ⟨s, of_decide_eq_true hstate, lock_excludes (run_of_exec hs)⟩

/-- What an access adds to the queue size. -/
def Access.added : Access → ℤ
  | .lock _ | .load _ => 0
  | .store _ d => d

/-- No change of the queue size is lost: it is the first size and all that both sides
have added. -/
theorem size_accounts {size turn : ℤ} {accesses : List Access} {s : State}
    (run : Run (StepOf next) (initial size turn) accesses s) :
    s.words queueSizeWord = size + (accesses.map Access.added).sum := by
  induction run with
  | nil => simp [initial]
  | @snoc accesses s t a prior last ih =>
    have sound := Sound.run prior
    rw [List.map_append, List.sum_append, ← add_assoc, ← ih]
    cases a with
    | lock side =>
      cases last
      simp [Access.added]
    | load side =>
      simp only [StepOf, next] at last
      split at last
      · cases last
        simp [State.load, Access.added]
      · cases last
    | store side d =>
      obtain ⟨read, hload, ht⟩ := Option.map_eq_some_iff.mp last
      have hread := (sound.loaded side read hload).2
      simp [← ht, State.store, hread, Access.added]

end Tejas.ShmLock
