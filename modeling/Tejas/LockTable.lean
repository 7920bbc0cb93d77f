import Tejas.JavaHashtable

/-!
# The lock table

`LockTable.java` keeps the holder of each lock in `acquired_locks` and the
refused threads in `waiting_locks`. Every call runs under one mutex, so an
interleaving of threads is a sequence of calls. A ledger replays the calls with
their replies and says who holds a lock and who still waits for it.
-/

namespace Tejas
open JavaHashtable

/-- `acquired_locks` and `waiting_locks`. -/
structure LockTable where
  acquiredLocks : Hashtable ℤ ℤ
  waitingLocks : Hashtable ℤ (List ℤ)
  deriving DecidableEq, Repr

namespace LockTable

def empty : LockTable := ⟨.empty, .empty⟩

/-- `acquired_locks.contains(addr)`: the address is boxed as a `Long` and compared
with the values of the table, which are `Integer` thread numbers. -/
def acquiredContains (s : LockTable) (addr : ℤ) : Bool :=
  s.acquiredLocks.contains .integer (.long addr)

/-- `waiting_locks.contains(addr)`: the values are lists of thread numbers. -/
def waitingContains (s : LockTable) (addr : ℤ) : Bool :=
  s.waitingLocks.contains .arrayList (.long addr)

/-- `try_locking`; `none` is a null dereference. -/
def tryLocking (s : LockTable) (thread addr : ℤ) : Option (Bool × LockTable) :=
  if acquiredContains s addr then
    if waitingContains s addr then
      (s.waitingLocks.get addr).map (fun waitingList =>
        (false, { s with waitingLocks := s.waitingLocks.put addr (waitingList ++ [thread]) }))
    else
      some (false, { s with waitingLocks := s.waitingLocks.put addr [thread] })
  else
    some (true, { s with acquiredLocks := s.acquiredLocks.put addr thread })

/-- `try_unlocking`; the reply is the thread to be woken up, `-1` for none. -/
def tryUnlocking (s : LockTable) (_thread addr : ℤ) : Option (ℤ × LockTable) :=
  if s.acquiredLocks.containsKey addr = false then
    some (-1, s)
  else if waitingContains s addr then
    match s.waitingLocks.get addr with
    | none => none
    | some [] => none
    | some (woken :: rest) =>
      some (woken,
        { acquiredLocks := s.acquiredLocks.put addr woken
          waitingLocks :=
            if rest = [] then s.waitingLocks.remove addr else s.waitingLocks.put addr rest })
  else
    some (-1, { s with acquiredLocks := s.acquiredLocks.remove addr })

/-- `lockExit2`: the threads to be resumed. -/
def lockExit2 (s : LockTable) (thread addr : ℤ) : Option (List ℤ × LockTable) :=
  (tryLocking s thread addr).map (fun r => (if r.1 then [thread] else [], r.2))

/-- `unlockEnter2`: the threads to be resumed. -/
def unlockEnter2 (s : LockTable) (thread addr : ℤ) : Option (List ℤ × LockTable) :=
  (tryUnlocking s thread addr).map (fun r => (if r.1 = -1 then [] else [r.1], r.2))

inductive Call where
  | lock (thread addr : ℤ)
  | unlock (thread addr : ℤ)
  deriving DecidableEq, Repr

inductive Reply where
  | granted (success : Bool)
  | woken (thread : ℤ)
  deriving DecidableEq, Repr

def answer (s : LockTable) : Call → Option (Reply × LockTable)
  | .lock thread addr => (tryLocking s thread addr).map (fun r => (.granted r.1, r.2))
  | .unlock thread addr => (tryUnlocking s thread addr).map (fun r => (.woken r.1, r.2))

/-- The calls of a run with the replies the table gives. -/
def history (s : LockTable) : List Call → Option (List (Call × Reply))
  | [] => some []
  | c :: rest =>
    (answer s c).bind (fun r => (history r.2 rest).map (fun h => (c, r.1) :: h))

@[simp] theorem acquiredContains_eq_false (s : LockTable) (addr : ℤ) :
    acquiredContains s addr = false :=
  Hashtable.contains_eq_false _ _ (fun _ => by simp)

@[simp] theorem waitingContains_eq_false (s : LockTable) (addr : ℤ) :
    waitingContains s addr = false :=
  Hashtable.contains_eq_false _ _ (fun _ => by simp)

/-- A lock is granted whoever holds it. -/
theorem tryLocking_eq (s : LockTable) (thread addr : ℤ) :
    tryLocking s thread addr =
      some (true, { s with acquiredLocks := s.acquiredLocks.put addr thread }) := by
  simp [tryLocking]

theorem tryUnlocking_eq (s : LockTable) (thread addr : ℤ) :
    tryUnlocking s thread addr =
      some (-1, if s.acquiredLocks.containsKey addr = false then s
        else { s with acquiredLocks := s.acquiredLocks.remove addr }) := by
  by_cases h : s.acquiredLocks.containsKey addr = false
  · simp [tryUnlocking, h]
  · simp [tryUnlocking, h]

/-- A thread that asks for a lock is resumed at once. -/
theorem lockExit2_resumes (s : LockTable) (thread addr : ℤ) :
    (lockExit2 s thread addr).map Prod.fst = some [thread] := by
  simp [lockExit2, tryLocking_eq]

/-- No unlock resumes a waiting thread. -/
theorem unlockEnter2_resumes_none (s : LockTable) (thread addr : ℤ) :
    (unlockEnter2 s thread addr).map Prod.fst = some [] := by
  simp [unlockEnter2, tryUnlocking_eq]

/-! ## Who holds a lock and who waits for it -/

/-- What the calls and their replies say: the holder of each address and the
threads refused on it, oldest first. -/
structure Ledger where
  holder : ℤ → Option ℤ
  refused : ℤ → List ℤ

namespace Ledger

def initial : Ledger := ⟨fun _ => none, fun _ => []⟩

def after (l : Ledger) : Call → Reply → Ledger
  | .lock thread addr, .granted true =>
    { l with holder := Function.update l.holder addr (some thread) }
  | .lock thread addr, .granted false =>
    { l with refused := Function.update l.refused addr (l.refused addr ++ [thread]) }
  | .unlock _ addr, .woken thread =>
    { holder := Function.update l.holder addr (if thread = -1 then none else some thread)
      refused := Function.update l.refused addr (l.refused addr).tail }
  | _, _ => l

/-- A lock is granted only when no thread holds it; an unlock of a held lock
grants it to the thread refused first, if there is one, and any other unlock
grants nothing. -/
def Serves (l : Ledger) : Call → Reply → Prop
  | .lock _ addr, .granted success => success = true → l.holder addr = none
  | .unlock _ addr, .woken thread =>
    thread = if l.holder addr = none then -1 else (l.refused addr).head?.getD (-1)
  | _, _ => False

end Ledger

/-- Every reply of a history serves the lock as its ledger then stands. -/
def ServesInOrder : Ledger → List (Call × Reply) → Prop
  | _, [] => True
  | l, (c, r) :: rest => l.Serves c r ∧ ServesInOrder (l.after c r) rest

/-- Whether the last call on the address asked for the lock, `held` if there is none. -/
def heldFrom (held : Bool) (calls : List Call) (addr : ℤ) : Bool :=
  calls.foldl (fun held c =>
    match c with
    | .lock _ a => if a = addr then true else held
    | .unlock _ a => if a = addr then false else held) held

/-- No call asks for a lock that is held at that moment. -/
def Uncontended (calls : List Call) : Prop :=
  ∀ before thread addr later, calls = before ++ .lock thread addr :: later →
    heldFrom false before addr = false

/-- The reply the code gives whatever the table holds. -/
def fixedReply : Call → Reply
  | .lock _ _ => .granted true
  | .unlock _ _ => .woken (-1)

theorem answer_reply (s : LockTable) (c : Call) : ∃ t, answer s c = some (fixedReply c, t) := by
  cases c with
  | lock thread addr => exact ⟨_, by simp [answer, tryLocking_eq, fixedReply]; rfl⟩
  | unlock thread addr => exact ⟨_, by simp [answer, tryUnlocking_eq, fixedReply]; rfl⟩

theorem history_eq (s : LockTable) (calls : List Call) :
    history s calls = some (calls.map (fun c => (c, fixedReply c))) := by
  induction calls generalizing s with
  | nil => rfl
  | cons c rest ih =>
    obtain ⟨t, ht⟩ := answer_reply s c
    simp [history, ht, ih]

/-- The ledger of the code's own replies: nobody waits, and the held addresses are
those whose last call asked for the lock. -/
structure Tracks (l : Ledger) (held : ℤ → Bool) : Prop where
  refused_nil : ∀ addr, l.refused addr = []
  holder_isSome : ∀ addr, (l.holder addr).isSome = held addr

theorem Tracks.after {l : Ledger} {held : ℤ → Bool} (h : Tracks l held) (c : Call) :
    Tracks (l.after c (fixedReply c)) (fun addr => heldFrom (held addr) [c] addr) := by
  cases c with
  | lock thread a =>
    refine ⟨h.refused_nil, fun addr => ?_⟩
    by_cases ha : a = addr
    · subst ha
      simp [Ledger.after, fixedReply, heldFrom]
    · have hne : addr ≠ a := fun h => ha h.symm
      simp [Ledger.after, fixedReply, heldFrom, ha, hne, h.holder_isSome]
  | unlock thread a =>
    refine ⟨fun addr => ?_, fun addr => ?_⟩
    · by_cases ha : addr = a
      · subst ha
        simp [Ledger.after, fixedReply, h.refused_nil]
      · simp [Ledger.after, fixedReply, ha, h.refused_nil]
    · by_cases ha : a = addr
      · subst ha
        simp [Ledger.after, fixedReply, heldFrom]
      · have hne : addr ≠ a := fun h => ha h.symm
        simp [Ledger.after, fixedReply, heldFrom, ha, hne, h.holder_isSome]

theorem Tracks.serves_iff {l : Ledger} {held : ℤ → Bool} (h : Tracks l held) (c : Call) :
    l.Serves c (fixedReply c) ↔ ∀ thread addr, c = .lock thread addr → held addr = false := by
  cases c with
  | lock thread a => simp [Ledger.Serves, fixedReply, ← h.holder_isSome]
  | unlock thread a => simp [Ledger.Serves, fixedReply, h.refused_nil]

theorem Tracks.servesInOrder_iff {l : Ledger} {held : ℤ → Bool} (h : Tracks l held)
    (calls : List Call) :
    ServesInOrder l (calls.map (fun c => (c, fixedReply c))) ↔
      ∀ before thread addr later, calls = before ++ .lock thread addr :: later →
        heldFrom (held addr) before addr = false := by
  induction calls generalizing l held with
  | nil => simp [ServesInOrder]
  | cons c rest ih =>
    simp only [List.map_cons, ServesInOrder, h.serves_iff c, ih (h.after c)]
    constructor
    · rintro ⟨hfirst, hrest⟩ before thread addr later heq
      cases before with
      | nil =>
        obtain ⟨rfl, rfl⟩ := List.cons.inj heq
        exact hfirst thread addr rfl
      | cons b before =>
        obtain ⟨rfl, hlater⟩ := List.cons.inj heq
        exact hrest before thread addr later hlater
    · intro hall
      refine ⟨fun thread addr hc => ?_, fun before thread addr later hrest => ?_⟩
      · exact hall [] thread addr rest (by rw [hc]; rfl)
      · exact hall (c :: before) thread addr later (by rw [hrest]; rfl)

/-- The replies of a run serve every lock in order exactly when no thread asks for
a lock that is held. -/
theorem servesInOrder_iff_uncontended (calls : List Call) :
    (∃ h, history empty calls = some h ∧ ServesInOrder .initial h) ↔ Uncontended calls := by
  have hinitial : Tracks Ledger.initial (fun _ => false) :=
    ⟨fun _ => rfl, fun _ => rfl⟩
  simp only [history_eq, Option.some.injEq, exists_eq_left']
  exact hinitial.servesInOrder_iff calls

/-- Two threads ask for one lock and both are granted it. -/
theorem two_threads_granted :
    ¬ ∀ calls, ∃ h, history empty calls = some h ∧ ServesInOrder .initial h := by
  intro hall
  obtain ⟨h, hh, hserves⟩ := hall [.lock 1 64, .lock 2 64]
  cases hh
  simp [ServesInOrder, Ledger.Serves, Ledger.after] at hserves

end LockTable

end Tejas
