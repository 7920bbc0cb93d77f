import Tejas.JavaHashtable
import Mathlib.Logic.Function.Basic

/-!
# Generations of a barrier

The packet reader keeps the generations of a barrier as `Barrier` objects at consecutive
addresses. A wait goes past the objects that are full and those that hold the thread
already, and puts a sync instruction with the address of its object into the pipeline of
the thread. The core looks the object up when it fetches that instruction, and counts the
arrival. `registered`, `arrivals` and `crossed` record which objects that was; the code
never reads them.
-/

namespace Tejas.BarrierTable
open JavaHashtable

/-- `Barrier.java`; `id` tells the objects apart. -/
structure Barrier where
  id : ℕ
  address : ℤ
  numThreads : ℕ
  numThreadsArrived : ℕ
  blockedThreads : List ℕ
  deriving DecidableEq, Repr

namespace Barrier

def new (id : ℕ) (address : ℤ) (numThreads : ℕ) : Barrier := ⟨id, address, numThreads, 0, []⟩

def incrementThreads (bar : Barrier) : Barrier :=
  { bar with numThreadsArrived := bar.numThreadsArrived + 1 }

def addThread (bar : Barrier) (tid : ℕ) : Barrier :=
  { bar with blockedThreads := bar.blockedThreads ++ [tid] }

def timeToCross (bar : Barrier) : Bool := bar.numThreads = bar.numThreadsArrived

def blockedThreadSize (bar : Barrier) : ℕ := bar.blockedThreads.length

def containsThread (bar : Barrier) (tid : ℕ) : Bool := bar.blockedThreads.any (fun i => i = tid)

end Barrier

structure Barriers where
  barrierList : Hashtable ℤ Barrier
  allocated : ℕ
  /-- The addresses of the sync instructions in the pipeline of each thread. -/
  pipelines : ℕ → List ℤ
  registered : List (ℕ × ℕ)
  arrivals : List (ℕ × ℕ)
  crossed : List ℕ

namespace Barriers

/-- A new object for an address of the table. -/
def create (s : Barriers) (address : ℤ) (numThreads : ℕ) (key : ℤ) : Barriers :=
  { s with
    barrierList := s.barrierList.put key (.new s.allocated address numThreads)
    allocated := s.allocated + 1 }

/-- More rounds than any of the loops needs. -/
def rounds (s : Barriers) : ℕ := s.barrierList.entries.length + 2

/-- The loop of `barrierListAdd`. -/
def addScan (s : Barriers) (address : ℤ) (numThreads : ℕ) (tgt : ℤ) : ℕ → Option Barriers
  | 0 => none
  | fuel + 1 =>
    match s.barrierList.get tgt with
    | none => some (s.create address numThreads tgt)
    | some bar =>
      if bar.numThreadsArrived = 0 then
        some ({ s with barrierList := s.barrierList.remove tgt }.create address numThreads tgt)
      else addScan s address numThreads (tgt + 1) fuel

def barrierListAdd (s : Barriers) (address : ℤ) (numThreads : ℕ) : Option Barriers :=
  s.addScan address numThreads address s.rounds

/-- The loop of `barrierCopy`. -/
def lastFrom (s : Barriers) (add : ℤ) : ℕ → Option ℤ
  | 0 => none
  | fuel + 1 =>
    if (s.barrierList.get (add + 1)).isSome then lastFrom s (add + 1) fuel else some add

def barrierCopy (s : Barriers) (add : ℤ) : Option (Barriers × ℤ) :=
  (s.lastFrom add s.rounds).bind (fun last =>
    (s.barrierList.get last).map (fun bar =>
      (s.create (last + 1) bar.numThreads (last + 1), last + 1)))

/-- The first loop of `BARRIERWAIT`, past the full objects. -/
def skipFull (s : Barriers) (bar : Barrier) (address : ℤ) :
    ℕ → Option (Barriers × Barrier × ℤ)
  | 0 => none
  | fuel + 1 =>
    if bar.blockedThreadSize = bar.numThreads then
      match s.barrierList.get (address + 1) with
      | some bar' => skipFull s bar' (address + 1) fuel
      | none =>
        (s.barrierCopy address).bind (fun copied =>
          (copied.1.barrierList.get copied.2).bind (fun bar' =>
            skipFull copied.1 bar' copied.2 fuel))
    else some (s, bar, address)

/-- The second loop, past the objects that hold the thread. -/
def skipEntered (s : Barriers) (thread : ℕ) (bar : Barrier) (address : ℤ) :
    ℕ → Option (Barriers × Barrier × ℤ)
  | 0 => none
  | fuel + 1 =>
    if bar.containsThread thread then
      match s.barrierList.get (address + 1) with
      | some bar' => skipEntered s thread bar' (address + 1) fuel
      | none =>
        some (s.create (address + 1) bar.numThreads (address + 1),
          .new s.allocated (address + 1) bar.numThreads, address + 1)
    else some (s, bar, address)

/-- The thread is added to the object at the address. -/
def enter (s : Barriers) (thread : ℕ) (bar : Barrier) (address : ℤ) : Barriers :=
  { s with
    barrierList := s.barrierList.put address (bar.addThread thread)
    registered := s.registered ++ [(thread, bar.id)] }

/-- `BARRIERWAIT` in `GlobalTable.update`, and the address that the thread sleeps on. The
address is missing when there is no barrier. -/
def update (s : Barriers) (addressSynchItem : ℤ) (thread : ℕ) :
    Option (Barriers × Option ℤ) :=
  match s.barrierList.get addressSynchItem with
  | none => some (s, none)
  | some bar =>
    (s.skipFull bar addressSynchItem s.rounds).bind (fun found =>
      (found.1.skipEntered thread found.2.1 found.2.2 found.1.rounds).map (fun place =>
        (place.1.enter thread place.2.1 place.2.2, some place.2.2)))

/-- `resumeSleep` for a sleeper. The failure is the exit "Unknown resume sleep". -/
def resumeSleep (s : Barriers) (thread : ℕ) : Option ℤ → Option Barriers
  | none => some s
  | some address =>
    if address = 0 then none
    else some { s with
      pipelines := Function.update s.pipelines thread (s.pipelines thread ++ [address]) }

/-- `performFetch` for a sync instruction that is not a fence. The failure is the exit
"Unknown sync value". -/
def arrive (s : Barriers) (thread : ℕ) : Option Barriers :=
  match s.pipelines thread with
  | [] => none
  | address :: rest =>
    let t := { s with pipelines := Function.update s.pipelines thread rest }
    if address = 1 ∨ address = 0 then none
    else
      match s.barrierList.get address with
      | none => some t
      | some bar =>
        let counted := bar.incrementThreads
        some { t with
          barrierList := s.barrierList.put address counted
          arrivals := s.arrivals ++ [(thread, bar.id)]
          crossed := if counted.timeToCross then s.crossed ++ [bar.id] else s.crossed }

inductive Action where
  | wait (thread : ℕ)
  | init
  | arrive (thread : ℕ)
  /-- The table changes at an address of another barrier. -/
  | other (address : ℤ) (barrier : Option Barrier)
  deriving DecidableEq

/-- The packets and arrivals of a barrier at `A` for `n` threads. -/
def next (isOther : ℤ → Bool) (A : ℤ) (n : ℕ) (s : Barriers) : Action → Option Barriers
  | .wait thread =>
    if thread < n then
      (s.update A thread).bind (fun found => found.1.resumeSleep thread found.2)
    else none
  | .init => s.barrierListAdd A n
  | .arrive thread => s.arrive thread
  | .other address barrier =>
    if isOther address then
      some { s with barrierList :=
        match barrier with
        | some bar => s.barrierList.put address bar
        | none => s.barrierList.remove address }
    else none

/-- The barrier has been initialised once. -/
def initial (A : ℤ) (n : ℕ) : Barriers :=
  create ⟨.empty, 0, fun _ => [], [], [], []⟩ A n A

end Barriers

end Tejas.BarrierTable
