import Tejas.LabelledRuns
import Tejas.RingWindow
import Mathlib.Data.Int.Notation
import Mathlib.Logic.Function.Basic

/-!
# The load-store queue

`LSQ.java` keeps the memory operations of a core in a ring of entries, in the
order of their allocation. Loads take their value from an older store in the
queue or from the first-level cache, stores go to the cache when they commit,
and fences hold the operations behind them back through a count in each entry.
A null head or tail is `-1` in the source.
-/

namespace Tejas
open LabelledRuns RingWindow

inductive LSQEntryType where
  | load
  | store
  | mfence
  deriving DecidableEq, Repr

/-- `LSQEntry.java`; the position in the queue is the index of the entry. -/
structure LSQEntry where
  type : LSQEntryType
  robEntry : Option ℕ
  addr : ℤ
  valid : Bool
  issued : Bool
  forwarded : Bool
  removed : Bool
  mfenceDependencies : ℤ
  deriving DecidableEq, Repr

namespace LSQEntry

/-- An entry as the constructor of the queue leaves it. -/
def unused : LSQEntry := ⟨.load, none, -1, false, false, false, true, 0⟩

def isIssuable (e : LSQEntry) : Bool := e.mfenceDependencies = 0

def mfenceCleared (e : LSQEntry) : LSQEntry :=
  { e with mfenceDependencies := e.mfenceDependencies - 1 }

/-- `recycle` and the setters that follow it in `addEntry` and `add_mfence`. -/
def recycled (type : LSQEntryType) (robEntry : Option ℕ) (addr mfenceCount : ℤ) : LSQEntry :=
  ⟨type, robEntry, addr, false, false, false, false, mfenceCount⟩

end LSQEntry

structure LSQ where
  lsqueue : ℕ → LSQEntry
  tail : Option ℕ
  head : Option ℕ
  lsqSize : ℕ
  curSize : ℕ
  mfenceCount : ℤ

namespace LSQ

def new (lsqSize : ℕ) : LSQ := ⟨fun _ => .unused, none, none, lsqSize, 0, 0⟩

def setEntry (s : LSQ) (i : ℕ) (e : LSQEntry) : LSQ :=
  { s with lsqueue := Function.update s.lsqueue i e }

def incrementQ (s : LSQ) (value : ℕ) : ℕ := (value + 1) % s.lsqSize

def decrementQ (s : LSQ) (value : ℕ) : ℕ := if value > 0 then value - 1 else s.lsqSize - 1

def isFull (s : LSQ) : Bool := s.curSize ≥ s.lsqSize

/-- `addEntry` and `add_mfence` up to the count of fences; `none` is the exit "entry
currently in use being re-allocated". -/
def allocate (s : LSQ) (type : LSQEntryType) (addr : ℤ) (robEntry : Option ℕ) : Option LSQ :=
  let head' := if s.head = none then some 0 else s.head
  let tail' := if s.head = none then 0 else (s.tail.getD 0 + 1) % s.lsqSize
  if (s.lsqueue tail').removed = false then none
  else some { s with
    head := head'
    tail := some tail'
    lsqueue := Function.update s.lsqueue tail' (.recycled type robEntry addr s.mfenceCount)
    curSize := s.curSize + 1 }

def addEntry (s : LSQ) (isLoad : Bool) (address : ℤ) (robEntry : Option ℕ) : Option LSQ :=
  s.allocate (if isLoad then .load else .store) address robEntry

def addMfence (s : LSQ) (robEntry : Option ℕ) : Option LSQ :=
  (s.allocate .mfence 0 robEntry).map (fun t => { t with mfenceCount := t.mfenceCount + 1 })

/-- The loop of `commit_mfence`, which stops at the slot after the tail. -/
def clearFrom (s : LSQ) (index : ℕ) : ℕ → Option LSQ
  | 0 => none
  | fuel + 1 =>
    if index = (s.tail.getD 0 + 1) % s.lsqSize then some s
    else clearFrom (s.setEntry index (s.lsqueue index).mfenceCleared) (s.incrementQ index) fuel

def commitMfence (s : LSQ) : Option LSQ := s.clearFrom (s.head.getD 0) (s.lsqSize + 1)

/-- The outcome of `loadResolve`. -/
inductive SearchStatus where
  | forwarded
  | canBeForwarded
  | shouldGoToL1
  deriving DecidableEq, Repr

/-- The reorder buffer entry that is told of the completion, if there is one and it
has not executed yet. -/
def execComplete (executed : ℕ → Bool) (e : LSQEntry) : List ℕ :=
  match e.robEntry with
  | some r => if executed r then [] else [r]
  | none => []

/-- The loop of `loadResolve` over the older entries. -/
def loadScan (s : LSQ) (address : ℤ) (tmpIndex : ℕ) : ℕ → Option SearchStatus
  | 0 => none
  | fuel + 1 =>
    let tmpEntry := s.lsqueue tmpIndex
    if tmpEntry.type = .mfence then some .shouldGoToL1
    else if tmpEntry.type = .store ∧ tmpEntry.addr = address then
      if tmpEntry.valid then some .forwarded else some .canBeForwarded
    else if some tmpIndex = s.head then some .shouldGoToL1
    else loadScan s address (s.decrementQ tmpIndex) fuel

def loadResolve (s : LSQ) (index : ℕ) : Option SearchStatus :=
  if some index = s.head then some .shouldGoToL1
  else s.loadScan (s.lsqueue index).addr (s.decrementQ index) s.lsqSize

/-- `loadValidate`: the queue, the completions sent, and whether the load must be
issued to the first-level cache. -/
def loadValidate (s : LSQ) (executed : ℕ → Bool) (index : ℕ) : Option (LSQ × List ℕ × Bool) :=
  let entry := { s.lsqueue index with valid := true }
  let s := s.setEntry index entry
  match s.loadResolve index with
  | none => none
  | some .forwarded =>
    some (s.setEntry index { entry with forwarded := true }, execComplete executed entry, false)
  | some .canBeForwarded => some (s, [], false)
  | some .shouldGoToL1 => some (s, [], true)

def mfenceValidate (s : LSQ) (index : ℕ) : LSQ :=
  s.setEntry index { s.lsqueue index with valid := true }

/-- The loop of `storeResolve` over the entries after the store: the queue and the
completions sent. -/
def storeScan (s : LSQ) (executed : ℕ → Bool) (address : ℤ) (sindex : ℕ) :
    ℕ → Option (LSQ × List ℕ)
  | 0 => none
  | fuel + 1 =>
    let tmpEntry := s.lsqueue sindex
    if tmpEntry.type = .mfence then some (s, [])
    else if tmpEntry.type = .load then
      let hit := tmpEntry.addr = address ∧ tmpEntry.valid = true ∧ tmpEntry.forwarded = false
      let s' := if hit then s.setEntry sindex { tmpEntry with forwarded := true } else s
      let sent := if hit then execComplete executed tmpEntry else []
      if some sindex = s'.tail then some (s', sent)
      else (storeScan s' executed address (s'.incrementQ sindex) fuel).map
        (fun r => (r.1, sent ++ r.2))
    else if tmpEntry.addr = address then some (s, [])
    else if some sindex = s.tail then some (s, [])
    else storeScan s executed address (s.incrementQ sindex) fuel

def storeResolve (s : LSQ) (executed : ℕ → Bool) (index : ℕ) : Option (LSQ × List ℕ) :=
  s.storeScan executed (s.lsqueue index).addr (s.incrementQ index) s.lsqSize

def storeValidate (s : LSQ) (executed : ℕ → Bool) (index : ℕ) : Option (LSQ × List ℕ) :=
  (s.setEntry index { s.lsqueue index with valid := true }).storeResolve executed index

/-- `handleAddrValidate`, whose third result asks for an issue to the cache. -/
def handleAddrValidate (s : LSQ) (executed : ℕ → Bool) (index : ℕ) :
    Option (LSQ × List ℕ × Bool) :=
  match (s.lsqueue index).type with
  | .load => s.loadValidate executed index
  | .store => (s.storeValidate executed index).map (fun r => (r.1, r.2, false))
  | .mfence => some (s.mfenceValidate index, [], false)

/-- `handleAttemptL1Issue` once the cache has accepted the request. -/
def l1Issued (s : LSQ) (index : ℕ) : LSQ :=
  s.setEntry index { s.lsqueue index with issued := true }

/-- The loop of `handleMemResponse` over the entries from the head. -/
def responseScan (s : LSQ) (executed : ℕ → Bool) (address : ℤ) (index : ℕ) :
    ℕ → LSQ × List ℕ
  | 0 => (s, [])
  | left + 1 =>
    let lsqEntry := s.lsqueue index
    if lsqEntry.type = .store ∧ lsqEntry.addr = address then (s, [])
    else
      let hit := lsqEntry.type = .load ∧ lsqEntry.removed = false ∧
        lsqEntry.forwarded = false ∧ lsqEntry.addr = address ∧ lsqEntry.valid = true
      let s' := if hit then s.setEntry index { lsqEntry with forwarded := true } else s
      let r := responseScan s' executed address ((index + 1) % s.lsqSize) left
      (r.1, (if hit then execComplete executed lsqEntry else []) ++ r.2)

def handleMemResponse (s : LSQ) (executed : ℕ → Bool) (address : ℤ) : LSQ × List ℕ :=
  s.responseScan executed address (s.head.getD 0) s.curSize

/-- The removal of the entry at the head. -/
def removeHead (s : LSQ) (i : ℕ) : LSQ :=
  { s with
    head := if s.head = s.tail then none else s.head.map s.incrementQ
    tail := if s.head = s.tail then none else s.tail
    curSize := s.curSize - 1
    lsqueue := Function.update s.lsqueue i { s.lsqueue i with removed := true } }

/-- One turn of the loop of `handleCommitsFromROB`: an entry is removed, or its store
is refused by the cache. The failures are the exits "store not ready to be
committed" and "ROB sent commit for a load which has not received its value". -/
def commitEntry (s : LSQ) (accepts : ℕ → Bool) (i : ℕ) : Option (Option LSQ) :=
  match (s.lsqueue i).type with
  | .store =>
    if (s.lsqueue i).valid = false then none
    else if accepts i then some (some (s.removeHead i)) else some none
  | .mfence =>
    (s.commitMfence).map (fun t => some ({ t with mfenceCount := t.mfenceCount - 1 }.removeHead i))
  | .load => if (s.lsqueue i).forwarded then some (some (s.removeHead i)) else none

/-- The loop of `handleCommitsFromROB`. -/
def commitFrom (s : LSQ) (accepts : ℕ → Bool) (commitUpto i : ℕ) : ℕ → Option LSQ
  | 0 => none
  | fuel + 1 =>
    match s.commitEntry accepts i with
    | none => none
    | some none => some s
    | some (some t) =>
      if i = commitUpto then some t else t.commitFrom accepts commitUpto ((i + 1) % s.lsqSize) fuel

/-- `handleCommitsFromROB`; `accepts` says which stores the cache takes. -/
def handleCommitsFromROB (s : LSQ) (accepts : ℕ → Bool) (commitUpto : ℕ) : Option LSQ :=
  if (s.lsqueue commitUpto).removed then some s
  else s.commitFrom accepts commitUpto (s.head.getD 0) s.lsqSize

/-- What can happen to the queue. The flags of the reorder buffer and the answers of
the cache come from outside. -/
inductive Action where
  | addEntry (isLoad : Bool) (address : ℤ) (robEntry : Option ℕ)
  | addMfence (robEntry : Option ℕ)
  | addrValidate (index : ℕ) (executed : ℕ → Bool)
  | l1Issue (index : ℕ)
  | memResponse (address : ℤ) (executed : ℕ → Bool)
  | commit (commitUpto : ℕ) (accepts : ℕ → Bool)

/-- The entry is in the queue. -/
def Live (s : LSQ) (i : ℕ) : Prop := i < s.lsqSize ∧ (s.lsqueue i).removed = false

instance (s : LSQ) (i : ℕ) : Decidable (s.Live i) := inferInstanceAs (Decidable (_ ∧ _))

/-- Decode asks `isFull` before it allocates, and an address is validated or issued
while its entry is in the queue. -/
def next (s : LSQ) : Action → Option LSQ
  | .addEntry isLoad address robEntry =>
    if s.isFull then none else s.addEntry isLoad address robEntry
  | .addMfence robEntry => if s.isFull then none else s.addMfence robEntry
  | .addrValidate index executed =>
    if s.Live index then (s.handleAddrValidate executed index).map Prod.fst else none
  | .l1Issue index =>
    if s.Live index ∧ (s.lsqueue index).type = .load then some (s.l1Issued index) else none
  | .memResponse address executed => some (s.handleMemResponse executed address).1
  | .commit commitUpto accepts =>
    if commitUpto < s.lsqSize then s.handleCommitsFromROB accepts commitUpto else none

end LSQ

end Tejas
