import Tejas.CacheFill
import Tejas.CoherenceEvents

/-!
# The coherence directory

`Directory.java` extends `Cache`: its lines carry the state and the sharer list of the
line they stand for. The caches tell it of their misses, of writes that hit a clean line
and of evictions. A missing entry is first created by a fill, which may throw another
entry out. The copy of that entry and the new one share one list object, so lists are
kept in a heap.
-/

namespace Tejas

/-- The failures of the directory. -/
inductive DirectoryExit where
  | multipleOwners
  | sharerOfInvalid
  | secondOwnerOfModified
  | secondOwnerOfExclusive
  | notASharer
  | noFirstSharer
  | noEntry
  | noLineToFill
  deriving DecidableEq, Repr

/-- The state and the sharers of a directory line. -/
structure DirectoryEntry (C : Type) where
  state : MESI
  sharers : List C
  deriving DecidableEq, Repr

namespace DirectoryEntry

variable {C : Type} [DecidableEq C]

def isSharer (e : DirectoryEntry C) (c : C) : Bool := c ∈ e.sharers

def clearAllSharers (e : DirectoryEntry C) : DirectoryEntry C := { e with sharers := [] }

def addSharer (e : DirectoryEntry C) (c : C) : Except DirectoryExit (DirectoryEntry C) :=
  if e.state = .invalid then .error .sharerOfInvalid
  else if e.state = .modified ∧ e.sharers.head?.any (· ≠ c) then .error .secondOwnerOfModified
  else if e.state = .exclusive ∧ e.sharers.head?.any (· ≠ c) then .error .secondOwnerOfExclusive
  else if e.isSharer c then .ok e
  else .ok { e with sharers := e.sharers ++ [c] }

def removeSharer (e : DirectoryEntry C) (c : C) : Except DirectoryExit (DirectoryEntry C) :=
  if e.isSharer c then .ok { e with sharers := e.sharers.erase c } else .error .notASharer

def getFirstSharer (e : DirectoryEntry C) : Except DirectoryExit C :=
  match e.sharers with
  | [] => .error .noFirstSharer
  | c :: _ => .ok c

/-- `none` is the null owner of an entry without sharers. -/
def getOwner (e : DirectoryEntry C) : Except DirectoryExit (Option C) :=
  match e.sharers with
  | [] => .ok none
  | [c] => .ok (some c)
  | _ => .error .multipleOwners

/-- The invalidations for the sharers other than `c`. -/
def evictOthers (e : DirectoryEntry C) (c : C) : List (Reply C) :=
  (e.sharers.filter (· ≠ c)).map .evictCacheLine

def handleWriteHit (e : DirectoryEntry C) (c : C) :
    Except DirectoryExit (DirectoryEntry C × List (Reply C)) :=
  match e.state with
  | .invalid => do
    let e ← addSharer { e.clearAllSharers with state := .modified } c
    return (e, [.ackDirectoryWriteHit c])
  | _ => do
    let evicts := e.evictOthers c
    let e ← e.clearAllSharers.addSharer c
    return ({ e with state := .modified }, evicts ++ [.ackDirectoryWriteHit c])

def handleReadMiss (e : DirectoryEntry C) (c : C) :
    Except DirectoryExit (DirectoryEntry C × List (Reply C)) :=
  match e.state with
  | .invalid => do
    let e ← (clearAllSharers { e with state := .exclusive }).addSharer c
    return (e, [.cacheRead c])
  | _ => do
    let reply ← if e.isSharer c then pure (.memResponse c)
      else do
        let sharerCache ← e.getFirstSharer
        pure (.directoryCachelineForwardRequest sharerCache c)
    let e ← addSharer { e with state := .shared } c
    return (e, [reply])

def handleWriteMiss (e : DirectoryEntry C) (c : C) :
    Except DirectoryExit (DirectoryEntry C × List (Reply C)) := do
  let (e, replies) ← e.handleReadMiss c
  let evicts := e.evictOthers c
  let e ← e.clearAllSharers.addSharer c
  return ({ e with state := .modified }, replies ++ evicts)

def handleEvictedFromCoherentCache (e : DirectoryEntry C) (c : C) :
    Except DirectoryExit (DirectoryEntry C × List (Reply C)) := do
  let (e, notice) ← if e.isSharer c then do
      let e ← e.removeSharer c
      if e.sharers.length = 0 then pure ({ e with state := .invalid }, [])
      else if e.sharers.length = 1 then do
        let owner ← e.getOwner
        pure ({ e with state := .exclusive },
          owner.toList.map Reply.directorySharedToExclusive)
      else pure (e, [])
    else pure (e, [])
  return (e, notice ++ [.ackEvictCacheLine c])

def invalidateDirectoryEntry (e : DirectoryEntry C) : DirectoryEntry C × List (Reply C) :=
  (⟨.invalid, []⟩, e.sharers.map .evictCacheLine)

/-- The handler of each request, on the entry of its address. -/
def handle (e : DirectoryEntry C) :
    DirectoryRequest C → Except DirectoryExit (DirectoryEntry C × List (Reply C))
  | .directoryReadMiss c => e.handleReadMiss c
  | .directoryWriteMiss c => e.handleWriteMiss c
  | .directoryWriteHit c => e.handleWriteHit c
  | .directoryEvictedFromCoherentCache c => e.handleEvictedFromCoherentCache c
  | .directoryEvictedFromSharedCache =>
    if e.state = .invalid then .ok (e, []) else .ok e.invalidateDirectoryEntry

end DirectoryEntry

/-- The lines of the directory and the heap of their sharer lists. -/
structure Directory (C : Type) where
  lines : LineArray ℕ
  lists : ℕ → List C

namespace Directory

variable {C : Type} [DecidableEq C]

def new : Directory C := ⟨LineArray.new id, fun _ => []⟩

def entry (d : Directory C) (i : ℕ) : DirectoryEntry C :=
  ⟨(d.lines.lines i).state, d.lists (d.lines.lines i).sharers⟩

def setEntry (d : Directory C) (i : ℕ) (e : DirectoryEntry C) : Directory C where
  lines := d.lines.setLine i { d.lines.lines i with state := e.state }
  lists := Function.update d.lists (d.lines.lines i).sharers e.sharers

/-- The fill at the start of `handleEvent`. What is sent goes with its address. The copy
of the evicted entry is given up, but its list is the one the new entry keeps. -/
def createEntry (d : Directory C) (g : Geometry) (addr : Address) :
    Except DirectoryExit (Directory C × List (Address × Reply C)) :=
  match d.lines.fill g (fun _ => false) addr .invalid with
  | none => .error .noLineToFill
  | some (lines, none) => .ok ({ d with lines := lines }, [])
  | some (lines, some evictedEntry) =>
    if evictedEntry.isValid then
      .ok (⟨lines, Function.update d.lists evictedEntry.sharers []⟩,
        (d.lists evictedEntry.sharers).map (fun c => (evictedEntry.address, .evictCacheLine c)))
    else .ok ({ d with lines := lines }, [])

/-- The address the replies carry: `invalidateDirectoryEntry` uses that of the entry. -/
def replyAddress (d : Directory C) (i : ℕ) (addr : Address) : DirectoryRequest C → Address
  | .directoryEvictedFromSharedCache => (d.lines.lines i).address
  | _ => addr

def handleEvent (d : Directory C) (g : Geometry) (req : DirectoryRequest C) (addr : Address) :
    Except DirectoryExit (Directory C × List (Address × Reply C)) := do
  let (d, sent) ← if d.lines.access g addr = none ∧ req ≠ .directoryEvictedFromSharedCache then
      d.createEntry g addr
    else pure (d, [])
  match d.lines.access g addr with
  | some i => do
    let (e, replies) ← (d.entry i).handle req
    return (d.setEntry i e, sent ++ replies.map (fun r => (d.replyAddress i addr req, r)))
  | none =>
    if req = .directoryEvictedFromSharedCache then return (d, sent) else throw .noEntry

/-- Handle requests one after the other. -/
def handleEvents (g : Geometry) :
    Directory C → List (DirectoryRequest C × Address) → Except DirectoryExit (Directory C)
  | d, [] => .ok d
  | d, (req, addr) :: rest => do
    let (d, _) ← d.handleEvent g req addr
    handleEvents g d rest

/-- The entry of an address, absent ones being invalid. -/
def entryAt (d : Directory C) (g : Geometry) (addr : Address) : DirectoryEntry C :=
  match d.lines.access g addr with
  | some i => d.entry i
  | none => ⟨.invalid, []⟩

end Directory

end Tejas
