import Tejas.DirectorySharers
import Tejas.LabelledRuns

/-!
# The coherence protocol of one line

All that happens to different lines is independent, but for replacements. This is the
protocol as one line sees it: the state of the line and the pending requests in each
cache, the directory entry, and the requests in flight. A cache may replace the line and
the directory its entry at any time. Responses that do not matter to coherence are left
out.
-/

namespace Tejas

/-- What a cache knows of the line. An absent line is invalid. -/
@[ext] structure LineView (C : Type) where
  state : MESI
  pending : List (Request C)

namespace LineView

variable {C : Type}

def isCacheWrite : Request C → Bool
  | .cacheWrite _ => true
  | _ => false

/-- A write that would follow a write is merged into it. -/
def enqueue (pending : List (Request C)) (r : Request C) : List (Request C) :=
  if isCacheWrite r && pending.getLast?.any isCacheWrite then pending else pending ++ [r]

/-- The pending requests are served up to the first eviction: the state of the line and
the requests that are left. A write needs the line. -/
def satisfy (state : MESI) : List (Request C) → Option (MESI × List (Request C))
  | [] => some (state, [])
  | .cacheWrite _ :: rest => if state = .invalid then none else satisfy .modified rest
  | .toDirectory (.directoryEvictedFromCoherentCache _) :: rest => some (.invalid, rest)
  | .fromDirectory (.evictCacheLine _) :: rest => some (.invalid, rest)
  | _ :: rest => satisfy state rest

/-- The transaction of the line is over. -/
def complete (v : LineView C) (state : MESI) : Option (LineView C × List (Flight (Request C))) :=
  match v.pending with
  | [] => none
  | pending => (satisfy state pending).map (fun r => (⟨r.1, []⟩, r.2.map .queued))

/-- A state change takes effect on a line that has a way, even an invalid one. -/
def change (v : LineView C) (present : Bool) (state : MESI) : LineView C :=
  if present ∨ v.state ≠ .invalid then { v with state := state } else v

/-- A request is received by cache `c`: what the cache then knows of the line and what it
sends. `none` is an exit with an error. -/
def receive (v : LineView C) (c : C) (present : Bool) :
    Request C → Option (LineView C × List (Flight (Request C)))
  | .cacheRead c' =>
    if v.pending ≠ [] then some ({ v with pending := enqueue v.pending (.cacheRead c') }, [])
    else if v.state = .invalid then
      some (⟨v.state, [.cacheRead c']⟩, [.sent (.toDirectory (.directoryReadMiss c))])
    else some (v, [])
  | .cacheWrite c' =>
    if v.pending ≠ [] then some ({ v with pending := enqueue v.pending (.cacheWrite c') }, [])
    else if v.state = .invalid then
      some (⟨v.state, [.cacheWrite c']⟩, [.sent (.toDirectory (.directoryWriteMiss c))])
    else if v.state = .modified then some (v, [])
    else some (⟨v.state, [.cacheWrite c']⟩, [.sent (.toDirectory (.directoryWriteHit c))])
  | .fromDirectory (.evictCacheLine c') =>
    if v.pending ≠ [] then
      some ({ v with pending := enqueue v.pending (.fromDirectory (.evictCacheLine c')) }, [])
    else some ({ v with state := .invalid }, [])
  | .memResponse _ _ => v.complete .shared
  | .fromDirectory (.memResponse _) => v.complete .shared
  | .fromDirectory (.ackEvictCacheLine _) => v.complete v.state
  | .fromDirectory (.ackDirectoryWriteHit _) =>
    if v.state = .invalid then none else v.complete v.state
  | .fromDirectory (.directoryCachelineForwardRequest _ destination) =>
    some (v.change present .shared, [.sent (.memResponse (some c) destination)])
  | .fromDirectory (.directorySharedToExclusive _) => some (v.change present .exclusive, [])
  | _ => some (v, [])

end LineView

/-- The protocol state of one line. -/
structure LineState (C : Type) where
  views : C → LineView C
  entry : DirectoryEntry C
  inFlight : List (Flight (Request C))

namespace LineState

variable {C : Type} [DecidableEq C]

def initial : LineState C := ⟨fun _ => ⟨.invalid, []⟩, ⟨.invalid, []⟩, []⟩

def setView (s : LineState C) (c : C) (v : LineView C) (more : List (Flight (Request C))) :
    LineState C :=
  { s with views := Function.update s.views c v, inFlight := s.inFlight ++ more }

/-- A request reaches its receiver. -/
def receive (s : LineState C) (present : Bool) (r : Request C) : Option (LineState C) :=
  match r.channel.2 with
  | .cache c => ((s.views c).receive c present r).map (fun o => s.setView c o.1 o.2)
  | .directory =>
    match r with
    | .toDirectory req =>
      match s.entry.handle req with
      | .ok (entry, replies) => some { s with
          entry := entry
          inFlight := s.inFlight ++ replies.map (fun reply => .sent (.fromDirectory reply)) }
      | .error _ => none
    | _ => some s
  | .nextLevel =>
    match r with
    | .fromDirectory (.cacheRead c) =>
      some { s with inFlight := s.inFlight ++ [.sent (.memResponse none c)] }
    | _ => some s
  | .core _ => some s

@[simp] theorem setView_entry (s : LineState C) (c : C) (v : LineView C)
    (more : List (Flight (Request C))) : (s.setView c v more).entry = s.entry := rfl

@[simp] theorem setView_inFlight (s : LineState C) (c : C) (v : LineView C)
    (more : List (Flight (Request C))) :
    (s.setView c v more).inFlight = s.inFlight ++ more := rfl

@[simp] theorem setView_views_self (s : LineState C) (c : C) (v : LineView C)
    (more : List (Flight (Request C))) : (s.setView c v more).views c = v :=
  Function.update_self ..

theorem setView_views_of_ne {c c' : C} (s : LineState C) (hc : c' ≠ c) (v : LineView C)
    (more : List (Flight (Request C))) : (s.setView c v more).views c' = s.views c' :=
  Function.update_of_ne hc ..

variable {s : LineState C} {present : Bool} {r : Request C} {c : C}

theorem receive_of_cache (h : r.channel.2 = .cache c) : s.receive present r =
    ((s.views c).receive c present r).map (fun o => s.setView c o.1 o.2) := by
  rw [receive.eq_def, h]

theorem receive_toDirectory {e' : DirectoryEntry C} {replies : List (Reply C)}
    {req : DirectoryRequest C} (h : s.entry.handle req = .ok (e', replies)) :
    s.receive present (.toDirectory req) = some { s with
      entry := e'
      inFlight := s.inFlight ++ replies.map (fun reply => .sent (.fromDirectory reply)) } := by
  cases req <;> simp only [receive, Request.channel, h]

end LineState

/-- Every request goes to a cache, to the directory or to the next level; what goes to a
core or through to the next level changes nothing here. -/
theorem Request.receiver_cases {C : Type} (r : Request C) :
    (∃ c, r.channel.2 = .cache c) ∨ (∃ req, r = .toDirectory req) ∨
      (∃ c, r = .fromDirectory (.cacheRead c)) ∨
      (∃ c, r = .writeThrough c) ∨ ∃ c, r = .acknowledgement c := by
  match r with
  | .cacheRead c => exact Or.inl ⟨c, rfl⟩
  | .cacheWrite c => exact Or.inl ⟨c, rfl⟩
  | .memResponse source c => exact Or.inl ⟨c, by cases source <;> rfl⟩
  | .toDirectory req => exact Or.inr (Or.inl ⟨req, rfl⟩)
  | .fromDirectory (.evictCacheLine c) => exact Or.inl ⟨c, rfl⟩
  | .fromDirectory (.ackEvictCacheLine c) => exact Or.inl ⟨c, rfl⟩
  | .fromDirectory (.ackDirectoryWriteHit c) => exact Or.inl ⟨c, rfl⟩
  | .fromDirectory (.memResponse c) => exact Or.inl ⟨c, rfl⟩
  | .fromDirectory (.directoryCachelineForwardRequest o d) => exact Or.inl ⟨o, rfl⟩
  | .fromDirectory (.directorySharedToExclusive c) => exact Or.inl ⟨c, rfl⟩
  | .fromDirectory (.cacheRead c) => exact Or.inr (Or.inr (Or.inl ⟨c, rfl⟩))
  | .writeThrough c => exact Or.inr (Or.inr (Or.inr (Or.inl ⟨c, rfl⟩)))
  | .acknowledgement c => exact Or.inr (Or.inr (Or.inr (Or.inr ⟨c, rfl⟩)))

/-- What can happen to the line. -/
inductive LineLabel (C : Type) where
  /-- An access of the core of cache `c`. -/
  | access (c : C) (isWrite : Bool)
  /-- A flight is received; `present` says whether the line has a way in the cache. -/
  | deliver (before : List (Flight (Request C))) (flight : Flight (Request C))
      (after : List (Flight (Request C))) (present : Bool)
  /-- A response for which no line is free is put back into the event queue. -/
  | postpone (before : List (Flight (Request C))) (flight : Flight (Request C))
      (after : List (Flight (Request C)))
  /-- Cache `c` uses the way of the line for another one. -/
  | replaceLine (c : C)
  /-- The directory uses the entry for another line. -/
  | replaceEntry
  /-- The shared cache gives the line up. -/
  | evictShared

def LineLabel.isDelivery {C : Type} : LineLabel C → Bool
  | .deliver _ _ _ _ => true
  | _ => false

namespace LineState

variable {C : Type} [DecidableEq C]

def accessRequest (c : C) (isWrite : Bool) : Request C :=
  if isWrite then .cacheWrite c else .cacheRead c

def Step (s : LineState C) : LineLabel C → LineState C → Prop
  | .access c isWrite, t => s.receive true (accessRequest c isWrite) = some t
  | .deliver before flight after present, t => s.inFlight = before ++ flight :: after ∧
      receive { s with inFlight := before ++ after } present flight.event = some t
  | .postpone before flight after, t => s.inFlight = before ++ flight :: after ∧
      t = { s with inFlight := before ++ after ++ [.queued flight.event] } ∧
      ((∃ source c, flight.event = .memResponse source c) ∨
        ∃ c, flight.event = .fromDirectory (.memResponse c))
  | .replaceLine c, t => (s.views c).pending = [] ∧ (s.views c).state ≠ .invalid ∧
      t = s.setView c ⟨.invalid, [.toDirectory (.directoryEvictedFromCoherentCache c)]⟩
        [.sent (.toDirectory (.directoryEvictedFromCoherentCache c))]
  | .replaceEntry, t => t = { s with
      entry := ⟨.invalid, []⟩
      inFlight := s.inFlight ++
        s.entry.sharers.map (fun c => .sent (.fromDirectory (.evictCacheLine c))) }
  | .evictShared, t => t = { s with
      inFlight := s.inFlight ++ [.sent (.toDirectory .directoryEvictedFromSharedCache)] }

/-- A flight that was sent is delivered after all that were sent before it on the same
channel. -/
def InOrder (_ : LineState C) : LineLabel C → Prop
  | .deliver before (.sent r) _ _ => ∀ r', .sent r' ∈ before → r'.channel ≠ r.channel
  | _ => True

end LineState

end Tejas
