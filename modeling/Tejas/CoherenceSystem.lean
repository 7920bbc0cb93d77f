import Tejas.CoherentCache
import Tejas.Directory
import Tejas.LabelledRuns

/-!
# Private caches attached to one directory

The system of the coherent caches, their directory and the events between them. A core
may access its cache at any time and the next level may give a line up at any time; any
event in flight may be the next one to arrive. The next level answers a read with a
response.
-/

namespace Tejas

/-- All caches and the directory have lines of the same size. -/
structure CoherenceConfig (C : Type) where
  cache : C → CacheConfig
  directory : Geometry
  sameBlocks : ∀ c, (cache c).geometry.blockSizeBits = directory.blockSizeBits

inductive CoherenceExit (C : Type) where
  | cache (c : C) (exit : CacheExit)
  | directory (exit : DirectoryExit)
  | noSuchEvent
  deriving DecidableEq, Repr

inductive CoherenceLabel (C : Type) where
  /-- The core of cache `c` reads or writes. -/
  | access (c : C) (isWrite : Bool) (addr : Address)
  /-- The shared cache tells the directory that it has evicted a line. -/
  | evictShared (addr : Address)
  /-- The event in flight at a position arrives. -/
  | deliver (position : ℕ)

structure CoherenceSystem (C : Type) where
  caches : C → Cache C
  directory : Directory C
  inFlight : List (Flight (AddressCarryingEvent C))

namespace CoherenceSystem

variable {C : Type} [DecidableEq C]

def new : CoherenceSystem C := ⟨fun _ => Cache.new, Directory.new, []⟩

/-- An event reaches its receiver. -/
def receive (cfg : CoherenceConfig C) (s : CoherenceSystem C) (event : AddressCarryingEvent C) :
    Except (CoherenceExit C) (CoherenceSystem C) :=
  match event.request.channel.2 with
  | .cache c =>
    match (s.caches c).handleEvent (cfg.cache c) c event with
    | .ok (cache, flights) => .ok { s with
        caches := Function.update s.caches c cache
        inFlight := s.inFlight ++ flights }
    | .error exit => .error (.cache c exit)
  | .directory =>
    match event.request with
    | .toDirectory req =>
      match s.directory.handleEvent cfg.directory req event.address with
      | .ok (directory, replies) => .ok { s with
          directory := directory
          inFlight := s.inFlight ++
            replies.map (fun reply => .sent ⟨.fromDirectory reply.2, reply.1⟩) }
      | .error exit => .error (.directory exit)
    | _ => .ok s
  | .nextLevel =>
    match event.request with
    | .fromDirectory (.cacheRead c) => .ok { s with
        inFlight := s.inFlight ++ [.sent ⟨.memResponse none c, event.address⟩] }
    | _ => .ok s
  | .core _ => .ok s

def next (cfg : CoherenceConfig C) (s : CoherenceSystem C) :
    CoherenceLabel C → Except (CoherenceExit C) (CoherenceSystem C)
  | .access c isWrite addr => s.receive cfg ⟨if isWrite then .cacheWrite c else .cacheRead c, addr⟩
  | .evictShared addr => .ok { s with
      inFlight := s.inFlight ++ [.sent ⟨.toDirectory .directoryEvictedFromSharedCache, addr⟩] }
  | .deliver position =>
    match s.inFlight[position]? with
    | some flight => receive cfg { s with inFlight := s.inFlight.eraseIdx position } flight.event
    | none => .error .noSuchEvent

def Step (cfg : CoherenceConfig C) (s : CoherenceSystem C) (label : CoherenceLabel C)
    (t : CoherenceSystem C) : Prop :=
  s.next cfg label = .ok t

/-- The channel of a flight; what is put back into an event queue is on none. -/
def sentOn : Flight (AddressCarryingEvent C) → Option (Element C × Element C)
  | .sent event => some event.request.channel
  | .queued _ => none

/-- What one sender has sent to one receiver arrives in the order it was sent. -/
def InOrder (s : CoherenceSystem C) : CoherenceLabel C → Prop
  | .deliver position => ∀ flight ∈ s.inFlight[position]?, sentOn flight ≠ none →
      ∀ earlier ∈ s.inFlight.take position, sentOn earlier ≠ sentOn flight
  | _ => True

instance (s : CoherenceSystem C) (label : CoherenceLabel C) : Decidable (s.InOrder label) :=
  match label with
  | .deliver position =>
    match h : s.inFlight[position]? with
    | some flight => decidable_of_iff (sentOn flight ≠ none →
        ∀ earlier ∈ s.inFlight.take position, sentOn earlier ≠ sentOn flight) (by
          simp [InOrder, h])
    | none => isTrue (by simp [InOrder, h])
  | .access _ _ _ => isTrue trivial
  | .evictShared _ => isTrue trivial

/-- No event is in flight, and no cache waits for one. -/
def Quiescent (s : CoherenceSystem C) : Prop :=
  s.inFlight = [] ∧ ∀ c, (s.caches c).mshr.mshrSize = 0

instance (s : CoherenceSystem Bool) : Decidable s.Quiescent :=
  inferInstanceAs (Decidable (_ ∧ ∀ _ : Bool, _ = _))

/-- The state in which a cache holds the line of an address. -/
def stateAt (cfg : CoherenceConfig C) (s : CoherenceSystem C) (c : C) (addr : Address) : MESI :=
  (s.caches c).lines.stateAt (cfg.cache c).geometry addr

open LabelledRuns

variable {cfg : CoherenceConfig C} {labels : List (CoherenceLabel C)} {s t : CoherenceSystem C}

theorem step_of_toOption {label : CoherenceLabel C}
    (h : (next cfg s label).toOption = some t) : s.Step cfg label t := by
  rw [Step]
  cases hnext : next cfg s label with
  | error exit =>
    rw [hnext] at h
    cases h
  | ok t' =>
    rw [hnext] at h
    cases h
    rfl

/-- Following the labels yields a run. -/
theorem run_of_next (h : exec (fun s label => (next cfg s label).toOption) s labels = some t) :
    Run (Step cfg) s labels t :=
  (run_of_exec h).mono fun _ _ _ hstep => step_of_toOption hstep

theorem guarded_run_of_next {G : CoherenceSystem C → CoherenceLabel C → Prop}
    [∀ s label, Decidable (G s label)]
    (h : exec (fun s label => if G s label then (next cfg s label).toOption else none) s labels =
      some t) : Run (Guarded (Step cfg) G) s labels t :=
  (guarded_run_of_exec h).mono fun _ _ _ hstep => ⟨hstep.1, step_of_toOption hstep.2⟩

end CoherenceSystem

end Tejas
