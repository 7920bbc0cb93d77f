import Tejas.TranslationBuffer
import Tejas.HierarchyCache
import Tejas.Ports

/-!
# Requests of the in-order pipeline to the first-level cache

`issueRequestToL1Cache` of the multi-issue in-order memory system looks the page up before it
asks whether the cache is busy. The lookup counts, moves the clock of the buffer and, when it
misses, occupies a port and sends for the page. All of this stays when the request is refused
and is done once more when it is tried again. The out-of-order memory system asks first.
-/

namespace Tejas

/-- The translation buffer with its port and its counts. -/
structure DataTLB where
  buffer : TLB
  port : Port
  memoryPenalty : ℤ
  noOfAccesses : ℕ
  tlbRequests : ℕ
  tlbHits : ℕ
  tlbMisses : ℕ

inductive RequestType
  | cacheRead | cacheWrite
  deriving DecidableEq

inductive MemoryEvent
  | tlbMissResponse (pageID : Address)
  | access (requestType : RequestType) (address : Address)

structure InorderMemorySystem (C : Type) where
  dTLB : DataTLB
  l1Cache : HierarchyCache C
  l1Port : Port
  eventQueue : List (ℤ × MemoryEvent)
  noOfMemRequests : ℕ
  noOfLd : ℕ
  noOfSt : ℕ

namespace InorderMemorySystem

variable {C : Type} (s : InorderMemorySystem C) (now : ℤ) (address : Address)

/-- An event goes through a port to the event queue. -/
def addEvent (time : Option ℤ) (event : MemoryEvent) : List (ℤ × MemoryEvent) :=
  s.eventQueue ++ (time.map (fun t => (t, event))).toList

/-- `searchTLBForPhyAddr` -/
def searchTLBForPhyAddr : Bool × InorderMemorySystem C :=
  let pageID := TLB.getPageID address
  let buffer := (s.dTLB.buffer.next (.searchTLBForPhyAddr address)).getD s.dTLB.buffer
  let counted : DataTLB :=
    { s.dTLB with
      buffer := buffer
      noOfAccesses := s.dTLB.noOfAccesses + 1
      tlbRequests := s.dTLB.tlbRequests + 1 }
  match s.dTLB.buffer.TLBuffer.get pageID with
  | none =>
    let put := s.dTLB.port.put now s.dTLB.memoryPenalty
    (false, { s with
      dTLB := { counted with tlbMisses := s.dTLB.tlbMisses + 1, port := put.2 }
      eventQueue := s.addEvent put.1 (.tlbMissResponse pageID) })
  | some _ => (true, { s with dTLB := { counted with tlbHits := s.dTLB.tlbHits + 1 } })

/-- `performDTLBLookup`, with the penalty of a miss. -/
def performDTLBLookup : ℤ × InorderMemorySystem C :=
  let search := s.searchTLBForPhyAddr now address
  (if search.1 then 0 else s.dTLB.memoryPenalty, search.2)

def issueRequestToL1Cache (cfg : HierarchyConfig C) (requestType : RequestType) :
    Bool × InorderMemorySystem C :=
  let lookup := s.performDTLBLookup now address
  let s := lookup.2
  if s.l1Cache.isMSHRFull cfg address then (false, s)
  else
    let put := s.l1Port.put now lookup.1
    (true, { s with
      l1Port := put.2
      eventQueue := s.addEvent put.1 (.access requestType address)
      noOfMemRequests := s.noOfMemRequests + 1
      noOfLd := if requestType = .cacheRead then s.noOfLd + 1 else s.noOfLd
      noOfSt := if requestType = .cacheWrite then s.noOfSt + 1 else s.noOfSt })

/-- The same of the out-of-order memory system, which looked the page up when the request
entered the load-store queue. -/
def issueFromLSQ (cfg : HierarchyConfig C) (requestType : RequestType) :
    Bool × InorderMemorySystem C :=
  if s.l1Cache.isMSHRFull cfg address then (false, s)
  else
    let put := s.l1Port.put now 0
    (true, { s with
      l1Port := put.2
      eventQueue := s.addEvent put.1 (.access requestType address) })

/-- The system after calls at the given times, one after the other. -/
def retried (cfg : HierarchyConfig C) (requestType : RequestType) (times : List ℤ) :
    InorderMemorySystem C :=
  times.foldl (fun s now => (s.issueRequestToL1Cache now address cfg requestType).2) s

/-! ### What a refused request leaves behind -/

variable {cfg : HierarchyConfig C} {requestType : RequestType} {s now address}

theorem lookup_l1Cache : (s.performDTLBLookup now address).2.l1Cache = s.l1Cache := by
  rw [performDTLBLookup, searchTLBForPhyAddr]
  dsimp only
  split <;> rfl

/-- Every lookup is counted. -/
theorem lookup_tlbRequests :
    (s.performDTLBLookup now address).2.dTLB.tlbRequests = s.dTLB.tlbRequests + 1 := by
  rw [performDTLBLookup, searchTLBForPhyAddr]
  dsimp only
  split <;> rfl

theorem issue_of_busy (now : ℤ) (requestType : RequestType)
    (h : s.l1Cache.isMSHRFull cfg address = true) :
    s.issueRequestToL1Cache now address cfg requestType =
      (false, (s.performDTLBLookup now address).2) := by
  rw [issueRequestToL1Cache]
  dsimp only
  rw [lookup_l1Cache, if_pos h]

/-- A request that is not refused is counted as one lookup, too. -/
theorem issue_of_free (now : ℤ) (requestType : RequestType)
    (h : s.l1Cache.isMSHRFull cfg address = false) :
    (s.issueRequestToL1Cache now address cfg requestType).1 = true ∧
      (s.issueRequestToL1Cache now address cfg requestType).2.dTLB.tlbRequests =
        s.dTLB.tlbRequests + 1 := by
  rw [issueRequestToL1Cache]
  dsimp only
  rw [lookup_l1Cache, if_neg (by simp [h])]
  exact ⟨rfl, lookup_tlbRequests⟩

/-- As long as the cache is busy, a call changes the count of the buffer and keeps the cache. -/
theorem retried_of_busy (h : s.l1Cache.isMSHRFull cfg address = true) (times : List ℤ) :
    (s.retried address cfg requestType times).dTLB.tlbRequests =
      s.dTLB.tlbRequests + times.length := by
  induction times generalizing s with
  | nil => rfl
  | cons now rest ih =>
    have hcall := issue_of_busy now requestType h
    have hbusy : (s.performDTLBLookup now address).2.l1Cache.isMSHRFull cfg address = true := by
      rwa [lookup_l1Cache]
    rw [retried, List.foldl_cons, hcall, ← retried, ih hbusy, lookup_tlbRequests,
      List.length_cons]
    omega

/-- The out-of-order memory system leaves everything as it was when it refuses. -/
theorem issueFromLSQ_refused
    (h : (s.issueFromLSQ now address cfg requestType).1 = false) :
    (s.issueFromLSQ now address cfg requestType).2 = s := by
  rw [issueFromLSQ] at h ⊢
  split at h
  case isTrue hbusy => rw [if_pos hbusy]
  case isFalse => cases h

/-- A call that is refused leaves the memory system as it was exactly when none is refused:
the cache is not busy. And calls that are refused before one that is not have no effect only
when there are none. -/
theorem issue_unchanged_iff (cfg : HierarchyConfig C) (s : InorderMemorySystem C) (now : ℤ)
    (address : Address) (requestType : RequestType) :
    (((s.issueRequestToL1Cache now address cfg requestType).1 = false →
        (s.issueRequestToL1Cache now address cfg requestType).2 = s) ↔
      s.l1Cache.isMSHRFull cfg address = false) ∧
    (s.l1Cache.isMSHRFull cfg address = true →
      ∀ (times : List ℤ) (free : HierarchyCache C), free.isMSHRFull cfg address = false →
        (({ s.retried address cfg requestType times with l1Cache := free } :
            InorderMemorySystem C).issueRequestToL1Cache now address cfg requestType =
          ({ s with l1Cache := free } :
            InorderMemorySystem C).issueRequestToL1Cache now address cfg requestType ↔
          times = [])) := by
  refine ⟨⟨fun h => ?_, fun hfree hrefused => ?_⟩, fun hbusy times free hfree => ⟨fun h => ?_, ?_⟩⟩
  · by_contra hbusy
    rw [Bool.not_eq_false] at hbusy
    rw [issue_of_busy now requestType hbusy] at h
    have hcount := congrArg (fun t => t.dTLB.tlbRequests) (h rfl)
    dsimp only at hcount
    rw [lookup_tlbRequests] at hcount
    omega
  · rw [(issue_of_free now requestType hfree).1] at hrefused
    cases hrefused
  · have hafter := issue_of_free (s := { s.retried address cfg requestType times with
      l1Cache := free }) now requestType hfree
    have hsingle := issue_of_free (s := { s with l1Cache := free }) now requestType hfree
    have hcount := hafter.2
    rw [h, hsingle.2] at hcount
    dsimp only at hcount
    rw [retried_of_busy hbusy] at hcount
    exact List.eq_nil_of_length_eq_zero (by omega)
  · rintro rfl
    rfl

/-- A cache of one set of two lines with one miss register. -/
def oneRegister : HierarchyConfig Unit where
  self := ()
  geometry := ⟨0, 6, 2, Nat.two_pos, Geometry.oneSet_bits⟩
  writePolicy := .writeBack
  mshrMaxSize := 1
  coherent := false
  belowCoherenceLevel := false
  topLevelCache := true

/-- A read of line 64 is waiting in the register. -/
def waiting : InorderMemorySystem Unit where
  dTLB := ⟨.new 16, ⟨.unlimited, 1, 0, []⟩, 30, 0, 0, 0, 0⟩
  l1Cache := HierarchyCache.initial.addToMSHR oneRegister ⟨.cacheRead (), 64⟩
  l1Port := ⟨.unlimited, 3, 0, []⟩
  eventQueue := []
  noOfMemRequests := 1
  noOfLd := 1
  noOfSt := 0

theorem waiting_busy : waiting.l1Cache.isMSHRFull oneRegister 4096 = true := by decide

/-- A read of the second page is refused, after it has missed in the buffer. -/
theorem refused_not_unchanged :
    ¬ ∀ (cfg : HierarchyConfig Unit) (s : InorderMemorySystem Unit) (now : ℤ)
      (address : Address) (requestType : RequestType),
      (s.issueRequestToL1Cache now address cfg requestType).1 = false →
        (s.issueRequestToL1Cache now address cfg requestType).2 = s := by
  intro h
  have hcall := issue_of_busy 0 .cacheRead waiting_busy
  have hsame := h oneRegister waiting 0 4096 .cacheRead (by rw [hcall])
  rw [hcall] at hsame
  exact absurd (congrArg (fun t => t.eventQueue.length) hsame) (by decide)

end InorderMemorySystem

end Tejas
