import Tejas.ReadAnswers
import Mathlib.Order.RelClasses

/-!
# A cache comes to rest

Without new requests every step either settles an event or brings one nearer to the
register, so only finitely many follow. And as long as something is on its way one of
them can be taken, unless the lines of a set are all locked.
-/

namespace Tejas.HierarchyCache
open LabelledRuns

variable {C : Type} {cfg : HierarchyConfig C} {s t u : HierarchyCache C} {x : CacheAccess C}
  {addr : Address} {event : AddressCarryingEvent C} {i : ℕ} {label : Action C}

/-- Nothing is on its way. -/
def Quiescent (s : HierarchyCache C) : Prop :=
  s.queue = [] ∧ s.requeued = [] ∧ s.readsBelow = []

/-- A step inside, other than putting a response back that has no line to use. -/
def Proceeds (cfg : HierarchyConfig C) (s : HierarchyCache C) : Action C → Prop
  | .answer _ => True
  | .redeliver _ => True
  | .deliver i => ∀ event, s.queue[i]? = some event → IsResponse cfg event →
      s.hasLineFor cfg event.address = true
  | _ => False

/-- The step from the second state to the first one. -/
def Continues (cfg : HierarchyConfig C) (t s : HierarchyCache C) : Prop :=
  ∃ label, Proceeds cfg s label ∧ Step cfg s label t

/-- In a set with outstanding reads one of the responses finds a line, and where a
response finds one `fill` finds one to use. -/
def Unjammed (cfg : HierarchyConfig C) (s : HierarchyCache C) : Prop :=
  ∀ a ∈ s.outstanding,
    (s.hasLineFor cfg a = true →
      (s.lines.fillLine cfg.geometry (s.isAddrInMSHR cfg) a).isSome) ∧
    ∃ a' ∈ s.outstanding, cfg.geometry.ways a' = cfg.geometry.ways a ∧
      s.hasLineFor cfg a' = true

/-! ### Steps come to an end -/

/-- The requests and evictions that are not settled. -/
def live (s : HierarchyCache C) : ℕ := s.inside.countP AddressCarryingEvent.isLive

/-- How far they are from the register, and the reads from their responses. -/
def work (s : HierarchyCache C) : ℕ :=
  3 * (s.queue.countP AddressCarryingEvent.isLive + s.requeued.length) +
    2 * s.readsBelow.length + s.queue.countP (fun e => !e.isLive)

theorem live_settles {settled : List (AddressCarryingEvent C)} (hs : Settles s [] settled t []) :
    s.live = settled.countP AddressCarryingEvent.isLive + t.live := by
  have hcount := hs.inside.countP_eq AddressCarryingEvent.isLive
  rw [List.nil_append, List.nil_append, List.countP_append] at hcount
  exact hcount

/-- Less is left, or as much and nearer. -/
def Nearer (t s : HierarchyCache C) : Prop :=
  t.live < s.live ∨ t.live = s.live ∧ t.work < s.work

theorem nearer_of_le (hlive : t.live ≤ s.live) (hwork : t.work < s.work) : Nearer t s := by
  rcases hlive.lt_or_eq with hless | hsame
  · exact Or.inl hless
  · exact Or.inr ⟨hsame, hwork⟩

theorem work_taken (h : s.queue[i]? = some event) (hlive : event.isLive = true) :
    s.work = (s.taken i).work + 3 := by
  have hperm := queue_perm h
  have hcount := hperm.countP_eq AddressCarryingEvent.isLive
  have hother := hperm.countP_eq (fun e => !e.isLive)
  rw [List.countP_cons_of_pos hlive] at hcount
  rw [List.countP_cons_of_neg (by rw [hlive]; exact Bool.false_ne_true)] at hother
  have hrequeued : (s.taken i).requeued = s.requeued := rfl
  have hreads : (s.taken i).readsBelow = s.readsBelow := rfl
  unfold work
  rw [hcount, hother, hrequeued, hreads]
  omega

theorem work_retaken {p : ℤ × AddressCarryingEvent C} (h : s.requeued[i]? = some p) :
    s.work = (s.retaken i).work + 3 := by
  obtain ⟨hi, -⟩ := List.getElem?_eq_some_iff.mp h
  have hlength : s.requeued.length = (s.retaken i).requeued.length + 1 := by
    have herase := List.length_eraseIdx_add_one hi
    exact herase.symm
  have hqueue : (s.retaken i).queue = s.queue := rfl
  have hreads : (s.retaken i).readsBelow = s.readsBelow := rfl
  unfold work
  rw [hlength, hqueue, hreads]
  omega

theorem Awaited.work_le (hx : Awaited cfg s event t) : t.work ≤ s.work + 2 := by
  obtain ⟨hqueue, hrequeued, -, hreads⟩ := hx.frame
  unfold work
  rw [hqueue, hrequeued]
  omega

theorem nearer_of_continues (hplain : cfg.coherent = false) (h : Accounted cfg s)
    (hstep : Continues cfg t s) : Nearer t s := by
  obtain ⟨label, hproceeds, hstep⟩ := hstep
  cases label with
  | request x => cases hproceeds
  | post event => cases hproceeds
  | setState addr state => cases hproceeds
  | answer i =>
    simp only [Step, StepOf, next] at hstep
    split at hstep
    · cases hstep
    · rename_i addr hread
      cases hstep
      obtain ⟨hi, -⟩ := List.getElem?_eq_some_iff.mp hread
      have hlength := List.length_eraseIdx_add_one hi
      have hposted := inside_posted s (⟨.memResponse none cfg.self, addr⟩ : AddressCarryingEvent C)
      have hcount := hposted.countP_eq AddressCarryingEvent.isLive
      apply nearer_of_le
      · have hnot : ¬ AddressCarryingEvent.isLive
            (⟨.memResponse none cfg.self, addr⟩ : AddressCarryingEvent C) = true :=
          Bool.false_ne_true
        rw [List.countP_cons_of_neg hnot] at hcount
        exact hcount.le
      · have hresponse : AddressCarryingEvent.isLive
            (⟨.memResponse none cfg.self, addr⟩ : AddressCarryingEvent C) = false := rfl
        unfold work
        dsimp only
        rw [List.countP_append, List.countP_append, List.countP_singleton, List.countP_singleton,
          hresponse]
        simp only [Bool.false_eq_true, if_false, Bool.not_false, if_true]
        omega
  | redeliver i =>
    simp only [Step, StepOf, next] at hstep
    split at hstep
    · cases hstep
    · rename_i time event hrequeued
      have hevent := h.sound.putBack _ (List.mem_of_getElem? hrequeued)
      have hx : Awaited cfg (s.retaken i) event t := awaited_handleEvent hplain hevent hstep
      obtain ⟨settled, hsettles⟩ := hx.settles
      have hlive := live_settles ((settles_retaken hrequeued).trans hsettles)
      have hwork := work_retaken hrequeued
      have hle := hx.work_le
      exact nearer_of_le (by omega) (by omega)
  | deliver i =>
    simp only [Step, StepOf, next] at hstep
    split at hstep
    · cases hstep
    · rename_i event hqueue
      rcases h.sound.queue event (List.mem_of_getElem? hqueue) with hevent | hevent
      · have hx : Awaited cfg (s.taken i) event t := awaited_handleEvent hplain hevent hstep
        obtain ⟨settled, hsettles⟩ := hx.settles
        have hlive := live_settles ((settles_taken hqueue).trans hsettles)
        have hwork := work_taken hqueue hevent.isLive
        have hle := hx.work_le
        exact nearer_of_le (by omega) (by omega)
      · have harrived := arrived_taken h.sound hqueue hevent
        have hline := hproceeds event hqueue hevent
        have hx : Responded cfg (s.taken i) event t := responded_handleEvent hevent hstep
        cases hx with
        | waits noLine =>
          have hsame : s.hasLineFor cfg event.address = false := noLine
          rw [hline] at hsame
          cases hsame
        | fills hasLine filled =>
          obtain ⟨settled, hsettles, e, he, hall⟩ :=
            settles_fillAndSatisfyRequests hplain harrived.mshr filled
          have hlive : e.isLive = true := (harrived.waits e hall).isLive
          have hpos : 0 < settled.countP AddressCarryingEvent.isLive :=
            List.countP_pos_iff.mpr ⟨e, he, hlive⟩
          have hnot := hevent.not_isLive
          have htaken := (settles_taken hqueue).inside.countP_eq AddressCarryingEvent.isLive
          rw [List.nil_append, List.nil_append, List.singleton_append,
            List.countP_cons_of_neg (by rw [hnot]; exact Bool.false_ne_true)] at htaken
          have hbefore : s.live = (s.taken i).live := htaken
          have hafter := live_settles hsettles
          left
          omega

/-- Only finitely many steps follow without new requests. -/
theorem acc_continues (hplain : cfg.coherent = false) (hassoc : 2 ≤ cfg.geometry.assoc)
    (hsize : 1 ≤ cfg.mshrMaxSize) (h : Accounted cfg s) : Acc (Continues cfg) s := by
  have hwf : WellFounded (Nearer (C := C)) := by
    have hlex := InvImage.wf (fun s : HierarchyCache C => (s.live, s.work))
      (WellFounded.prod_lex Nat.lt_wfRel.wf Nat.lt_wfRel.wf)
    refine Subrelation.wf ?_ hlex
    intro t s hnearer
    exact Prod.lex_def.mpr hnearer
  induction s using hwf.induction with
  | h s ih =>
    constructor
    intro t ht
    apply ih t (nearer_of_continues hplain h ht)
    obtain ⟨label, hproceeds, hstep⟩ := ht
    refine accounted_step hplain hassoc hsize h ?_ hstep
    cases label with
    | post event => cases hproceeds
    | _ => trivial

/-! ### A step can be taken -/

theorem awaits_isSome (hevent : Awaits event) : ∃ t, s.handleEvent cfg event = some t := by
  rcases hevent with ⟨x, rfl⟩ | ⟨c, hrequest⟩
  · obtain ⟨requester, isWrite, address⟩ := x
    cases isWrite with
    | false => exact ⟨_, rfl⟩
    | true => exact ⟨_, rfl⟩
  · obtain ⟨request, address⟩ := event
    dsimp only at hrequest
    subst hrequest
    simp only [handleEvent]
    split
    · exact ⟨_, rfl⟩
    · rename_i hunlocked
      exact updateStateOfCacheLine_isSome (fun _ => Bool.not_eq_true _ ▸ hunlocked)

/-- The victim of a fill is not locked. -/
theorem handleEvictedLine_isSome (hplain : cfg.coherent = false)
    {lines : LineArray Unit} {evictedLine : Option (CacheLine Unit)}
    (hfill : s.lines.fill cfg.geometry (s.isAddrInMSHR cfg) addr .shared =
      some (lines, evictedLine)) :
    ∃ t, handleEvictedLine cfg { s with lines := lines } evictedLine = some t := by
  rw [LineArray.fill] at hfill
  split at hfill
  · cases hfill
  · rename_i i evicted hline
    simp only [Option.some.injEq, Prod.mk.injEq] at hfill
    obtain ⟨-, hevicted⟩ := hfill
    obtain ⟨-, ⟨rfl, -⟩ | ⟨rfl, -, hvalid, hunlocked⟩⟩ := LineArray.fillLine_eq_some hline
    · cases hevicted
      exact ⟨_, rfl⟩
    · cases hevicted
      have hfree : isAddrInMSHR cfg { s with lines := lines } (s.lines.lines i).address = false :=
        hunlocked
      simp only [handleEvictedLine, if_true, if_neg hvalid, hfree, hplain, Bool.false_eq_true,
        if_false]
      exact ⟨_, rfl⟩

theorem accessValid_fill {lines : LineArray Unit} {evictedLine : Option (CacheLine Unit)}
    {locked : Address → Bool}
    (hfill : s.lines.fill cfg.geometry locked addr .shared = some (lines, evictedLine)) :
    (lines.accessValid cfg.geometry addr).isSome := by
  rw [LineArray.fill] at hfill
  split at hfill
  · cases hfill
  · rename_i i evicted hline
    simp only [Option.some.injEq, Prod.mk.injEq] at hfill
    obtain ⟨rfl, -⟩ := hfill
    obtain ⟨hi, hcases⟩ := LineArray.fillLine_eq_some hline
    have hfound : s.lines.access cfg.geometry addr = some i ∨
        s.lines.access cfg.geometry addr = none := by
      rcases hcases with ⟨-, hfound | ⟨hnone, -⟩⟩ | ⟨-, hnone, -⟩
      · exact Or.inl hfound
      · exact Or.inr hnone
      · exact Or.inr hnone
    rw [LineArray.accessValid_eq_some_iff, LineArray.stateAt,
      LineArray.access_place_self _ hi hfound]
    simp [LineArray.place, LineArray.setLine]

/-- With a line to use the response takes no exit. -/
theorem Arrived.isSome (hplain : cfg.coherent = false) (h : Arrived cfg s addr)
    (hline : (s.lines.fillLine cfg.geometry (s.isAddrInMSHR cfg) addr).isSome) :
    ∃ t, s.fillAndSatisfyRequests cfg addr = some t := by
  obtain ⟨p, hp⟩ := Option.isSome_iff_exists.mp hline
  have hfill : ∃ lines evictedLine, s.lines.fill cfg.geometry (s.isAddrInMSHR cfg) addr .shared =
      some (lines, evictedLine) := by
    rw [LineArray.fill, hp]
    exact ⟨_, _, rfl⟩
  obtain ⟨lines, evictedLine, hfill⟩ := hfill
  obtain ⟨u, hu⟩ := handleEvictedLine_isSome hplain hfill
  obtain ⟨hlines, hmshr, -⟩ := handleEvictedLine_frame hplain hu
  obtain ⟨missList, m, hremoved, hm, -⟩ := h.removed
  have hclosed : m.isAddrInMSHR cfg.geometry.blockSizeBits addr = false := by
    have hwaiting := (MSHR.removeEvents_spec h.mshr hremoved).2.2 addr
    rw [if_pos rfl] at hwaiting
    cases hopen : m.isAddrInMSHR cfg.geometry.blockSizeBits addr with
    | false => rfl
    | true => exact absurd hwaiting ((MSHR.isAddrInMSHR_iff hm).mp hopen)
  have hvalid : (u.lines.accessValid cfg.geometry addr).isSome := by
    rw [hlines]
    exact accessValid_fill hfill
  have hprocessed : ∃ v, processEvents cfg addr missList false { u with mshr := m } missList =
      some v := processEvents_isSome hvalid hclosed
  obtain ⟨v, hv⟩ := hprocessed
  refine ⟨v.processEventsInPendingList cfg, ?_⟩
  have hsame : u.mshr = s.mshr := hmshr
  rw [HierarchyCache.fillAndSatisfyRequests, hfill]
  dsimp only
  rw [hu, Option.bind_some, HierarchyCache.processEventsInMSHR, hsame, hremoved]
  dsimp only
  rw [hv]
  rfl

theorem mem_outstanding (hqueue : event ∈ s.queue) (hevent : IsResponse cfg event) :
    event.address ∈ s.outstanding := by
  refine List.mem_append_right _ (List.mem_map_of_mem ?_)
  refine List.mem_filter.mpr ⟨hqueue, ?_⟩
  rw [hevent.not_isLive]
  rfl

/-- No delivery is an exit. -/
theorem deliver_isSome (hplain : cfg.coherent = false) (h : Sound cfg s) (hjam : Unjammed cfg s)
    (hqueue : s.queue[i]? = some event) : ∃ t, Step cfg s (.deliver i) t := by
  have hstep : ∀ t, (s.taken i).handleEvent cfg event = some t → Step cfg s (.deliver i) t := by
    intro t ht
    simp only [Step, StepOf, next, hqueue]
    exact ht
  rcases h.queue event (List.mem_of_getElem? hqueue) with hevent | hevent
  · have hsome : ∃ t, (s.taken i).handleEvent cfg event = some t := awaits_isSome hevent
    obtain ⟨t, ht⟩ := hsome
    exact ⟨t, hstep t ht⟩
  · have harrived := arrived_taken h hqueue hevent
    obtain ⟨hfill, -⟩ := hjam _ (mem_outstanding (List.mem_of_getElem? hqueue) hevent)
    obtain ⟨request, address⟩ := event
    unfold IsResponse at hevent
    dsimp only at hevent
    subst hevent
    cases hline : (s.taken i).hasLineFor cfg address with
    | false =>
      let back : AddressCarryingEvent C := ⟨.memResponse none cfg.self, address⟩
      refine ⟨{ s.taken i with queue := (s.taken i).queue ++ [back] }, hstep _ ?_⟩
      simp only [handleEvent, handleMemResponse, hline, Bool.false_eq_true, if_false]
      rfl
    | true =>
      have hsome : ∃ t, (s.taken i).fillAndSatisfyRequests cfg address = some t :=
        harrived.isSome hplain (hfill hline)
      obtain ⟨t, ht⟩ := hsome
      refine ⟨t, hstep t ?_⟩
      simp only [handleEvent, handleMemResponse, hline, if_true]
      exact ht

/-- Unless the lines of a set are all locked, the cache goes on until nothing is on its
way. -/
theorem continues_of_unjammed (hplain : cfg.coherent = false) (h : Sound cfg s)
    (hjam : Unjammed cfg s) (hbusy : ¬ Quiescent s) : ∃ t, Continues cfg t s := by
  cases hreads : s.readsBelow with
  | cons addr rest =>
    refine ⟨s.answered cfg 0 addr, .answer 0, trivial, ?_⟩
    simp only [Step, StepOf, next, hreads, List.getElem?_cons_zero]
    unfold answered
    rw [hreads]
  | nil =>
    cases hrequeued : s.requeued with
    | cons p rest =>
      obtain ⟨time, event⟩ := p
      have hevent : Awaits event := h.putBack (time, event) (by rw [hrequeued]; simp)
      have hsome : ∃ t, (s.retaken 0).handleEvent cfg event = some t := awaits_isSome hevent
      obtain ⟨t, ht⟩ := hsome
      refine ⟨t, .redeliver 0, trivial, ?_⟩
      simp only [Step, StepOf, next, hrequeued, List.getElem?_cons_zero]
      unfold retaken at ht
      rw [hrequeued] at ht
      exact ht
    | nil =>
      cases hqueue : s.queue with
      | nil => exact absurd ⟨hqueue, hrequeued, hreads⟩ hbusy
      | cons event rest =>
        -- a response that may not be delivered gives way to the one that has a line
        have hfirst : s.queue[0]? = some event := by
          rw [hqueue]
          rfl
        by_cases hproceeds : Proceeds cfg s (.deliver 0)
        · obtain ⟨t, ht⟩ := deliver_isSome hplain h hjam hfirst
          exact ⟨t, .deliver 0, hproceeds, ht⟩
        · simp only [Proceeds, not_forall] at hproceeds
          obtain ⟨event', hevent', hresponse, -⟩ := hproceeds
          have hmem := List.mem_of_getElem? hevent'
          obtain ⟨-, a, ha, -, hline⟩ := hjam _ (mem_outstanding hmem hresponse)
          unfold outstanding at ha
          rw [hreads, List.nil_append] at ha
          obtain ⟨response, hin, rfl⟩ := List.mem_map.mp ha
          obtain ⟨j, hj⟩ := List.mem_iff_getElem?.mp (List.mem_of_mem_filter hin)
          obtain ⟨t, ht⟩ := deliver_isSome hplain h hjam hj
          refine ⟨t, .deliver j, ?_, ht⟩
          intro e he _
          rw [hj] at he
          cases he
          exact hline

/-! ### Runs -/

/-- No read is answered twice, nothing waits once nothing is on its way, and nothing is on
its way for ever. -/
structure AnswersReads (cfg : HierarchyConfig C) (s : HierarchyCache C) : Prop where
  once : List.Subperm s.responses (s.requests.filterMap CacheAccess.read?)
  atRest : Quiescent s → s.mshr.missRegister = [] ∧ s.eventsWaitingOnMSHR = [] ∧
    List.Perm s.responses (s.requests.filterMap CacheAccess.read?)
  ends : Acc (Continues cfg) s

/-- The cache stops only when nothing is on its way, and no delivery is an exit. -/
structure KeepsGoing (cfg : HierarchyConfig C) (s : HierarchyCache C) : Prop where
  stops : (∀ t, ¬ Continues cfg t s) → Quiescent s
  delivers : ∀ i event, s.queue[i]? = some event → ∃ t, Step cfg s (.deliver i) t

theorem Accounted.quiescent (h : Accounted cfg s) (hrest : Quiescent s) :
    s.mshr.missRegister = [] ∧ s.eventsWaitingOnMSHR = [] ∧
      List.Perm s.responses (s.requests.filterMap CacheAccess.read?) := by
  obtain ⟨hqueue, hrequeued, hreads⟩ := hrest
  have hnone : s.outstanding = [] := by
    unfold outstanding
    rw [hqueue, hreads]
    rfl
  have hregister : s.mshr.missRegister = [] := by
    have hheads := h.sound.reads
    rw [hnone] at hheads
    by_contra hne
    exact heads_ne_nil.mpr hne hheads.symm.eq_nil
  have hparked : s.eventsWaitingOnMSHR = [] := by
    by_contra hne
    exact h.parked hne hregister
  have hinside : s.inside = [] := by
    unfold inside MSHR.all
    rw [hqueue, hrequeued, hparked, hregister]
    rfl
  have hconserved := h.conserved
  rw [hinside, List.filterMap_nil, List.append_nil] at hconserved
  exact ⟨hregister, hparked, hconserved.symm⟩

/-- With two lines in a set a read that was sent is answered once, as long as some response
for each set finds a line to use. -/
theorem reads_answered (hplain : cfg.coherent = false) (hassoc : 2 ≤ cfg.geometry.assoc)
    (hsize : 1 ≤ cfg.mshrMaxSize) {labels : List (Action C)}
    (hrun : Run (Guarded (Step cfg) fun _ a => PlainInput a) initial labels s) :
    AnswersReads cfg s ∧ (Unjammed cfg s → KeepsGoing cfg s) := by
  have haccounted : Accounted cfg s := hrun.invariant (accounted_initial cfg)
    (fun _ _ _ h hstep => accounted_step hplain hassoc hsize h hstep.1 hstep.2)
  constructor
  · constructor
    case once =>
      have hsub := (List.sublist_append_left s.responses
        (s.inside.filterMap AddressCarryingEvent.read?)).subperm
      exact hsub.trans haccounted.conserved.symm.subperm
    case atRest => exact haccounted.quiescent
    case ends => exact acc_continues hplain hassoc hsize haccounted
  · intro hjam
    constructor
    case stops =>
      intro hstuck
      by_contra hbusy
      obtain ⟨t, ht⟩ := continues_of_unjammed hplain haccounted.sound hjam hbusy
      exact hstuck t ht
    case delivers => exact fun i event hqueue => deliver_isSome hplain haccounted.sound hjam hqueue

instance (s : HierarchyCache C) : Decidable (Quiescent s) :=
  decidable_of_iff (s.queue.isEmpty ∧ s.requeued.isEmpty ∧ s.readsBelow.isEmpty) (by
    simp only [Quiescent, List.isEmpty_iff])

instance (request : Request C) :
    Decidable (∃ c, request = .fromDirectory (.evictCacheLine c)) :=
  match request with
  | .fromDirectory reply =>
    match reply with
    | .evictCacheLine c => isTrue ⟨c, rfl⟩
    | .cacheRead _ => isFalse (by rintro ⟨c, h⟩; cases h)
    | .memResponse _ => isFalse (by rintro ⟨c, h⟩; cases h)
    | .ackEvictCacheLine _ => isFalse (by rintro ⟨c, h⟩; cases h)
    | .directoryCachelineForwardRequest _ _ => isFalse (by rintro ⟨c, h⟩; cases h)
    | .directorySharedToExclusive _ => isFalse (by rintro ⟨c, h⟩; cases h)
    | .ackDirectoryWriteHit _ => isFalse (by rintro ⟨c, h⟩; cases h)
  | .cacheRead _ => isFalse (by rintro ⟨c, h⟩; cases h)
  | .cacheWrite _ => isFalse (by rintro ⟨c, h⟩; cases h)
  | .memResponse _ _ => isFalse (by rintro ⟨c, h⟩; cases h)
  | .toDirectory _ => isFalse (by rintro ⟨c, h⟩; cases h)
  | .writeThrough _ => isFalse (by rintro ⟨c, h⟩; cases h)
  | .acknowledgement _ => isFalse (by rintro ⟨c, h⟩; cases h)

instance (a : Action C) : Decidable (PlainInput a) :=
  match a with
  | .post event => inferInstanceAs
      (Decidable (∃ c, event.request = .fromDirectory (.evictCacheLine c)))
  | .request _ => isTrue trivial
  | .answer _ => isTrue trivial
  | .deliver _ => isTrue trivial
  | .redeliver _ => isTrue trivial
  | .setState _ _ => isTrue trivial

/-- A plain cache with one set of two lines. -/
def twoWays : HierarchyConfig Unit where
  self := ()
  geometry := ⟨0, 6, 2, Nat.two_pos, Geometry.oneSet_bits⟩
  writePolicy := .writeBack
  mshrMaxSize := 4
  coherent := false
  belowCoherenceLevel := false
  topLevelCache := true

/-- Two reads of one line are answered together. -/
theorem twoWays_answers : ∃ s : HierarchyCache Unit,
    s.responses = [((), 64), ((), 68)] ∧ AnswersReads twoWays s ∧
      (Unjammed twoWays s → KeepsGoing twoWays s) := by
  have hrun : (exec (fun s a => if PlainInput a then next twoWays s a else none) initial
      [.request ⟨(), false, 64⟩, .request ⟨(), false, 68⟩, .deliver 0, .deliver 0, .answer 0,
        .deliver 0]).any (fun s => decide (s.responses = [((), 64), ((), 68)])) = true := by decide
  obtain ⟨s, hexec, hs⟩ := (Option.any_eq_true _ _).mp hrun
  exact ⟨s, of_decide_eq_true hs, reads_answered rfl Nat.le.refl (Nat.le_add_left 1 3)
    (guarded_run_of_exec (C := fun _ a => PlainInput a) hexec)⟩

/-- A set of one line is full while nothing is outstanding, and the request stays parked. -/
def oneWay : HierarchyConfig Unit where
  self := ()
  geometry := ⟨0, 6, 1, Nat.one_pos, Geometry.oneSet_bits⟩
  writePolicy := .writeBack
  mshrMaxSize := 4
  coherent := false
  belowCoherenceLevel := false
  topLevelCache := true

theorem oneWay_strands :
    ¬ ∀ (cfg : HierarchyConfig Unit) (labels : List (Action Unit)) (s : HierarchyCache Unit),
      cfg.coherent = false → 1 ≤ cfg.geometry.assoc → 1 ≤ cfg.mshrMaxSize →
        Run (Guarded (Step cfg) fun _ a => PlainInput a) initial labels s →
          Quiescent s → s.eventsWaitingOnMSHR = [] := by
  intro hclaim
  have hrun : Run (Guarded (Step oneWay) fun _ a => PlainInput a) initial
      [.request ⟨(), false, 64⟩]
      (initial.addEventAtLowerCache oneWay ⟨(), false, 64⟩) :=
    .single ⟨trivial, rfl⟩
  have hparked := hclaim oneWay _ _ rfl Nat.le.refl (Nat.le_add_left 1 3) hrun (by decide)
  revert hparked
  decide

end Tejas.HierarchyCache
