import Tejas.StoreForwarding
import Tejas.LoadStoreQueueOrder
import Tejas.FenceCounting

/-!
# The events around the load-store queue

The pipeline issues an operation when its entry is issuable, and then the event that
validates its address is on its way. A load that finds no store goes to the first-level
cache, at once or in later attempts, and the cache answers each read it has accepted. The
reorder buffer commits operations in their order and only when they are valid.
-/

namespace Tejas.LSQ
open LabelledRuns RingWindow ListSearch

variable {s t : LSQ} {f i j k : ℕ}

structure Traffic where
  queue : LSQ
  /-- `Tell_LSQ_Addr_Ready` and `Validate_LSQ_Addr` events, by their entries. -/
  ready : List ℕ
  /-- `Attempt_L1_Issue` events. -/
  attempts : List ℕ
  /-- Reads that the cache has accepted and not answered. -/
  reads : List ℤ

/-- The check of `issueInstruction` for an operation that has not been issued yet. -/
def Traffic.Issues (m : Traffic) (i : ℕ) : Prop :=
  m.queue.Live i ∧ (m.queue.lsqueue i).isIssuable = true ∧ (m.queue.lsqueue i).valid = false ∧
    i ∉ m.ready

instance (m : Traffic) (i : ℕ) : Decidable (m.Issues i) :=
  inferInstanceAs (Decidable (_ ∧ _ ∧ _ ∧ _))

/-- The reorder buffer has committed the entry and those before it, all of them valid. -/
def Retired (s : LSQ) (commitUpto : ℕ) : Prop :=
  (s.lsqueue commitUpto).removed = false →
    ∀ j ∈ s.window.takeWhile (fun j => j ≠ commitUpto) ++ [commitUpto],
      (s.lsqueue j).valid = true

instance (s : LSQ) (commitUpto : ℕ) : Decidable (s.Retired commitUpto) :=
  inferInstanceAs (Decidable (_ → _))

inductive TrafficAction where
  | addEntry (isLoad : Bool) (address : ℤ) (robEntry : Option ℕ)
  | addMfence (robEntry : Option ℕ)
  | issue (index : ℕ)
  | addrReady (k : ℕ) (executed : ℕ → Bool) (l1Accepts : Bool)
  | attemptL1Issue (k : ℕ) (l1Accepts : Bool)
  | memResponse (k : ℕ) (executed : ℕ → Bool)
  /-- A response for an instruction when one cache serves both. -/
  | fetchResponse (address : ℤ) (executed : ℕ → Bool)
  | commit (commitUpto : ℕ) (accepts : ℕ → Bool)

namespace Traffic

def new (lsqSize : ℕ) : Traffic := ⟨LSQ.new lsqSize, [], [], []⟩

/-- `handleAttemptL1Issue` -/
def handleAttemptL1Issue (m : Traffic) (l1Accepts : Bool) (i : ℕ) : Traffic :=
  if l1Accepts then
    { m with queue := m.queue.l1Issued i, reads := m.reads ++ [(m.queue.lsqueue i).addr] }
  else { m with attempts := m.attempts ++ [i] }

def next (m : Traffic) : TrafficAction → Option Traffic
  | .addEntry isLoad address robEntry =>
    (m.queue.next (.addEntry isLoad address robEntry)).map (fun q => { m with queue := q })
  | .addMfence robEntry =>
    (m.queue.next (.addMfence robEntry)).map (fun q => { m with queue := q })
  | .issue index => if m.Issues index then some { m with ready := m.ready ++ [index] } else none
  | .addrReady k executed l1Accepts =>
    match m.ready[k]? with
    | none => none
    | some index =>
      (m.queue.handleAddrValidate executed index).map (fun r =>
        let m' : Traffic := { m with queue := r.1, ready := m.ready.eraseIdx k }
        if r.2.2 then m'.handleAttemptL1Issue l1Accepts index else m')
  | .attemptL1Issue k l1Accepts =>
    match m.attempts[k]? with
    | none => none
    | some index =>
      some (handleAttemptL1Issue { m with attempts := m.attempts.eraseIdx k } l1Accepts index)
  | .memResponse k executed =>
    match m.reads[k]? with
    | none => none
    | some address =>
      some { m with
        queue := (m.queue.handleMemResponse executed address).1
        reads := m.reads.eraseIdx k }
  | .fetchResponse address executed =>
    some { m with queue := (m.queue.handleMemResponse executed address).1 }
  | .commit commitUpto accepts =>
    if m.queue.Retired commitUpto then
      (m.queue.next (.commit commitUpto accepts)).map (fun q => { m with queue := q })
    else none

end Traffic

/-! ### Stores before a load -/

/-- A store to the address. -/
def StoreAt (s : LSQ) (address : ℤ) (j : ℕ) : Bool :=
  (s.lsqueue j).type = .store ∧ (s.lsqueue j).addr = address

/-- The last store to the address among entries listed oldest first. -/
def youngestStore (s : LSQ) (address : ℤ) (older : List ℕ) : Option ℕ :=
  older.reverse.find? (s.StoreAt address)

/-- The load at `i`, with the older entries given, waits for a store that is not valid yet,
or there is no store and its read is scheduled or outstanding. -/
def Served (s : LSQ) (attempts : List ℕ) (reads : List ℤ) (older : List ℕ) (i : ℕ) : Prop :=
  match s.youngestStore (s.lsqueue i).addr older with
  | some j => (s.lsqueue j).valid = false
  | none => i ∈ attempts ∨ (s.lsqueue i).addr ∈ reads

theorem youngestStore_congr {address : ℤ} {older : List ℕ}
    (h : ∀ j ∈ older, t.StoreAt address j = s.StoreAt address j) :
    t.youngestStore address older = s.youngestStore address older := by
  unfold youngestStore
  induction older with
  | nil => rfl
  | cons x rest ih =>
    have hrest := ih (fun j hj => h j (List.mem_cons_of_mem _ hj))
    rw [List.reverse_cons, List.find?_append, List.find?_append, hrest]
    simp only [List.find?_singleton, h x List.mem_cons_self]

theorem youngestStore_concat (address : ℤ) (older : List ℕ) (j : ℕ) :
    s.youngestStore address (older ++ [j]) =
      if s.StoreAt address j then some j else s.youngestStore address older := by
  unfold youngestStore
  rw [List.reverse_append]
  cases h : s.StoreAt address j with
  | true => simp [h]
  | false => simp [h]

theorem youngestStore_cons (address : ℤ) (older : List ℕ) (j : ℕ) :
    s.youngestStore address (j :: older) =
      (s.youngestStore address older).or (if s.StoreAt address j then some j else none) := by
  unfold youngestStore
  rw [List.reverse_cons, List.find?_append, List.find?_singleton]

/-- The last store splits the entries: behind it stands no store to the address. -/
theorem youngestStore_eq_some {address : ℤ} {older : List ℕ}
    (h : s.youngestStore address older = some j) :
    ∃ before between, older = before ++ j :: between ∧ s.StoreAt address j = true ∧
      ∀ m ∈ between, s.StoreAt address m = false := by
  obtain ⟨hj, behind, front, hsplit, hnone⟩ := List.find?_eq_some_iff_append.mp h
  have holder : older = front.reverse ++ j :: behind.reverse := by
    have hreversed := congrArg List.reverse hsplit
    simpa using hreversed
  refine ⟨front.reverse, behind.reverse, holder, hj, fun m hm => ?_⟩
  have hnot := hnone m (List.mem_reverse.mp hm)
  simpa using hnot

theorem youngestStore_eq_none {address : ℤ} {older : List ℕ} :
    s.youngestStore address older = none ↔ ∀ j ∈ older, s.StoreAt address j = false := by
  unfold youngestStore
  rw [List.find?_eq_none]
  constructor
  · intro h j hj
    have hnot := h j (List.mem_reverse.mpr hj)
    simpa using hnot
  · intro h j hj
    rw [h j (List.mem_reverse.mp hj)]
    exact Bool.false_ne_true

/-- Behind the last store nothing ends a scan, if there is no fence. -/
theorem blocks_eq_false {address : ℤ} (hstore : s.StoreAt address j = false)
    (hfence : s.isFence j = false) : s.Blocks address j = false := by
  unfold StoreAt at hstore
  unfold isFence at hfence
  unfold Blocks
  rw [decide_eq_false_iff_not] at hstore hfence ⊢
  intro hblocks
  rcases hblocks with hm | hs
  · exact hfence hm
  · exact hstore hs

end Tejas.LSQ
