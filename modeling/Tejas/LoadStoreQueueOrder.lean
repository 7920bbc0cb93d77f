import Tejas.LoadStoreQueueRing
import Mathlib.Data.List.Chain

/-!
# The order of the load-store queue

A ledger notes which slots are allocated and which are removed. At every moment the slots
allocated so far are those removed so far, in the same order, followed by the window from
the head to the tail.
-/

namespace Tejas.LSQ
open LabelledRuns RingWindow

variable {s t : LSQ} {f i k : ℕ}

/-! ### What a commit removes -/

/-- The slots that the loop of `handleCommitsFromROB` removes, in its order. -/
def removalsFrom (s : LSQ) (accepts : ℕ → Bool) (commitUpto i : ℕ) : ℕ → List ℕ
  | 0 => []
  | fuel + 1 =>
    match s.commitEntry accepts i with
    | some (some t) =>
      i :: if i = commitUpto then []
        else t.removalsFrom accepts commitUpto ((i + 1) % s.lsqSize) fuel
    | _ => []

/-- The slots that an action removes. -/
def removals (s : LSQ) : Action → List ℕ
  | .commit commitUpto accepts =>
    if (s.lsqueue commitUpto).removed then []
    else s.removalsFrom accepts commitUpto (s.head.getD 0) s.lsqSize
  | _ => []

/-- The slot that an action has allocated: the tail it has left. -/
def allocations (t : LSQ) : Action → List ℕ
  | .addEntry _ _ _ => t.tail.toList
  | .addMfence _ => t.tail.toList
  | _ => []

theorem commitFrom_window {accepts : ℕ → Bool} {fuel : ℕ} (h : s.RingAt f)
    (hk : k < s.curSize)
    (hc : s.commitFrom accepts (slot s.lsqSize f k) f fuel = some t) :
    s.window = s.removalsFrom accepts (slot s.lsqSize f k) f fuel ++ t.window := by
  induction fuel generalizing s f k with
  | zero => simp [commitFrom] at hc
  | succ fuel ih =>
    have hcur : 0 < s.curSize := by omega
    have hsize := h.cur_le
    rw [commitFrom] at hc
    rw [removalsFrom]
    split at hc
    case h_1 => cases hc
    case h_2 hstop =>
      cases hc
      rw [hstop]
      rfl
    case h_3 u hu =>
      obtain ⟨hring, hn, hcu⟩ := commitEntry_ring h hcur hu
      have hfirst := commitEntry_window h hcur hu
      rw [hu]
      dsimp only
      split at hc
      · rename_i hlast
        cases hc
        rw [if_pos hlast]
        exact hfirst
      · rename_i hne
        rw [if_neg hne]
        obtain ⟨hpos, hupto⟩ := slot_behind_head hn h.first_lt hne
        rw [hupto] at hc ⊢
        rw [hfirst, List.cons_append, ih hring (by omega) hc]

/-- What is removed is the front of the window. -/
theorem window_commit {accepts : ℕ → Bool} (h : s.RingAt f) (hi : i < s.lsqSize)
    (hc : s.handleCommitsFromROB accepts i = some t) :
    s.window = s.removals (.commit i accepts) ++ t.window := by
  rw [handleCommitsFromROB] at hc
  rw [removals]
  split at hc
  · rename_i hremoved
    cases hc
    rw [if_pos hremoved]
    rfl
  · rename_i hremoved
    rw [if_neg hremoved]
    obtain ⟨k, hk, rfl⟩ := h.exists_position ⟨hi, by simpa using hremoved⟩
    rw [h.head_getD (by omega)] at hc ⊢
    exact commitFrom_window h hk hc

/-- Every action removes the front of the window and adds to its end. -/
theorem window_next {a : Action} (h : s.RingInvariant) (hstep : s.next a = some t) :
    s.window ++ t.allocations a = s.removals a ++ t.window := by
  obtain ⟨f, h⟩ := h
  cases a with
  | addEntry isLoad address robEntry =>
    obtain ⟨f', h', hlt, rfl⟩ := next_addEntry h hstep
    rw [h'.window_pushed hlt rfl]
    rfl
  | addMfence robEntry =>
    obtain ⟨f', h', hlt, rfl⟩ := next_addMfence h hstep
    have hwindow := h'.window_pushed (e := .recycled .mfence robEntry 0 s.mfenceCount) hlt rfl
    exact hwindow.symm
  | addrValidate index executed =>
    simp only [next] at hstep
    split at hstep
    · rename_i hlive
      obtain ⟨r, hr, rfl⟩ := Option.map_eq_some_iff.mp hstep
      rw [(handleAddrValidate_flags hlive hr).1.window]
      exact List.append_nil _
    · cases hstep
  | l1Issue index =>
    simp only [next] at hstep
    split at hstep
    · cases hstep
      rw [l1Issued_flags.1.window]
      exact List.append_nil _
    · cases hstep
  | memResponse address executed =>
    cases hstep
    have hflags := (responseScan_flags (s := s) (i := s.head.getD 0) executed address s.curSize).1
    have hwindow : (s.handleMemResponse executed address).1.window = s.window := hflags.window
    rw [hwindow]
    exact List.append_nil _
  | commit commitUpto accepts =>
    simp only [next] at hstep
    split at hstep
    · rename_i hi
      rw [window_commit h hi hstep]
      exact List.append_nil _
    · cases hstep

/-! ### The ledger -/

/-- The queue with the slots allocated and removed so far. -/
structure Ledger where
  queue : LSQ
  allocated : List ℕ
  gone : List ℕ

def Ledger.new (lsqSize : ℕ) : Ledger := ⟨LSQ.new lsqSize, [], []⟩

def Ledger.next (l : Ledger) (a : Action) : Option Ledger :=
  (l.queue.next a).map (fun t =>
    ⟨t, l.allocated ++ t.allocations a, l.gone ++ l.queue.removals a⟩)

/-- The live entries are the slots from the head to the tail in the order of their
allocation, entries leave in that order, and there is room for another one unless the queue
is full. -/
structure Ordered (l : Ledger) : Prop where
  count : (List.range l.queue.lsqSize).countP (fun i => !(l.queue.lsqueue i).removed) =
    l.queue.curSize
  live : ∀ i, i ∈ l.queue.window ↔ l.queue.Live i
  once : l.queue.window.Nodup
  first : l.queue.window.head? = l.queue.head
  last : l.queue.window.getLast? = l.queue.tail
  adjacent : l.queue.window.IsChain (fun i j => j = l.queue.incrementQ i)
  order : l.allocated = l.gone ++ l.queue.window
  admits : l.queue.isFull = false →
    (∀ isLoad address robEntry, (l.queue.addEntry isLoad address robEntry).isSome) ∧
      ∀ robEntry, (l.queue.addMfence robEntry).isSome

theorem RingAt.window_head (h : s.RingAt f) : s.window.head? = s.head := by
  rw [h.window_eq, h.head_eq]
  cases hcur : s.curSize with
  | zero => rfl
  | succ c =>
    rw [slotsFrom_succ, slot_zero h.first_lt]
    rfl

theorem RingAt.window_last (h : s.RingAt f) : s.window.getLast? = s.tail := by
  rw [h.window_eq, h.tail_eq]
  cases hcur : s.curSize with
  | zero => rfl
  | succ c => simp [slotsFrom, List.range_succ]

theorem slotsFrom_adjacent (n head k m : ℕ) :
    (slotsFrom n head k m).IsChain (fun i j => j = (i + 1) % n) := by
  induction m generalizing k with
  | zero => exact .nil
  | succ m ih =>
    rw [slotsFrom_succ]
    cases m with
    | zero => exact .singleton _
    | succ m =>
      have hrest := ih (k + 1)
      rw [slotsFrom_succ] at hrest ⊢
      exact .cons_cons (slot_next n head k).symm hrest

/-- There are as many live slots as the window has. -/
theorem RingAt.countP_live (h : s.RingAt f) :
    (List.range s.lsqSize).countP (fun i => !(s.lsqueue i).removed) = s.curSize := by
  have hperm : List.Perm ((List.range s.lsqSize).filter (fun i => !(s.lsqueue i).removed))
      s.window := by
    apply (List.perm_ext_iff_of_nodup (List.nodup_range.filter _) h.window_nodup).mpr
    intro i
    rw [h.mem_window, List.mem_filter, List.mem_range, Live, Bool.not_eq_true']
  rw [List.countP_eq_length_filter, hperm.length_eq, h.window_eq]
  simp [slotsFrom]

theorem RingAt.admits (h : s.RingAt f) (hfull : s.isFull = false) :
    (∀ isLoad address robEntry, (s.addEntry isLoad address robEntry).isSome) ∧
      ∀ robEntry, (s.addMfence robEntry).isSome := by
  have hlt : s.curSize < s.lsqSize := by simpa [isFull] using hfull
  constructor
  · intro isLoad address robEntry
    obtain ⟨f', -, heq⟩ :=
      allocate_eq_some (if isLoad then .load else .store) address robEntry h hlt
    rw [addEntry, heq]
    rfl
  · intro robEntry
    obtain ⟨f', -, heq⟩ := allocate_eq_some .mfence 0 robEntry h hlt
    rw [addMfence, heq]
    rfl

/-- The ledger of a queue laid out as a ring balances. -/
def Balanced (l : Ledger) : Prop :=
  l.queue.RingInvariant ∧ l.allocated = l.gone ++ l.queue.window

theorem balanced_new {n : ℕ} (hn : 0 < n) : Balanced (Ledger.new n) :=
  ⟨⟨0, ringAt_new hn⟩, rfl⟩

theorem balanced_next {l l' : Ledger} {a : Action} (h : Balanced l) (hstep : l.next a = some l') :
    Balanced l' := by
  obtain ⟨hring, horder⟩ := h
  obtain ⟨t, ht, rfl⟩ := Option.map_eq_some_iff.mp hstep
  refine ⟨ringInvariant_next hring ht, ?_⟩
  dsimp only
  rw [horder, List.append_assoc, window_next hring ht, List.append_assoc]

/-- The queue is a ring in the order of allocation in every run. -/
theorem ordered_run {n : ℕ} {labels : List Action} {l : Ledger} (hn : 0 < n)
    (run : Run (StepOf Ledger.next) (Ledger.new n) labels l) : Ordered l := by
  obtain ⟨⟨f, hring⟩, horder⟩ := run.invariant (balanced_new hn)
    (fun _ _ _ h hstep => balanced_next h hstep)
  constructor
  case count => exact hring.countP_live
  case live => exact fun i => hring.mem_window
  case once => exact hring.window_nodup
  case first => exact hring.window_head
  case last => exact hring.window_last
  case adjacent =>
    rw [hring.window_eq]
    exact slotsFrom_adjacent _ _ _ _
  case order => exact horder
  case admits => exact hring.admits

/-- A commit of the second of three entries, of which the cache refuses the second. -/
theorem ordered_run_three : ∃ l, Run (StepOf Ledger.next) (Ledger.new 3)
    [.addEntry true 4 none, .addEntry false 8 none, .addMfence none,
      .addrValidate 0 (fun _ => false), .memResponse 4 (fun _ => false),
      .addrValidate 1 (fun _ => false), .commit 1 (fun _ => false)] l ∧
    l.allocated = [0, 1, 2] ∧ l.gone = [0] ∧ Ordered l := by
  have hrun : (exec Ledger.next (Ledger.new 3)
      [.addEntry true 4 none, .addEntry false 8 none, .addMfence none,
        .addrValidate 0 (fun _ => false), .memResponse 4 (fun _ => false),
        .addrValidate 1 (fun _ => false), .commit 1 (fun _ => false)]).any
      (fun l => decide (l.allocated = [0, 1, 2] ∧ l.gone = [0])) = true := by decide
  obtain ⟨l, hexec, hl⟩ := (Option.any_eq_true _ _).mp hrun
  obtain ⟨hallocated, hgone⟩ := of_decide_eq_true hl
  have hthree : 0 < 3 := Nat.succ_pos 2
  exact ⟨l, run_of_exec hexec, hallocated, hgone, ordered_run hthree (run_of_exec hexec)⟩

end Tejas.LSQ
