import Tejas.LoadTraffic
import Mathlib.Data.List.DropRight

/-!
# What a load finds in the queue

`loadResolve` walks from a load towards the head, and stops at a fence, at a store to the
address of the load, or behind the head. What it finds is the youngest store to the
address among the entries behind the last fence.
-/

namespace Tejas.LSQ
open LabelledRuns RingWindow ListSearch

variable {s : LSQ} {f i j k : ℕ} {address : ℤ} {older younger : List ℕ}

theorem decrementQ_slot (h : s.RingAt f) (hk : k + 1 < s.lsqSize) :
    s.decrementQ (slot s.lsqSize f (k + 1)) = slot s.lsqSize f k := by
  have hf := h.first_lt
  unfold decrementQ slot
  rcases Nat.lt_or_ge (f + (k + 1)) s.lsqSize with hlt | hge
  · have hk' : f + k < s.lsqSize := by omega
    rw [Nat.mod_eq_of_lt hlt, Nat.mod_eq_of_lt hk', if_pos (by omega)]
    omega
  · have hround : (f + (k + 1)) % s.lsqSize = f + (k + 1) - s.lsqSize := by
      rw [Nat.mod_eq_sub_mod hge, Nat.mod_eq_of_lt (by omega)]
    rw [hround]
    rcases Nat.eq_or_lt_of_le hge with heq | hlt
    · rw [if_neg (by omega), Nat.mod_eq_of_lt (by omega)]
      omega
    · have hround' : (f + k) % s.lsqSize = f + k - s.lsqSize := by
        rw [Nat.mod_eq_sub_mod (by omega), Nat.mod_eq_of_lt (by omega)]
      rw [if_pos (by omega), hround']
      omega

theorem slotsFrom_concat (n head k m : ℕ) :
    slotsFrom n head k (m + 1) = slotsFrom n head k m ++ [slot n head (k + m)] := by
  simp [slotsFrom, List.range_succ]

/-- What a load finds that has the given entries before it. -/
def searchStatus (s : LSQ) (address : ℤ) (older : List ℕ) : SearchStatus :=
  match s.youngestStore address older with
  | some j => if (s.lsqueue j).valid then .forwarded else .canBeForwarded
  | none => .shouldGoToL1

/-- The entries behind the last fence, of entries listed oldest first. -/
def unfenced (s : LSQ) (older : List ℕ) : List ℕ := older.rtakeWhile (fun j => !s.isFence j)

theorem unfenced_concat (s : LSQ) (older : List ℕ) (j : ℕ) :
    s.unfenced (older ++ [j]) = if s.isFence j then [] else s.unfenced older ++ [j] := by
  rw [unfenced, List.rtakeWhile_concat, unfenced]
  cases s.isFence j <;> rfl

theorem unfenced_eq_self (hclear : ∀ j ∈ older, s.isFence j = false) :
    s.unfenced older = older := by
  rw [unfenced, List.rtakeWhile_eq_self_iff]
  intro j hj
  rw [hclear j hj]
  rfl

theorem StoreAt.not_isFence (h : s.StoreAt address j = true) : s.isFence j = false := by
  rw [StoreAt, decide_eq_true_eq] at h
  rw [isFence, h.1]
  rfl

/-- One round of the walk: at a fence, at a store, at the head, and elsewhere. -/
theorem loadScan_succ (older : List ℕ) (fuel : ℕ)
    (hrest : s.isFence j = false → s.StoreAt address j = false →
      (if some j = s.head then some .shouldGoToL1
        else s.loadScan address (s.decrementQ j) fuel) =
          some (s.searchStatus address (s.unfenced older))) :
    s.loadScan address j (fuel + 1) =
      some (s.searchStatus address (s.unfenced (older ++ [j]))) := by
  rw [loadScan, unfenced_concat]
  cases hfence : s.isFence j with
  | true =>
    rw [if_pos (of_decide_eq_true hfence), if_pos rfl]
    rfl
  | false =>
    rw [if_neg (of_decide_eq_false hfence), if_neg Bool.false_ne_true, searchStatus,
      youngestStore_concat]
    cases hstore : s.StoreAt address j with
    | true =>
      rw [if_pos (of_decide_eq_true hstore), if_pos rfl]
      dsimp only
      split <;> rfl
    | false =>
      rw [if_neg (of_decide_eq_false hstore), if_neg Bool.false_ne_true, hrest hfence hstore]
      rfl

theorem RingAt.slot_eq_head_iff (h : s.RingAt f) (hk : k < s.curSize) :
    some (slot s.lsqSize f k) = s.head ↔ k = 0 := by
  have hsize := h.cur_le
  have hzero : slot s.lsqSize f 0 = f := slot_zero h.first_lt
  rw [h.head_eq, if_neg (by omega), Option.some_inj]
  constructor
  · intro heq
    exact (slot_inj (by omega) h.size_pos).mp (heq.trans hzero.symm)
  · rintro rfl
    exact hzero

/-- The walk from a position finds what stands behind the last fence. -/
theorem loadScan_eq {fuel : ℕ} (h : s.RingAt f) (hk : k < s.curSize) (hfuel : k < fuel) :
    s.loadScan address (slot s.lsqSize f k) fuel =
      some (s.searchStatus address (s.unfenced (slotsFrom s.lsqSize f 0 (k + 1)))) := by
  have hsize := h.cur_le
  induction k generalizing fuel with
  | zero =>
    obtain ⟨fuel, rfl⟩ := Nat.exists_eq_succ_of_ne_zero (Nat.ne_of_gt hfuel)
    rw [slotsFrom_concat, Nat.zero_add]
    apply loadScan_succ
    intro _ _
    rw [if_pos ((h.slot_eq_head_iff hk).mpr rfl)]
    rfl
  | succ k ih =>
    obtain ⟨fuel, rfl⟩ := Nat.exists_eq_succ_of_ne_zero (Nat.ne_of_gt (Nat.zero_lt_of_lt hfuel))
    rw [slotsFrom_concat, Nat.zero_add]
    apply loadScan_succ
    intro _ _
    rw [if_neg (fun heq => Nat.succ_ne_zero k ((h.slot_eq_head_iff hk).mp heq)),
      decrementQ_slot h (by omega)]
    exact ih (Nat.lt_of_succ_lt hk) (Nat.lt_of_succ_lt_succ hfuel)

/-- Every entry of the window has a position, with the entries before and behind it. -/
theorem RingAt.window_split (h : s.RingAt f)
    (hsplit : s.window = older ++ i :: younger) :
    ∃ k < s.curSize, i = slot s.lsqSize f k ∧ older = slotsFrom s.lsqSize f 0 k := by
  have hlength := congrArg List.length hsplit
  rw [h.window_eq, List.length_append, List.length_cons] at hlength
  have hcur : older.length < s.curSize := by
    have hslots : (slotsFrom s.lsqSize f 0 s.curSize).length = s.curSize := by
      simp [slotsFrom]
    omega
  have hsum : s.curSize = older.length + (s.curSize - (older.length + 1) + 1) := by omega
  have hwindow := h.window_eq
  rw [hsum, slotsFrom_add, slotsFrom_succ, hsplit, Nat.zero_add] at hwindow
  obtain ⟨holder, hrest⟩ := List.append_inj hwindow (by simp [slotsFrom])
  exact ⟨older.length, hcur, (List.cons.inj hrest).1, holder⟩

theorem loadResolve_eq (h : s.RingAt f) (hsplit : s.window = older ++ i :: younger) :
    s.loadResolve i = some (s.searchStatus (s.lsqueue i).addr (s.unfenced older)) := by
  obtain ⟨k, hk, rfl, rfl⟩ := h.window_split hsplit
  have hsize := h.cur_le
  unfold loadResolve
  cases k with
  | zero =>
    rw [if_pos ((h.slot_eq_head_iff hk).mpr rfl)]
    rfl
  | succ k =>
    rw [if_neg (fun heq => Nat.succ_ne_zero k ((h.slot_eq_head_iff hk).mp heq)),
      decrementQ_slot h (by omega)]
    exact loadScan_eq h (by omega) (by omega)

/-! ### The specification -/

/-- The store that is found is the last one to the address, and no fence follows it. -/
theorem youngestStore_unfenced_iff :
    s.youngestStore address (s.unfenced older) = some j ↔
      ∃ before between, older = before ++ j :: between ∧ s.StoreAt address j = true ∧
        ∀ b ∈ between, s.isFence b = false ∧ s.StoreAt address b = false := by
  rw [youngestStore, unfenced, List.rtakeWhile, List.reverse_reverse,
    List.find?_eq_some_iff_append]
  constructor
  · rintro ⟨hstore, between, before, hwalk, hpassed⟩
    have hsplit : between ++ j :: before ++ older.reverse.dropWhile (fun j => !s.isFence j) =
        older.reverse := by
      rw [← hwalk]
      exact List.takeWhile_append_dropWhile
    refine ⟨(older.reverse.dropWhile (fun j => !s.isFence j)).reverse ++ before.reverse,
      between.reverse, ?_, hstore, ?_⟩
    · have hback := congrArg List.reverse hsplit
      rw [List.reverse_reverse, List.reverse_append, List.reverse_append, List.reverse_cons]
        at hback
      refine hback.symm.trans ?_
      rw [List.append_assoc, List.append_assoc]
      rfl
    · intro b hb
      have hb' := List.mem_reverse.mp hb
      have hfence : b ∈ older.reverse.takeWhile (fun j => !s.isFence j) := by
        rw [hwalk]
        exact List.mem_append_left _ hb'
      have hpass := hpassed b hb'
      have hclear := List.mem_takeWhile_imp hfence
      exact ⟨by simpa using hclear, by simpa using hpass⟩
  · rintro ⟨before, between, rfl, hstore, hpassed⟩
    refine ⟨hstore, between.reverse,
      before.reverse.takeWhile (fun j => !s.isFence j), ?_, ?_⟩
    · rw [List.reverse_append, List.reverse_cons, List.append_assoc, List.singleton_append,
        List.takeWhile_append_of_pos, List.takeWhile_cons_of_pos]
      · rw [StoreAt.not_isFence hstore]
        rfl
      · intro b hb
        rw [(hpassed b (List.mem_reverse.mp hb)).1]
        rfl
    · intro b hb
      rw [(hpassed b (List.mem_reverse.mp hb)).2]
      rfl

/-- The youngest older store to the address of the load at `i` with no fence between the
two. -/
def ForwardingStore (s : LSQ) (i j : ℕ) : Prop :=
  ∃ before between younger, s.window = before ++ j :: (between ++ i :: younger) ∧
    (s.lsqueue j).type = .store ∧ (s.lsqueue j).addr = (s.lsqueue i).addr ∧
    ∀ b ∈ between, (s.lsqueue b).type ≠ .mfence ∧
      ¬ ((s.lsqueue b).type = .store ∧ (s.lsqueue b).addr = (s.lsqueue i).addr)

theorem youngestStore_of_forwardingStore (h : s.ForwardingStore i j) :
    ∃ older younger, s.window = older ++ i :: younger ∧
      s.youngestStore (s.lsqueue i).addr (s.unfenced older) = some j := by
  obtain ⟨before, between, younger, hwindow, htype, haddr, hpassed⟩ := h
  refine ⟨before ++ j :: between, younger, ?_, youngestStore_unfenced_iff.mpr
    ⟨before, between, rfl, decide_eq_true ⟨htype, haddr⟩, ?_⟩⟩
  · rw [hwindow, List.append_assoc, List.cons_append]
  · intro b hb
    exact ⟨decide_eq_false (hpassed b hb).1, decide_eq_false (hpassed b hb).2⟩

theorem forwardingStore_of_youngestStore (hsplit : s.window = older ++ i :: younger)
    (h : s.youngestStore (s.lsqueue i).addr (s.unfenced older) = some j) :
    s.ForwardingStore i j := by
  obtain ⟨before, between, rfl, hstore, hpassed⟩ := youngestStore_unfenced_iff.mp h
  obtain ⟨htype, haddr⟩ := of_decide_eq_true hstore
  refine ⟨before, between, younger, ?_, htype, haddr, ?_⟩
  · rw [hsplit, List.append_assoc, List.cons_append]
  · intro b hb
    exact ⟨of_decide_eq_false (hpassed b hb).1, of_decide_eq_false (hpassed b hb).2⟩

/-- `loadResolve` with what it does to the load and the completions it sends. The failure
is the exit "Invalid entry forwarded", or a walk that does not end. -/
def resolveLoad (s : LSQ) (executed : ℕ → Bool) (index : ℕ) :
    Option (LSQ × List ℕ × SearchStatus) :=
  let entry := s.lsqueue index
  if entry.valid = false then none
  else
    match s.loadResolve index with
    | none => none
    | some .forwarded =>
      some (s.setEntry index { entry with forwarded := true }, execComplete executed entry,
        .forwarded)
    | some status => some (s, [], status)

/-- A validation makes the load valid and asks for an issue to the cache unless a store
is found. -/
theorem loadValidate_eq (s : LSQ) (executed : ℕ → Bool) (index : ℕ) :
    s.loadValidate executed index =
      ((s.setEntry index { s.lsqueue index with valid := true }).resolveLoad executed index).map
        (fun r => (r.1, r.2.1, decide (r.2.2 = .shouldGoToL1))) := by
  have hentry : (s.setEntry index { s.lsqueue index with valid := true }).lsqueue index =
      { s.lsqueue index with valid := true } := by
    simp [setEntry]
  rw [loadValidate, resolveLoad, hentry]
  dsimp only
  rw [if_neg Bool.false_ne_true.symm]
  split <;> rename_i hresolve <;> rw [hresolve] <;> rfl

/-- In every reachable queue a valid load that has a forwarding store is served by it or
waits for it, and all others go to the cache. -/
theorem resolveLoad_meets_specification {n : ℕ} {labels : List Action} (hn : 0 < n)
    (run : Run (StepOf next) (new n) labels s) (hlive : s.Live i)
    (hvalid : (s.lsqueue i).valid = true) (executed : ℕ → Bool) :
    (∀ j, s.ForwardingStore i j → (s.lsqueue j).valid = true →
      s.resolveLoad executed i = some (s.setEntry i { s.lsqueue i with forwarded := true },
        execComplete executed (s.lsqueue i), .forwarded)) ∧
    (∀ j, s.ForwardingStore i j → (s.lsqueue j).valid = false →
      s.resolveLoad executed i = some (s, [], .canBeForwarded)) ∧
    ((¬ ∃ j, s.ForwardingStore i j) →
      s.resolveLoad executed i = some (s, [], .shouldGoToL1)) := by
  obtain ⟨f, hring⟩ := ringInvariant_run hn run
  have hresolve : ∀ {older younger : List ℕ}, s.window = older ++ i :: younger →
      s.loadResolve i = some (s.searchStatus (s.lsqueue i).addr (s.unfenced older)) :=
    fun hsplit => loadResolve_eq hring hsplit
  refine ⟨?_, ?_, ?_⟩
  · intro j hstore hjvalid
    obtain ⟨older, younger, hsplit, hyoungest⟩ := youngestStore_of_forwardingStore hstore
    have hstatus := hresolve hsplit
    rw [searchStatus, hyoungest] at hstatus
    simp only [hjvalid, if_true] at hstatus
    simp [resolveLoad, hvalid, hstatus]
  · intro j hstore hjvalid
    obtain ⟨older, younger, hsplit, hyoungest⟩ := youngestStore_of_forwardingStore hstore
    have hstatus := hresolve hsplit
    rw [searchStatus, hyoungest] at hstatus
    simp only [hjvalid, Bool.false_eq_true, if_false] at hstatus
    simp [resolveLoad, hvalid, hstatus]
  · intro hnone
    obtain ⟨older, younger, hsplit⟩ := List.append_of_mem (hring.mem_window.mpr hlive)
    have hstatus := hresolve hsplit
    cases hyoungest : s.youngestStore (s.lsqueue i).addr (s.unfenced older) with
    | some j => exact absurd ⟨j, forwardingStore_of_youngestStore hsplit hyoungest⟩ hnone
    | none =>
      rw [searchStatus, hyoungest] at hstatus
      simp [resolveLoad, hvalid, hstatus]

/-- A load in the first slot of a ring of two, behind a store in the second one. -/
theorem resolveLoad_behind_wrapped_store :
    ∃ s : LSQ, s.head = some 1 ∧ s.ForwardingStore 0 1 ∧
      s.resolveLoad (fun _ => false) 0 =
        some (s.setEntry 0 { s.lsqueue 0 with forwarded := true }, [7], .forwarded) := by
  have hrun : (exec next (new 2) [.addEntry false 8 none, .addEntry false 64 none,
      .addrValidate 0 (fun _ => false), .commit 0 (fun _ => true), .addEntry true 64 (some 7),
      .addrValidate 1 (fun _ => false), .addrValidate 0 (fun _ => false)]).any
        (fun s => s.head = some 1 ∧ s.window = [1, 0] ∧ s.Live 0 ∧
          (s.lsqueue 0).valid ∧ (s.lsqueue 1).valid ∧ (s.lsqueue 0).robEntry = some 7 ∧
          (s.lsqueue 1).type = .store ∧ (s.lsqueue 1).addr = (s.lsqueue 0).addr) = true := by
    decide
  obtain ⟨s, hexec, hs⟩ := (Option.any_eq_true _ _).mp hrun
  obtain ⟨hhead, hwindow, hlive, hvalid, hstore, hrob, htype, haddr⟩ := of_decide_eq_true hs
  have hforwarding : s.ForwardingStore 0 1 :=
    ⟨[], [], [], hwindow, htype, haddr, fun _ hb => absurd hb List.not_mem_nil⟩
  have hspec := (resolveLoad_meets_specification (by decide) (run_of_exec hexec) hlive hvalid
    (fun _ => false)).1 1 hforwarding hstore
  rw [execComplete, hrob] at hspec
  exact ⟨s, hhead, hforwarding, hspec⟩

end Tejas.LSQ
