import Tejas.LoadStoreQueueRing
import Tejas.ListSearch

/-!
# Forwarding from a store to younger loads

When the address of a store becomes valid, the queue is scanned from the entry after
the store to the tail for loads that wait for its value. A fence or a store to the
same address ends the scan. When the store is itself the tail, the scan starts past
the tail and goes round the ring, through the unused entries to the older ones.
-/

namespace Tejas.LSQ
open LabelledRuns RingWindow ListSearch

variable {s t : LSQ} {f i j k : ℕ}

/-- A fence or a store to the address ends the scan. -/
def Blocks (s : LSQ) (address : ℤ) (j : ℕ) : Bool :=
  (s.lsqueue j).type = .mfence ∨ (s.lsqueue j).type = .store ∧ (s.lsqueue j).addr = address

/-- A load that waits for the value at the address. -/
def Waits (s : LSQ) (address : ℤ) (j : ℕ) : Bool :=
  (s.lsqueue j).type = .load ∧ (s.lsqueue j).addr = address ∧ (s.lsqueue j).valid = true ∧
    (s.lsqueue j).forwarded = false

theorem blocks_eq_false_of_waits {address : ℤ} (h : s.Waits address j = true) :
    s.Blocks address j = false := by
  simp only [Waits, decide_eq_true_eq] at h
  simp [Blocks, h.1]

/-- The loads the store at `i` answers: younger, waiting for its address, with no fence
and no store to that address in between. -/
def Answers (s : LSQ) (i j : ℕ) : Prop :=
  ∃ older between rest, s.window = older ++ i :: between ++ j :: rest ∧
    s.Waits (s.lsqueue i).addr j = true ∧ ∀ m ∈ between, s.Blocks (s.lsqueue i).addr m = false

/-- The store at `i` has given its value to the loads it answers and to no others, each
completion being sent once. -/
structure ForwardsExactly (s : LSQ) (executed : ℕ → Bool) (i : ℕ) (t : LSQ)
    (sent : List ℕ) : Prop where
  forwarded : ∀ j, (t.lsqueue j).forwarded = true ↔
    (s.lsqueue j).forwarded = true ∨ s.Answers i j
  sent : ∃ loads : List ℕ, loads.Nodup ∧ (∀ j, j ∈ loads ↔ s.Answers i j) ∧
    sent = loads.flatMap (fun j => execComplete executed (s.lsqueue j))

/-- The store at `i` is the youngest entry, and going round the ring from there a load
that waits for its address comes before any fence and any store to that address. -/
def WrapsToOlder (s : LSQ) (i : ℕ) : Prop :=
  ∃ before j after, s.window = before ++ j :: (after ++ [i]) ∧
    s.Waits (s.lsqueue i).addr j = true ∧
    (∀ m ∈ before, s.Blocks (s.lsqueue i).addr m = false) ∧
    ∀ m < s.lsqSize, (s.lsqueue m).removed = true → s.Blocks (s.lsqueue i).addr m = false

/-! ### What the scan does -/

/-- The queue with the given loads marked as forwarded. -/
def forwardAll (s : LSQ) (loads : List ℕ) : LSQ :=
  { s with lsqueue := fun j =>
      if j ∈ loads then { s.lsqueue j with forwarded := true } else s.lsqueue j }

@[simp] theorem forwardAll_nil : s.forwardAll [] = s := by simp [forwardAll]

theorem forwardAll_forwarded {loads : List ℕ} :
    ((s.forwardAll loads).lsqueue j).forwarded = true ↔
      (s.lsqueue j).forwarded = true ∨ j ∈ loads := by
  simp only [forwardAll]
  split <;> simp_all

theorem forwardAll_cons {loads : List ℕ} (hj : j ∉ loads) :
    (s.setEntry j { s.lsqueue j with forwarded := true }).forwardAll loads =
      s.forwardAll (j :: loads) := by
  simp only [forwardAll, setEntry, LSQ.mk.injEq, and_true]
  funext m
  by_cases hm : m = j
  · subst hm
    simp [hj]
  · simp [hm]

/-- The queue after one turn of the scan. -/
def scanMark (s : LSQ) (address : ℤ) (j : ℕ) : LSQ :=
  if s.Waits address j then s.setEntry j { s.lsqueue j with forwarded := true } else s

theorem scanMark_size (address : ℤ) : (s.scanMark address j).lsqSize = s.lsqSize := by
  unfold scanMark
  split <;> rfl

theorem scanMark_tail (address : ℤ) : (s.scanMark address j).tail = s.tail := by
  unfold scanMark
  split <;> rfl

theorem scanMark_entry {address : ℤ} {m : ℕ} (hm : m ≠ j) :
    (s.scanMark address j).lsqueue m = s.lsqueue m := by
  unfold scanMark
  split
  · exact Function.update_of_ne hm _ _
  · rfl

/-- One turn of the scan, whatever the entry. -/
theorem storeScan_succ {executed : ℕ → Bool} {address : ℤ} {fuel : ℕ} :
    s.storeScan executed address j (fuel + 1) =
      if s.Blocks address j then some (s, [])
      else
        let sent := if s.Waits address j then execComplete executed (s.lsqueue j) else []
        if some j = s.tail then some (s.scanMark address j, sent)
        else ((s.scanMark address j).storeScan executed address (s.incrementQ j) fuel).map
          (fun r => (r.1, sent ++ r.2)) := by
  have hid : ∀ o : Option (LSQ × List ℕ), o = o.map (fun r => (r.1, [] ++ r.2)) := by simp
  rw [storeScan]
  cases htype : (s.lsqueue j).type with
  | mfence => simp [Blocks, htype]
  | store =>
    by_cases haddr : (s.lsqueue j).addr = address
    · simp [Blocks, htype, haddr]
    · simp [Blocks, Waits, scanMark, htype, haddr]
  | load =>
    by_cases hwaits : s.Waits address j = true
    · have hcond := hwaits
      simp only [Waits, htype, decide_eq_true_eq, true_and] at hcond
      simp [Blocks, scanMark, htype, hwaits, hcond, incrementQ, setEntry]
    · have hcond := hwaits
      simp only [Waits, htype, decide_eq_true_eq, true_and] at hcond
      simp [Blocks, scanMark, htype, hwaits, hcond]

theorem hits_scanMark {address : ℤ} {slots : List ℕ} (hj : j ∉ slots) :
    hitsUntil ((s.scanMark address j).Blocks address) ((s.scanMark address j).Waits address)
      slots = hitsUntil (s.Blocks address) (s.Waits address) slots := by
  refine hitsUntil_congr (fun m hm => ?_) (fun m hm => ?_)
  · have hne : m ≠ j := fun heq => hj (heq ▸ hm)
    simp only [Blocks, scanMark_entry hne]
  · have hne : m ≠ j := fun heq => hj (heq ▸ hm)
    simp only [Waits, scanMark_entry hne]

/-- The scan collects the waiting loads from its start to the tail or to the first entry
that ends it. -/
theorem storeScan_eq (executed : ℕ → Bool) (address : ℤ) (m fuel : ℕ)
    (htail : s.tail = some (slot s.lsqSize f (k + m))) (hm : m < s.lsqSize) (hfuel : m < fuel) :
    s.storeScan executed address (slot s.lsqSize f k) fuel =
      some (s.forwardAll (hitsUntil (s.Blocks address) (s.Waits address)
          (slotsFrom s.lsqSize f k (m + 1))),
        (hitsUntil (s.Blocks address) (s.Waits address)
          (slotsFrom s.lsqSize f k (m + 1))).flatMap
            (fun j => execComplete executed (s.lsqueue j))) := by
  induction m generalizing s k fuel with
  | zero =>
    obtain ⟨fuel, rfl⟩ := Nat.exists_eq_succ_of_ne_zero (by omega : fuel ≠ 0)
    rw [storeScan_succ, slotsFrom_succ, htail]
    cases hblocks : s.Blocks address (slot s.lsqSize f k) with
    | true => simp [hitsUntil_cons_stop hblocks]
    | false =>
      cases hwaits : s.Waits address (slot s.lsqSize f k) with
      | true =>
        rw [hitsUntil_cons_hit hblocks hwaits]
        simp [slotsFrom, scanMark, hwaits, ← forwardAll_cons]
      | false =>
        rw [hitsUntil_cons_pass hblocks hwaits]
        simp [slotsFrom, scanMark, hwaits]
  | succ m ih =>
    obtain ⟨fuel, rfl⟩ := Nat.exists_eq_succ_of_ne_zero (by omega : fuel ≠ 0)
    have hne : ¬ some (slot s.lsqSize f k) = s.tail := by
      rw [htail, Option.some_inj]
      intro heq
      have := slot_inj_of_le (by omega) (by omega) heq
      omega
    have hnot : slot s.lsqSize f k ∉ slotsFrom s.lsqSize f (k + 1) (m + 1) := by
      have hnodup : (slotsFrom s.lsqSize f k (m + 2)).Nodup := slotsFrom_nodup (by omega)
      rw [slotsFrom_succ] at hnodup
      exact (List.nodup_cons.mp hnodup).1
    rw [storeScan_succ, if_neg hne, slotsFrom_succ]
    cases hblocks : s.Blocks address (slot s.lsqSize f k) with
    | true => simp [hitsUntil_cons_stop hblocks]
    | false =>
      have hrest := ih (s := s.scanMark address (slot s.lsqSize f k)) (k := k + 1) fuel
        (by rw [scanMark_tail, scanMark_size, htail]; congr 2; omega)
        (by rw [scanMark_size]; omega) (by omega)
      rw [scanMark_size, hits_scanMark hnot] at hrest
      have hsub : hitsUntil (s.Blocks address) (s.Waits address)
          (slotsFrom s.lsqSize f (k + 1) (m + 1)) ⊆ slotsFrom s.lsqSize f (k + 1) (m + 1) :=
        hitsUntil_subset
      have hsent : ∀ j ∈ hitsUntil (s.Blocks address) (s.Waits address)
          (slotsFrom s.lsqSize f (k + 1) (m + 1)),
          execComplete executed ((s.scanMark address (slot s.lsqSize f k)).lsqueue j) =
            execComplete executed (s.lsqueue j) := by
        intro j hj
        have hjk : j ≠ slot s.lsqSize f k := fun heq => hnot (heq ▸ hsub hj)
        rw [scanMark_entry hjk]
      rw [incrementQ, slot_next, hrest, List.flatMap_congr hsent]
      cases hwaits : s.Waits address (slot s.lsqSize f k) with
      | true =>
        rw [hitsUntil_cons_hit hblocks hwaits, ← forwardAll_cons (fun hj => hnot (hsub hj))]
        simp [scanMark, hwaits]
      | false =>
        rw [hitsUntil_cons_pass hblocks hwaits]
        simp [scanMark, hwaits]

/-! ### Where the scan goes -/

/-- The slots the scan of the store at `i` passes if nothing ends it. -/
inductive ScanPath (s : LSQ) (i : ℕ) : List ℕ → Prop
  | younger {older younger : List ℕ} (hwindow : s.window = older ++ i :: younger)
      (hyounger : younger ≠ []) : ScanPath s i younger
  | round {older unused : List ℕ} (hwindow : s.window = older ++ [i])
      (hunused : ∀ m, m ∈ unused ↔ m < s.lsqSize ∧ (s.lsqueue m).removed = true) :
      ScanPath s i (unused ++ older ++ [i])

/-- The queue once the address of the entry is valid. -/
def validated (s : LSQ) (i : ℕ) : LSQ := s.setEntry i { s.lsqueue i with valid := true }

theorem validated_entry (hj : j ≠ i) : (s.validated i).lsqueue j = s.lsqueue j :=
  Function.update_of_ne hj _ _

theorem validated_self : (s.validated i).lsqueue i = { s.lsqueue i with valid := true } :=
  Function.update_self _ _ _

section Validated

variable (hstore : (s.lsqueue i).type = .store)
include hstore

theorem blocks_validated :
    (s.validated i).Blocks = s.Blocks := by
  funext address j
  by_cases hj : j = i
  · subst hj
    simp [Blocks, validated_self]
  · simp [Blocks, validated_entry hj]

theorem waits_validated :
    (s.validated i).Waits = s.Waits := by
  funext address j
  by_cases hj : j = i
  · subst hj
    simp [Waits, validated_self, hstore]
  · simp [Waits, validated_entry hj]

theorem storeValidate_eq (executed : ℕ → Bool) (hring : s.RingAt f) (hlive : s.Live i) :
    ∃ path, s.ScanPath i path ∧ path.Nodup ∧
      s.storeValidate executed i =
        some ((s.validated i).forwardAll
            (hitsUntil (s.Blocks (s.lsqueue i).addr) (s.Waits (s.lsqueue i).addr) path),
          (hitsUntil (s.Blocks (s.lsqueue i).addr) (s.Waits (s.lsqueue i).addr) path).flatMap
            (fun j => execComplete executed (s.lsqueue j))) := by
  obtain ⟨p, hp, hpi⟩ := hring.exists_position hlive
  have hcur : 0 < s.curSize := by omega
  have hsize := hring.cur_le
  have htail : s.tail = some (slot s.lsqSize f (s.curSize - 1)) := by
    simp [hring.tail_eq, Nat.ne_of_gt hcur]
  have hwindow : s.window = slotsFrom s.lsqSize f 0 p ++
      i :: slotsFrom s.lsqSize f (p + 1) (s.curSize - (p + 1)) := by
    have hsum : s.curSize = p + (s.curSize - (p + 1) + 1) := by omega
    rw [hring.window_eq]
    conv_lhs => rw [hsum]
    rw [slotsFrom_add, slotsFrom_succ, Nat.zero_add, hpi]
  have hstart : incrementQ s i = slot s.lsqSize f (p + 1) := by
    rw [incrementQ, ← hpi, slot_next]
  have hsent : ∀ j, execComplete executed
      ((s.validated i).lsqueue j) =
        execComplete executed (s.lsqueue j) := by
    intro j
    by_cases hj : j = i
    · subst hj
      simp [execComplete, validated_self]
    · rw [validated_entry hj]
  -- the scan runs over `m + 1` slots from position `p + 1` on
  have hscan : ∀ m < s.lsqSize, s.tail = some (slot s.lsqSize f (p + 1 + m)) →
      s.storeValidate executed i =
        some ((s.validated i).forwardAll
            (hitsUntil (s.Blocks (s.lsqueue i).addr) (s.Waits (s.lsqueue i).addr)
              (slotsFrom s.lsqSize f (p + 1) (m + 1))),
          (hitsUntil (s.Blocks (s.lsqueue i).addr) (s.Waits (s.lsqueue i).addr)
            (slotsFrom s.lsqSize f (p + 1) (m + 1))).flatMap
              (fun j => execComplete executed (s.lsqueue j))) := by
    intro m hm htail
    have heq := storeScan_eq (s := s.validated i) executed (s.lsqueue i).addr m s.lsqSize
      htail hm hm
    rw [blocks_validated hstore, waits_validated hstore, List.flatMap_congr (fun j _ => hsent j)]
      at heq
    have haddr : ((s.validated i).lsqueue i).addr = (s.lsqueue i).addr := by
      rw [validated_self]
    change (s.validated i).storeScan executed ((s.validated i).lsqueue i).addr
      (incrementQ s i) s.lsqSize = _
    rw [haddr, hstart]
    exact heq
  rcases Nat.lt_or_ge (p + 1) s.curSize with hlt | hge
  · refine ⟨_, .younger hwindow ?_, slotsFrom_nodup (by omega), ?_⟩
    · intro hnil
      have hlen := congrArg List.length hnil
      simp [slotsFrom] at hlen
      omega
    · have hm := hscan (s.curSize - (p + 1) - 1) (by omega) (by rw [htail]; congr 2; omega)
      have hlen : s.curSize - (p + 1) - 1 + 1 = s.curSize - (p + 1) := by omega
      rwa [hlen] at hm
  · have hp1 : p + 1 = s.curSize := by omega
    have hlast : slotsFrom s.lsqSize f (p + 1) (s.curSize - (p + 1)) = [] := by
      simp [slotsFrom, hp1]
    rw [hlast] at hwindow
    -- the turn of the ring: the unused slots, the older entries and the store
    have hround : slotsFrom s.lsqSize f (p + 1) (s.lsqSize - 1 + 1) =
        slotsFrom s.lsqSize f s.curSize (s.lsqSize - s.curSize) ++
          slotsFrom s.lsqSize f 0 p ++ [i] := by
      have hsum : s.lsqSize - 1 + 1 = s.lsqSize - s.curSize + (p + 1) := by omega
      have hpos : s.curSize + (s.lsqSize - s.curSize) = 0 + s.lsqSize := by omega
      rw [hp1, hsum, slotsFrom_add, hpos, slotsFrom_add_size, slotsFrom_add, Nat.zero_add]
      simp [slotsFrom, hpi]
    refine ⟨slotsFrom s.lsqSize f (p + 1) (s.lsqSize - 1 + 1), ?_, slotsFrom_nodup (by omega),
      hscan (s.lsqSize - 1) (by omega) ?_⟩
    · rw [hround]
      refine .round hwindow (fun m => ?_)
      rw [mem_slotsFrom]
      constructor
      · rintro ⟨d, hd, rfl⟩
        have hfree := hring.live_iff (s.curSize + d) (by omega)
        refine ⟨slot_lt hring.size_pos _ _, ?_⟩
        by_contra hlive
        have := hfree.mp (by simpa using hlive)
        omega
      · rintro ⟨hm, hremoved⟩
        obtain ⟨k, hk, rfl⟩ := exists_slot hm hring.first_lt
        have hfree := hring.live_iff k hk
        rw [hremoved] at hfree
        simp only [Bool.true_eq_false, false_iff, Nat.not_lt] at hfree
        exact ⟨k - s.curSize, by omega, by congr 1; omega⟩
    · have hturn : p + 1 + (s.lsqSize - 1) = s.curSize - 1 + s.lsqSize := by omega
      rw [htail, hturn, slot_add_size]

end Validated

/-! ### When the store answers the right loads -/

theorem mem_hits {path : List ℕ} {address : ℤ} :
    j ∈ hitsUntil (s.Blocks address) (s.Waits address) path ↔
      ∃ before after, path = before ++ j :: after ∧ s.Waits address j = true ∧
        ∀ m ∈ before, s.Blocks address m = false :=
  mem_hitsUntil (fun _ => blocks_eq_false_of_waits)

/-- A store with younger entries answers the waiting loads the scan finds. -/
theorem answers_iff {older younger : List ℕ} (hnodup : s.window.Nodup)
    (hwindow : s.window = older ++ i :: younger) :
    s.Answers i j ↔
      j ∈ hitsUntil (s.Blocks (s.lsqueue i).addr) (s.Waits (s.lsqueue i).addr) younger := by
  rw [mem_hits]
  constructor
  · rintro ⟨older', between, rest, hsplit, hwaits, hclear⟩
    rw [hwindow] at hnodup hsplit
    rw [List.append_assoc, List.cons_append] at hsplit
    obtain ⟨rfl, rfl⟩ := split_unique hnodup hsplit
    exact ⟨between, rest, rfl, hwaits, hclear⟩
  · rintro ⟨between, rest, rfl, hwaits, hclear⟩
    exact ⟨older, between, rest, by simp [hwindow], hwaits, hclear⟩

/-- Round the ring the scan finds loads exactly when it wraps to an older one. -/
theorem round_hits_eq_nil_iff {older unused : List ℕ} (hring : s.RingAt f)
    (hstore : (s.lsqueue i).type = .store) (hwindow : s.window = older ++ [i])
    (hunused : ∀ m, m ∈ unused ↔ m < s.lsqSize ∧ (s.lsqueue m).removed = true) :
    hitsUntil (s.Blocks (s.lsqueue i).addr) (s.Waits (s.lsqueue i).addr)
      (unused ++ older ++ [i]) = [] ↔ ¬ s.WrapsToOlder i := by
  have hself : s.Waits (s.lsqueue i).addr i = false := by simp [Waits, hstore]
  have hstale : ∀ m ∈ unused, s.Waits (s.lsqueue i).addr m = false := by
    intro m hm
    by_contra hwaits
    simp only [Waits, Bool.not_eq_false, decide_eq_true_eq] at hwaits
    obtain ⟨htype, -, hvalid, hforwarded⟩ := hwaits
    have hvalue := hring.stale m ((hunused m).mp hm).2 htype hvalid
    simp [hvalue] at hforwarded
  rw [List.eq_nil_iff_forall_not_mem, ← not_exists, not_iff_not]
  constructor
  · rintro ⟨j, hj⟩
    obtain ⟨before, after, heq, hwaits, hclear⟩ := mem_hits.mp hj
    -- the unused slots hold no waiting load, so the scan has passed them all
    have hpassed : ∃ passed, before = unused ++ passed ∧ older ++ [i] = passed ++ j :: after := by
      rw [List.append_assoc, List.append_eq_append_iff] at heq
      rcases heq with hpassed | ⟨left, hunusedeq, hrest⟩
      · exact hpassed
      · cases left with
        | nil => exact ⟨[], by simpa using hunusedeq.symm, by simpa using hrest.symm⟩
        | cons y left =>
          obtain ⟨rfl, -⟩ := List.cons.inj hrest
          simp [hstale j (by simp [hunusedeq])] at hwaits
    obtain ⟨passed, hbefore, hrest⟩ := hpassed
    rcases List.eq_nil_or_concat after with rfl | ⟨after', last, rfl⟩
    · obtain ⟨-, hlast⟩ := List.append_inj' hrest rfl
      cases hlast
      simp [hself] at hwaits
    · have hrest' : older ++ [i] = (passed ++ j :: after') ++ [last] := by simpa using hrest
      obtain ⟨rfl, -⟩ := List.append_inj' hrest' rfl
      refine ⟨passed, j, after', by simp [hwindow], hwaits, fun m hm => ?_, fun m hm hr => ?_⟩
      · exact hclear m (by simp [hbefore, hm])
      · exact hclear m (by simp [hbefore, (hunused m).mpr ⟨hm, hr⟩])
  · rintro ⟨before, j, after, hsplit, hwaits, hclear, hfree⟩
    have holder : older = before ++ j :: after := by
      have heq : older ++ [i] = (before ++ j :: after) ++ [i] := by
        rw [← hwindow, hsplit]
        simp
      exact (List.append_inj' heq rfl).1
    refine ⟨j, mem_hits.mpr ⟨unused ++ before, after ++ [i], by simp [holder], hwaits, ?_⟩⟩
    intro m hm
    rcases List.mem_append.mp hm with hm | hm
    · obtain ⟨hlt, hr⟩ := (hunused m).mp hm
      exact hfree m hlt hr
    · exact hclear m hm

/-- The youngest store answers no load. -/
theorem not_answers_of_youngest {older : List ℕ} (hnodup : s.window.Nodup)
    (hwindow : s.window = older ++ [i]) : ¬ s.Answers i j := by
  rw [answers_iff hnodup hwindow]
  simp

/-- A store with younger entries does not go round the ring. -/
theorem not_wraps_of_younger {older younger : List ℕ} (hnodup : s.window.Nodup)
    (hwindow : s.window = older ++ i :: younger) (hyounger : younger ≠ []) :
    ¬ s.WrapsToOlder i := by
  rintro ⟨before, j, after, hsplit, -⟩
  have heq : older ++ i :: younger = (before ++ j :: after) ++ i :: [] := by
    rw [← hwindow, hsplit]
    simp
  rw [hwindow] at hnodup
  exact hyounger (split_unique hnodup heq).2

/-- In every reachable queue a store that becomes valid answers the right loads exactly
when it does not go round the ring to an older one. -/
theorem storeValidate_forwardsExactly_iff {n : ℕ} {labels : List Action} (hn : 0 < n)
    (run : Run (StepOf next) (new n) labels s) (hlive : s.Live i)
    (hstore : (s.lsqueue i).type = .store) (executed : ℕ → Bool) :
    (∃ t sent, s.storeValidate executed i = some (t, sent) ∧ s.ForwardsExactly executed i t sent) ↔
      ¬ s.WrapsToOlder i := by
  obtain ⟨f, hring⟩ := ringInvariant_run hn run
  obtain ⟨path, hpath, hnodup, heq⟩ := storeValidate_eq hstore executed hring hlive
  have hself : ∀ j, ((s.validated i).lsqueue j).forwarded = (s.lsqueue j).forwarded := by
    intro j
    by_cases hj : j = i
    · subst hj
      simp [validated_self]
    · rw [validated_entry hj]
  cases hpath with
  | younger hwindow hyounger =>
    refine ⟨fun _ => not_wraps_of_younger hring.window_nodup hwindow hyounger, fun _ => ?_⟩
    refine ⟨_, _, heq, ⟨fun j => ?_, ⟨_, hitsUntil_nodup hnodup, fun j => ?_, rfl⟩⟩⟩
    · rw [forwardAll_forwarded, hself, answers_iff hring.window_nodup hwindow]
    · rw [answers_iff hring.window_nodup hwindow]
  | round hwindow hunused =>
    rw [← round_hits_eq_nil_iff hring hstore hwindow hunused]
    have hnone : ∀ j, ¬ s.Answers i j := fun j =>
      not_answers_of_youngest hring.window_nodup hwindow
    constructor
    · rintro ⟨t, sent, ht, hexact⟩
      rw [heq] at ht
      cases ht
      rw [List.eq_nil_iff_forall_not_mem]
      intro j hj
      -- a load found there was waiting, and the store does not answer it
      have hforwarded := (hexact.forwarded j).mp (forwardAll_forwarded.mpr (Or.inr hj))
      obtain ⟨-, -, -, hwaits, -⟩ := mem_hits.mp hj
      simp only [Waits, decide_eq_true_eq] at hwaits
      simp [hwaits, hnone j] at hforwarded
    · intro hnil
      rw [hnil] at heq
      refine ⟨_, _, heq, ⟨fun j => ?_, ⟨[], List.nodup_nil, fun j => ?_, rfl⟩⟩⟩
      · rw [forwardAll_nil, hself]
        simp [hnone j]
      · simp [hnone j]

/-- A load and a younger store to another address: the store answers no load. -/
theorem storeValidate_forwardsExactly_iff_two :
    ∃ s t sent, Run (StepOf next) (new 2) [.addEntry true 4 none, .addEntry false 8 none] s ∧
      s.storeValidate (fun _ => false) 1 = some (t, sent) ∧
      s.ForwardsExactly (fun _ => false) 1 t sent := by
  have hrun : ((exec next (new 2) [.addEntry true 4 none, .addEntry false 8 none]).map
      (fun s => (s.lsqSize, s.window, s.lsqueue 0, s.lsqueue 1))) =
        some (2, [0, 1], .recycled .load none 4 0, .recycled .store none 8 0) := by decide
  obtain ⟨s, hs, heq⟩ := Option.map_eq_some_iff.mp hrun
  simp only [Prod.mk.injEq] at heq
  obtain ⟨hsize, hwindow, hzero, hone⟩ := heq
  have hwraps : ¬ s.WrapsToOlder 1 := by
    rintro ⟨before, j, after, hsplit, hwaits, -⟩
    have hj : j ∈ [0, 1] := by rw [← hwindow, hsplit]; simp
    simp only [List.mem_cons, List.not_mem_nil, or_false] at hj
    rcases hj with rfl | rfl <;> simp [Waits, hzero, hone, LSQEntry.recycled] at hwaits
  obtain ⟨t, sent, ht, hexact⟩ := (storeValidate_forwardsExactly_iff (by decide)
    (run_of_exec hs) (i := 1) ⟨by omega, by simp [hone, LSQEntry.recycled]⟩
    (by simp [hone, LSQEntry.recycled]) (fun _ => false)).mpr hwraps
  exact ⟨s, t, sent, run_of_exec hs, ht, hexact⟩

/-- A load waits for the address of the store allocated after it, the youngest entry of a
queue of two. When the store becomes valid the older load is completed. -/
theorem older_load_completed :
    ¬ ∀ n labels s i executed, 0 < n → Run (StepOf next) (new n) labels s → s.Live i →
      (s.lsqueue i).type = .store → (s.lsqueue i).valid = false →
      ∃ t sent, s.storeValidate executed i = some (t, sent) ∧
        s.ForwardsExactly executed i t sent := by
  intro hall
  have hrun : ((exec next (new 2) [.addEntry true 8 (some 0), .addEntry false 8 (some 1),
      .addrValidate 0 (fun _ => false)]).map
      (fun s => (s.lsqSize, s.window, s.lsqueue 0, s.lsqueue 1,
        (s.storeValidate (fun _ => false) 1).map Prod.snd))) =
      some (2, [0, 1], { LSQEntry.recycled .load (some 0) 8 0 with valid := true },
        .recycled .store (some 1) 8 0, some [0]) := by decide
  obtain ⟨s, hs, heq⟩ := Option.map_eq_some_iff.mp hrun
  simp only [Prod.mk.injEq] at heq
  obtain ⟨hsize, hwindow, hzero, hone, hsent⟩ := heq
  obtain ⟨t, sent, ht, hexact⟩ := hall 2 _ s 1 (fun _ => false) (by decide) (run_of_exec hs)
    ⟨by omega, by simp [hone, LSQEntry.recycled]⟩ (by simp [hone, LSQEntry.recycled])
    (by simp [hone, LSQEntry.recycled])
  rw [ht, Option.map_some, Option.some_inj] at hsent
  simp only at hsent
  obtain ⟨loads, -, hloads, hflat⟩ := hexact.sent
  cases loads with
  | nil => simp [hsent] at hflat
  | cons j loads =>
    obtain ⟨older, between, rest, hsplit, -⟩ := (hloads j).mp List.mem_cons_self
    -- the store is the last of the two entries
    have hlen := congrArg List.length (hwindow.symm.trans hsplit)
    cases older with
    | nil => simp [hwindow] at hsplit
    | cons x older => simp at hlen; omega

end Tejas.LSQ
