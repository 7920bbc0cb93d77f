import Tejas.LoadStoreQueue
import Mathlib.Data.List.Nodup

/-!
# The window of the load-store queue

The entries in use are the `curSize` slots from the head on, oldest first. Every
operation keeps this: an allocation adds the slot after the tail, a commit takes
the head away, and all others change flags only.
-/

namespace Tejas.LSQ
open LabelledRuns RingWindow

variable {s t : LSQ} {f i k : ℕ}

/-- The slots in use in the order of their allocation, oldest first. -/
def window (s : LSQ) : List ℕ :=
  slotsFrom s.lsqSize (s.head.getD 0) 0 s.curSize

/-- The entries in use are the `curSize` slots from `f` on, and a load that has left the
queue with a valid address has its value. -/
structure RingAt (s : LSQ) (f : ℕ) : Prop where
  size_pos : 0 < s.lsqSize
  first_lt : f < s.lsqSize
  cur_le : s.curSize ≤ s.lsqSize
  head_eq : s.head = if s.curSize = 0 then none else some f
  tail_eq : s.tail = if s.curSize = 0 then none else some (slot s.lsqSize f (s.curSize - 1))
  live_iff : ∀ k < s.lsqSize,
    ((s.lsqueue (slot s.lsqSize f k)).removed = false ↔ k < s.curSize)
  stale : ∀ i, (s.lsqueue i).removed = true → (s.lsqueue i).type = .load →
    (s.lsqueue i).valid = true → (s.lsqueue i).forwarded = true

/-- The queue is laid out from some slot. -/
def RingInvariant (s : LSQ) : Prop := ∃ f, s.RingAt f

theorem ringAt_new {n : ℕ} (hn : 0 < n) : (new n).RingAt 0 where
  size_pos := hn
  first_lt := hn
  cur_le := Nat.zero_le n
  head_eq := rfl
  tail_eq := rfl
  live_iff := by simp [new, LSQEntry.unused]
  stale := by simp [new, LSQEntry.unused]

namespace RingAt

theorem head_getD (h : s.RingAt f) (hcur : 0 < s.curSize) : s.head.getD 0 = f := by
  simp [h.head_eq, Nat.ne_of_gt hcur]

theorem tail_getD (h : s.RingAt f) (hcur : 0 < s.curSize) :
    s.tail.getD 0 = slot s.lsqSize f (s.curSize - 1) := by
  simp [h.tail_eq, Nat.ne_of_gt hcur]

theorem after_tail (h : s.RingAt f) (hcur : 0 < s.curSize) :
    (s.tail.getD 0 + 1) % s.lsqSize = slot s.lsqSize f s.curSize := by
  rw [h.tail_getD hcur, slot_next]
  congr 1
  omega

theorem window_eq (h : s.RingAt f) : s.window = slotsFrom s.lsqSize f 0 s.curSize := by
  rcases Nat.eq_zero_or_pos s.curSize with hcur | hcur
  · simp [window, hcur, slotsFrom]
  · rw [window, h.head_getD hcur]

theorem mem_window (h : s.RingAt f) : i ∈ s.window ↔ s.Live i := by
  rw [h.window_eq, Live]
  constructor
  · intro hi
    obtain ⟨k, hk, rfl⟩ := mem_slotsFrom.mp hi
    have hsize := h.cur_le
    rw [Nat.zero_add]
    exact ⟨slot_lt h.size_pos f k, (h.live_iff k (by omega)).mpr hk⟩
  · rintro ⟨hi, hlive⟩
    obtain ⟨k, hk, rfl⟩ := exists_slot hi h.first_lt
    exact mem_slotsFrom.mpr ⟨k, (h.live_iff k hk).mp hlive, by rw [Nat.zero_add]⟩

theorem exists_position (h : s.RingAt f) (hi : s.Live i) :
    ∃ k < s.curSize, slot s.lsqSize f k = i := by
  have hmem := h.mem_window.mpr hi
  rw [h.window_eq, mem_slotsFrom] at hmem
  simpa using hmem

/-- An empty queue is laid out from any slot. -/
theorem of_empty (h : s.RingAt f) (hcur : s.curSize = 0) {f' : ℕ} (hf' : f' < s.lsqSize) :
    s.RingAt f' where
  size_pos := h.size_pos
  first_lt := hf'
  cur_le := h.cur_le
  head_eq := by simp [h.head_eq, hcur]
  tail_eq := by simp [h.tail_eq, hcur]
  live_iff := by
    intro k hk
    obtain ⟨j, hj, hjk⟩ := exists_slot (slot_lt h.size_pos f' k) h.first_lt
    have hlive := h.live_iff j hj
    rw [hjk] at hlive
    simpa [hcur] using hlive
  stale := h.stale

end RingAt

/-- Only the flags of entries have changed, and no load that has left the queue has lost
its value. -/
structure OnlyFlags (s t : LSQ) : Prop where
  size : t.lsqSize = s.lsqSize
  cur : t.curSize = s.curSize
  head : t.head = s.head
  tail : t.tail = s.tail
  type : ∀ i, (t.lsqueue i).type = (s.lsqueue i).type
  removed : ∀ i, (t.lsqueue i).removed = (s.lsqueue i).removed
  valid : ∀ i, (t.lsqueue i).valid = true →
    (s.lsqueue i).valid = true ∨ (s.lsqueue i).removed = false
  stillValid : ∀ i, (s.lsqueue i).valid = true → (t.lsqueue i).valid = true
  forwarded : ∀ i, (s.lsqueue i).forwarded = true → (t.lsqueue i).forwarded = true

/-- The fences and their counts are as they were. -/
structure SameFences (s t : LSQ) : Prop where
  count : t.mfenceCount = s.mfenceCount
  deps : ∀ i, (t.lsqueue i).mfenceDependencies = (s.lsqueue i).mfenceDependencies

theorem OnlyFlags.rfl : OnlyFlags s s := by
  constructor <;> simp +contextual

theorem SameFences.rfl : SameFences s s := ⟨Eq.refl _, fun _ => Eq.refl _⟩

theorem OnlyFlags.trans {u : LSQ} (h : OnlyFlags s t) (h' : OnlyFlags t u) : OnlyFlags s u where
  size := h'.size.trans h.size
  cur := h'.cur.trans h.cur
  head := h'.head.trans h.head
  tail := h'.tail.trans h.tail
  type i := (h'.type i).trans (h.type i)
  removed i := (h'.removed i).trans (h.removed i)
  valid i hi := by
    rcases h'.valid i hi with hv | hr
    · exact h.valid i hv
    · exact Or.inr (h.removed i ▸ hr)
  stillValid i hi := h'.stillValid i (h.stillValid i hi)
  forwarded i hi := h'.forwarded i (h.forwarded i hi)

theorem SameFences.trans {u : LSQ} (h : SameFences s t) (h' : SameFences t u) : SameFences s u :=
  ⟨h'.count.trans h.count, fun i => (h'.deps i).trans (h.deps i)⟩

theorem RingAt.of_onlyFlags (h : s.RingAt f) (hst : OnlyFlags s t) : t.RingAt f where
  size_pos := hst.size ▸ h.size_pos
  first_lt := hst.size ▸ h.first_lt
  cur_le := by rw [hst.size, hst.cur]; exact h.cur_le
  head_eq := by rw [hst.head, hst.cur]; exact h.head_eq
  tail_eq := by rw [hst.tail, hst.cur, hst.size]; exact h.tail_eq
  live_iff k hk := by
    rw [hst.removed, hst.size, hst.cur]
    exact h.live_iff k (hst.size ▸ hk)
  stale i hr ht hv := by
    rw [hst.removed] at hr
    rw [hst.type] at ht
    rcases hst.valid i hv with hv | hlive
    · exact hst.forwarded i (h.stale i hr ht hv)
    · simp [hr] at hlive

theorem OnlyFlags.window (hst : OnlyFlags s t) : t.window = s.window := by
  simp only [LSQ.window, hst.size, hst.cur, hst.head]

/-! ### Operations that change flags only -/

/-- Setting flags of one entry that keeps its place. -/
theorem onlyFlags_setEntry {e : LSQEntry} (htype : e.type = (s.lsqueue i).type)
    (hremoved : e.removed = (s.lsqueue i).removed)
    (hvalid : e.valid = true → (s.lsqueue i).valid = true ∨ (s.lsqueue i).removed = false)
    (hstill : (s.lsqueue i).valid = true → e.valid = true)
    (hforwarded : (s.lsqueue i).forwarded = true → e.forwarded = true) :
    OnlyFlags s (s.setEntry i e) where
  size := rfl
  cur := rfl
  head := rfl
  tail := rfl
  type j := by by_cases hj : j = i <;> simp [setEntry, hj, htype]
  removed j := by by_cases hj : j = i <;> simp [setEntry, hj, hremoved]
  valid j := by
    by_cases hj : j = i
    · subst hj
      simpa [setEntry] using hvalid
    · simp +contextual [setEntry, hj]
  stillValid j := by
    by_cases hj : j = i
    · subst hj
      simpa [setEntry] using hstill
    · simp [setEntry, hj]
  forwarded j := by
    by_cases hj : j = i
    · subst hj
      simpa [setEntry] using hforwarded
    · simp [setEntry, hj]

theorem sameFences_setEntry {e : LSQEntry}
    (hdeps : e.mfenceDependencies = (s.lsqueue i).mfenceDependencies) :
    SameFences s (s.setEntry i e) where
  count := rfl
  deps j := by by_cases hj : j = i <;> simp [setEntry, hj, hdeps]

theorem onlyFlags_forward :
    OnlyFlags s (s.setEntry i { s.lsqueue i with forwarded := true }) :=
  onlyFlags_setEntry rfl rfl Or.inl id (fun _ => rfl)

theorem onlyFlags_validate (hi : s.Live i) :
    OnlyFlags s (s.setEntry i { s.lsqueue i with valid := true }) :=
  onlyFlags_setEntry rfl rfl (fun _ => Or.inr hi.2) (fun _ => rfl) id

theorem sameFences_validate :
    SameFences s (s.setEntry i { s.lsqueue i with valid := true }) :=
  sameFences_setEntry rfl

theorem storeScan_flags {executed : ℕ → Bool} {address : ℤ} {fuel : ℕ} {sent : List ℕ}
    (h : s.storeScan executed address i fuel = some (t, sent)) :
    OnlyFlags s t ∧ SameFences s t := by
  induction fuel generalizing s i sent with
  | zero => simp [storeScan] at h
  | succ fuel ih =>
    rw [storeScan] at h
    simp only at h
    split at h
    · cases h
      exact ⟨.rfl, .rfl⟩
    · split at h
      · -- a load: the entry may be marked before the scan goes on
        generalize hs' : (if (s.lsqueue i).addr = address ∧ (s.lsqueue i).valid = true ∧
          (s.lsqueue i).forwarded = false
          then s.setEntry i { s.lsqueue i with forwarded := true } else s) = s' at h
        have hmark : OnlyFlags s s' ∧ SameFences s s' := by
          subst hs'
          split
          · exact ⟨onlyFlags_forward, sameFences_setEntry rfl⟩
          · exact ⟨.rfl, .rfl⟩
        split at h
        · cases h
          exact hmark
        · obtain ⟨⟨u, sent'⟩, hu, heq⟩ := Option.map_eq_some_iff.mp h
          cases heq
          have hrest := ih hu
          exact ⟨hmark.1.trans hrest.1, hmark.2.trans hrest.2⟩
      · split at h
        · cases h
          exact ⟨.rfl, .rfl⟩
        · split at h
          · cases h
            exact ⟨.rfl, .rfl⟩
          · exact ih h

theorem responseScan_flags (executed : ℕ → Bool) (address : ℤ) (left : ℕ) :
    OnlyFlags s (s.responseScan executed address i left).1 ∧
      SameFences s (s.responseScan executed address i left).1 := by
  induction left generalizing s i with
  | zero => exact ⟨.rfl, .rfl⟩
  | succ left ih =>
    rw [responseScan]
    simp only
    split
    · exact ⟨.rfl, .rfl⟩
    · generalize hs' : (if (s.lsqueue i).type = .load ∧ (s.lsqueue i).removed = false ∧
        (s.lsqueue i).forwarded = false ∧ (s.lsqueue i).addr = address ∧
        (s.lsqueue i).valid = true
        then s.setEntry i { s.lsqueue i with forwarded := true } else s) = s'
      have hmark : OnlyFlags s s' ∧ SameFences s s' := by
        subst hs'
        split
        · exact ⟨onlyFlags_forward, sameFences_setEntry rfl⟩
        · exact ⟨.rfl, .rfl⟩
      have hrest := ih (s := s') (i := (i + 1) % s.lsqSize)
      exact ⟨hmark.1.trans hrest.1, hmark.2.trans hrest.2⟩

theorem loadValidate_flags {executed : ℕ → Bool} {r : LSQ × List ℕ × Bool} (hi : s.Live i)
    (h : s.loadValidate executed i = some r) : OnlyFlags s r.1 ∧ SameFences s r.1 := by
  have hset := onlyFlags_validate hi
  have hfence := sameFences_validate (s := s) (i := i)
  rw [loadValidate] at h
  simp only at h
  split at h
  · cases h
  · cases h
    refine ⟨hset.trans (onlyFlags_setEntry ?_ ?_ ?_ ?_ ?_),
      hfence.trans (sameFences_setEntry ?_)⟩ <;>
      simp [setEntry]
  · cases h
    exact ⟨hset, hfence⟩
  · cases h
    exact ⟨hset, hfence⟩

theorem handleAddrValidate_flags {executed : ℕ → Bool} {r : LSQ × List ℕ × Bool}
    (hi : s.Live i) (h : s.handleAddrValidate executed i = some r) :
    OnlyFlags s r.1 ∧ SameFences s r.1 := by
  rw [handleAddrValidate] at h
  split at h
  · exact loadValidate_flags hi h
  · obtain ⟨⟨u, sent⟩, hu, rfl⟩ := Option.map_eq_some_iff.mp h
    have hscan := storeScan_flags (by simpa [storeValidate, storeResolve] using hu)
    exact ⟨(onlyFlags_validate hi).trans hscan.1, sameFences_validate.trans hscan.2⟩
  · cases h
    exact ⟨onlyFlags_validate hi, sameFences_validate⟩

theorem l1Issued_flags : OnlyFlags s (s.l1Issued i) ∧ SameFences s (s.l1Issued i) :=
  ⟨onlyFlags_setEntry rfl rfl Or.inl id id, sameFences_setEntry rfl⟩

/-! ### Allocation -/

/-- The queue with one more entry after its window. -/
def pushed (s : LSQ) (f : ℕ) (e : LSQEntry) : LSQ :=
  { s with
    head := some f
    tail := some (slot s.lsqSize f s.curSize)
    lsqueue := Function.update s.lsqueue (slot s.lsqSize f s.curSize) e
    curSize := s.curSize + 1 }

/-- An allocation takes the slot after the window, which is free. -/
theorem allocate_eq_some (type : LSQEntryType) (addr : ℤ) (robEntry : Option ℕ)
    (h : s.RingAt f) (hfull : s.curSize < s.lsqSize) :
    ∃ f', s.RingAt f' ∧ s.allocate type addr robEntry =
      some (s.pushed f' (.recycled type robEntry addr s.mfenceCount)) := by
  have hfree : ∀ {f'}, s.RingAt f' →
      (s.lsqueue (slot s.lsqSize f' s.curSize)).removed = true := by
    intro f' h'
    have := h'.live_iff s.curSize hfull
    simpa using this
  rcases Nat.eq_zero_or_pos s.curSize with hcur | hcur
  · have hzero := h.of_empty hcur h.size_pos
    have hslot : slot s.lsqSize 0 s.curSize = 0 := by rw [hcur, slot_zero h.size_pos]
    refine ⟨0, hzero, ?_⟩
    have hremoved := hfree hzero
    rw [pushed, hslot]
    rw [hslot] at hremoved
    simp [allocate, h.head_eq, hcur, hremoved]
  · have hhead : s.head = some f := by simp [h.head_eq, Nat.ne_of_gt hcur]
    have hremoved := hfree h
    refine ⟨f, h, ?_⟩
    simp only [allocate, pushed, hhead, reduceCtorEq, if_false, h.after_tail hcur, hremoved]

theorem RingAt.pushed {e : LSQEntry} (h : s.RingAt f) (hfull : s.curSize < s.lsqSize)
    (hlive : e.removed = false) : (s.pushed f e).RingAt f where
  size_pos := h.size_pos
  first_lt := h.first_lt
  cur_le := hfull
  head_eq := by simp [LSQ.pushed]
  tail_eq := by simp [LSQ.pushed]
  live_iff k hk := by
    simp only [LSQ.pushed] at hk ⊢
    by_cases hkc : k = s.curSize
    · subst hkc
      simp [hlive]
    · have hne : slot s.lsqSize f k ≠ slot s.lsqSize f s.curSize :=
        fun heq => hkc ((slot_inj hk hfull).mp heq)
      simp only [Function.update_of_ne hne, h.live_iff k hk]
      omega
  stale j hr ht hv := by
    simp only [LSQ.pushed] at *
    by_cases hj : j = slot s.lsqSize f s.curSize
    · subst hj
      simp [hlive] at hr
    · simp only [Function.update_of_ne hj] at *
      exact h.stale j hr ht hv

/-- The fence counter plays no part in the layout. -/
theorem RingAt.with_mfenceCount (h : s.RingAt f) (c : ℤ) :
    RingAt { s with mfenceCount := c } f :=
  ⟨h.size_pos, h.first_lt, h.cur_le, h.head_eq, h.tail_eq, h.live_iff, h.stale⟩

theorem next_addEntry {isLoad : Bool} {address : ℤ} {robEntry : Option ℕ} (h : s.RingAt f)
    (hstep : s.next (.addEntry isLoad address robEntry) = some t) :
    ∃ f', s.RingAt f' ∧ s.curSize < s.lsqSize ∧
      t = s.pushed f' (.recycled (if isLoad then .load else .store) robEntry address
        s.mfenceCount) := by
  simp only [next, Option.ite_none_left_eq_some] at hstep
  obtain ⟨hfull, hstep⟩ := hstep
  have hlt : s.curSize < s.lsqSize := by simpa [isFull] using hfull
  obtain ⟨f', h', heq⟩ :=
    allocate_eq_some (if isLoad then .load else .store) address robEntry h hlt
  exact ⟨f', h', hlt, (Option.some.inj (heq.symm.trans hstep)).symm⟩

theorem next_addMfence {robEntry : Option ℕ} (h : s.RingAt f)
    (hstep : s.next (.addMfence robEntry) = some t) :
    ∃ f', s.RingAt f' ∧ s.curSize < s.lsqSize ∧
      t = { s.pushed f' (.recycled .mfence robEntry 0 s.mfenceCount) with
        mfenceCount := s.mfenceCount + 1 } := by
  simp only [next, Option.ite_none_left_eq_some, addMfence] at hstep
  obtain ⟨hfull, hstep⟩ := hstep
  have hlt : s.curSize < s.lsqSize := by simpa [isFull] using hfull
  obtain ⟨f', h', heq⟩ := allocate_eq_some .mfence 0 robEntry h hlt
  rw [heq] at hstep
  exact ⟨f', h', hlt, (Option.some.inj hstep).symm⟩

/-! ### Commit -/

theorem onlyFlags_cleared : OnlyFlags s (s.setEntry i (s.lsqueue i).mfenceCleared) :=
  onlyFlags_setEntry rfl rfl Or.inl id id

theorem clearFrom_flags {fuel : ℕ} (hc : s.clearFrom i fuel = some t) : OnlyFlags s t := by
  induction fuel generalizing s i with
  | zero => simp [clearFrom] at hc
  | succ fuel ih =>
    rw [clearFrom] at hc
    split at hc
    · cases hc
      exact .rfl
    · exact onlyFlags_cleared.trans (ih hc)

/-- The slot after the tail is reached within one turn of the ring. -/
theorem clearFrom_isSome {fuel : ℕ} (h : s.RingAt f) (hcur : 0 < s.curSize)
    (hk : k ≤ s.curSize) (hfuel : s.curSize - k < fuel) :
    (s.clearFrom (slot s.lsqSize f k) fuel).isSome := by
  induction fuel generalizing s k with
  | zero => omega
  | succ fuel ih =>
    rw [clearFrom, h.after_tail hcur]
    split
    · rfl
    · rename_i hne
      have hlt : k < s.curSize := by
        rcases Nat.lt_or_ge k s.curSize with hlt | hge
        · exact hlt
        · exact absurd (by rw [Nat.le_antisymm hk hge]) hne
      rw [incrementQ, slot_next]
      exact ih (h.of_onlyFlags onlyFlags_cleared) hcur hlt (by simp only [setEntry]; omega)

theorem commitMfence_isSome (h : s.RingAt f) (hcur : 0 < s.curSize) : s.commitMfence.isSome := by
  have hzero : f = slot s.lsqSize f 0 := (slot_zero h.first_lt).symm
  rw [commitMfence, h.head_getD hcur, hzero]
  have hsize := h.cur_le
  exact clearFrom_isSome h hcur (Nat.zero_le _) (by omega)

/-- A commit moves the head on by one. -/
theorem RingAt.removeHead (h : s.RingAt f) (hcur : 0 < s.curSize)
    (hvalue : (s.lsqueue f).type = .load → (s.lsqueue f).forwarded = true) :
    (s.removeHead f).RingAt ((f + 1) % s.lsqSize) := by
  have hhead : s.head = some f := by simp [h.head_eq, Nat.ne_of_gt hcur]
  have htail : s.tail = some (slot s.lsqSize f (s.curSize - 1)) := by
    simp [h.tail_eq, Nat.ne_of_gt hcur]
  have hsize := h.cur_le
  have hone : s.head = s.tail ↔ s.curSize = 1 := by
    rw [hhead, htail, Option.some_inj]
    constructor
    · intro heq
      have hpos : 0 = s.curSize - 1 :=
        (slot_inj h.size_pos (by omega)).mp ((slot_zero h.first_lt).trans heq)
      omega
    · intro heq
      rw [heq, slot_zero h.first_lt]
  constructor
  case size_pos => exact h.size_pos
  case first_lt => exact Nat.mod_lt _ h.size_pos
  case cur_le =>
    simp only [LSQ.removeHead]
    omega
  case head_eq =>
    by_cases hlast : s.curSize = 1
    · simp [LSQ.removeHead, hone.mpr hlast, hlast]
    · have hrest : s.curSize - 1 ≠ 0 := by omega
      simp only [LSQ.removeHead, if_neg (mt hone.mp hlast), if_neg hrest]
      rw [hhead]
      rfl
  case tail_eq =>
    by_cases hlast : s.curSize = 1
    · simp [LSQ.removeHead, hone.mpr hlast, hlast]
    · have hrest : s.curSize - 1 ≠ 0 := by omega
      have hpos : s.curSize - 1 - 1 + 1 = s.curSize - 1 := by omega
      simp only [LSQ.removeHead, if_neg (mt hone.mp hlast), if_neg hrest]
      rw [htail, slot_head_next, hpos]
  case live_iff =>
    intro k hk
    simp only [LSQ.removeHead] at hk ⊢
    rw [slot_head_next]
    rcases Nat.lt_or_ge (k + 1) s.lsqSize with hlt | hge
    · have hne : slot s.lsqSize f (k + 1) ≠ f := by
        intro heq
        have := (slot_inj hlt h.size_pos).mp (heq.trans (slot_zero h.first_lt).symm)
        omega
      rw [Function.update_of_ne hne, h.live_iff _ hlt]
      omega
    · have hround : slot s.lsqSize f (k + 1) = f := by
        have hk' : k + 1 = 0 + s.lsqSize := by omega
        rw [hk', slot_add_size, slot_zero h.first_lt]
      rw [hround, Function.update_self]
      simp
      omega
  case stale =>
    intro j hr ht hv
    simp only [LSQ.removeHead] at hr ht hv ⊢
    by_cases hj : j = f
    · subst hj
      simp only [Function.update_self] at ht ⊢
      exact hvalue ht
    · simp only [Function.update_of_ne hj] at hr ht hv ⊢
      exact h.stale j hr ht hv

/-- What one turn of the commit loop does to the window. -/
theorem commitEntry_ring {accepts : ℕ → Bool} (h : s.RingAt f) (hcur : 0 < s.curSize)
    (hc : s.commitEntry accepts f = some (some t)) :
    t.RingAt ((f + 1) % s.lsqSize) ∧ t.lsqSize = s.lsqSize ∧ t.curSize = s.curSize - 1 := by
  rw [commitEntry] at hc
  split at hc
  case h_1 htype =>
    split at hc
    · cases hc
    · split at hc
      · cases hc
        exact ⟨h.removeHead hcur (by simp [htype]), rfl, rfl⟩
      · cases hc
  case h_2 htype =>
    obtain ⟨u, hu, heq⟩ := Option.map_eq_some_iff.mp hc
    cases heq
    have hflags := clearFrom_flags hu
    have hring := (h.of_onlyFlags hflags).with_mfenceCount (u.mfenceCount - 1)
    have hremoved := hring.removeHead (by simpa [hflags.cur] using hcur)
      (by simp [hflags.type, htype])
    exact ⟨hflags.size ▸ hremoved, hflags.size, by simp [LSQ.removeHead, hflags.cur]⟩
  case h_3 htype =>
    split at hc
    case isTrue hvalue =>
      cases hc
      exact ⟨h.removeHead hcur (fun _ => hvalue), rfl, rfl⟩
    case isFalse => cases hc

/-- What every removal at the head keeps, the commit loop keeps: it stops at the entry
it was asked for, which is in the queue. -/
theorem commitFrom_invariant {J : LSQ → Prop} {accepts : ℕ → Bool} {fuel : ℕ}
    (hstep : ∀ u g u', RingAt u g → 0 < u.curSize → J u →
      u.commitEntry accepts g = some (some u') → J u')
    (h : s.RingAt f) (hk : k < s.curSize) (hJ : J s)
    (hc : s.commitFrom accepts (slot s.lsqSize f k) f fuel = some t) :
    J t ∧ t.RingInvariant := by
  induction fuel generalizing s f k with
  | zero => simp [commitFrom] at hc
  | succ fuel ih =>
    have hcur : 0 < s.curSize := by omega
    have hsize := h.cur_le
    rw [commitFrom] at hc
    split at hc
    case h_1 => cases hc
    case h_2 =>
      cases hc
      exact ⟨hJ, f, h⟩
    case h_3 u hu =>
      obtain ⟨hring, hn, hcu⟩ := commitEntry_ring h hcur hu
      have hJu := hstep s f u h hcur hJ hu
      split at hc
      · cases hc
        exact ⟨hJu, _, hring⟩
      · rename_i hne
        obtain ⟨hpos, hupto⟩ := slot_behind_head hn h.first_lt hne
        rw [hupto] at hc
        exact ih hring (by omega) hJu hc

/-- The invariant rule for a commit event. -/
theorem handleCommitsFromROB_invariant {J : LSQ → Prop} {accepts : ℕ → Bool}
    (hstep : ∀ u g u', RingAt u g → 0 < u.curSize → J u →
      u.commitEntry accepts g = some (some u') → J u')
    (h : s.RingAt f) (hi : i < s.lsqSize) (hJ : J s)
    (hc : s.handleCommitsFromROB accepts i = some t) : J t ∧ t.RingInvariant := by
  rw [handleCommitsFromROB] at hc
  split at hc
  · cases hc
    exact ⟨hJ, f, h⟩
  · rename_i hremoved
    obtain ⟨k, hk, rfl⟩ := h.exists_position ⟨hi, by simpa using hremoved⟩
    rw [h.head_getD (by omega)] at hc
    exact commitFrom_invariant hstep h hk hJ hc

/-- An entry whose commit is no error: a store has its address, a load its value. -/
def Ready (s : LSQ) (i : ℕ) : Prop :=
  ((s.lsqueue i).type = .store → (s.lsqueue i).valid = true) ∧
    ((s.lsqueue i).type = .load → (s.lsqueue i).forwarded = true)

theorem OnlyFlags.ready (hst : OnlyFlags s t) (hi : s.Ready i) : t.Ready i := by
  rw [Ready, hst.type]
  exact ⟨fun ht => hst.stillValid i (hi.1 ht), fun ht => hst.forwarded i (hi.2 ht)⟩

/-- The entries a removal leaves are as before. -/
theorem removeHead_entry {j : ℕ} (hj : (s.removeHead i).Live j) :
    j ≠ i ∧ (s.removeHead i).lsqueue j = s.lsqueue j := by
  by_cases h : j = i
  · subst h
    simp [Live, removeHead] at hj
  · exact ⟨h, by simp [removeHead, h]⟩

theorem commitEntry_ready {accepts : ℕ → Bool} (hready : ∀ j, s.Live j → s.Ready j)
    (hc : s.commitEntry accepts i = some (some t)) : ∀ j, t.Live j → t.Ready j := by
  have hremove : ∀ u : LSQ, OnlyFlags s u → ∀ j, (u.removeHead i).Live j →
      (u.removeHead i).Ready j := by
    intro u hflags j hj
    obtain ⟨-, hentry⟩ := removeHead_entry hj
    have hlive : s.Live j := by
      refine ⟨hflags.size ▸ hj.1, ?_⟩
      rw [← hflags.removed, ← hentry]
      exact hj.2
    rw [Ready, hentry]
    exact hflags.ready (hready j hlive)
  rw [commitEntry] at hc
  split at hc
  · split at hc
    · cases hc
    · split at hc
      · cases hc
        exact hremove s .rfl
      · cases hc
  · obtain ⟨u, hu, heq⟩ := Option.map_eq_some_iff.mp hc
    cases heq
    have hflags := clearFrom_flags hu
    exact hremove { u with mfenceCount := u.mfenceCount - 1 }
      ⟨hflags.size, hflags.cur, hflags.head, hflags.tail, hflags.type, hflags.removed,
        hflags.valid, hflags.stillValid, hflags.forwarded⟩
  · split at hc
    · cases hc
      exact hremove s .rfl
    · cases hc

theorem commitEntry_isSome (accepts : ℕ → Bool) (h : s.RingAt f) (hcur : 0 < s.curSize)
    (hready : s.Ready f) : (s.commitEntry accepts f).isSome := by
  cases htype : (s.lsqueue f).type with
  | load => simp [commitEntry, htype, hready.2 htype]
  | store =>
    simp only [commitEntry, htype, hready.1 htype]
    split_ifs <;> simp_all
  | mfence => simp [commitEntry, htype, commitMfence_isSome h hcur]

/-- The commit loop ends within one turn of the ring unless it meets an error. -/
theorem commitFrom_isSome {accepts : ℕ → Bool} {fuel : ℕ} (h : s.RingAt f)
    (hk : k < s.curSize) (hfuel : k < fuel) (hready : ∀ j, s.Live j → s.Ready j) :
    (s.commitFrom accepts (slot s.lsqSize f k) f fuel).isSome := by
  induction fuel generalizing s f k with
  | zero => omega
  | succ fuel ih =>
    have hcur : 0 < s.curSize := by omega
    have hfirst : s.Live f := by
      refine ⟨h.first_lt, ?_⟩
      have := (h.live_iff 0 h.size_pos).mpr hcur
      rwa [slot_zero h.first_lt] at this
    obtain ⟨r, hr⟩ := Option.isSome_iff_exists.mp
      (commitEntry_isSome accepts h hcur (hready f hfirst))
    rw [commitFrom, hr]
    cases r with
    | none => rfl
    | some u =>
      obtain ⟨hring, hn, hcu⟩ := commitEntry_ring h hcur hr
      simp only
      split
      · rfl
      · rename_i hne
        obtain ⟨hpos, hupto⟩ := slot_behind_head hn h.first_lt hne
        rw [hupto]
        exact ih hring (by omega) (by omega) (commitEntry_ready hready hr)

/-- A commit fails only on a store without an address or a load without a value. -/
theorem handleCommitsFromROB_isSome {accepts : ℕ → Bool} (h : s.RingInvariant)
    (hi : i < s.lsqSize) (hready : ∀ j, s.Live j → s.Ready j) :
    (s.handleCommitsFromROB accepts i).isSome := by
  obtain ⟨f, h⟩ := h
  rw [handleCommitsFromROB]
  split
  · rfl
  · rename_i hremoved
    obtain ⟨k, hk, rfl⟩ := h.exists_position ⟨hi, by simpa using hremoved⟩
    rw [h.head_getD (by omega)]
    have hsize := h.cur_le
    exact commitFrom_isSome h hk (by omega) hready

/-! ### Every action keeps the ring -/

theorem ringInvariant_next {a : Action} (h : s.RingInvariant) (hstep : s.next a = some t) :
    t.RingInvariant := by
  obtain ⟨f, h⟩ := h
  cases a with
  | addEntry isLoad address robEntry =>
    obtain ⟨f', h', hlt, rfl⟩ := next_addEntry h hstep
    exact ⟨f', h'.pushed hlt rfl⟩
  | addMfence robEntry =>
    obtain ⟨f', h', hlt, rfl⟩ := next_addMfence h hstep
    exact ⟨f', (h'.pushed hlt rfl).with_mfenceCount _⟩
  | addrValidate index executed =>
    simp only [next] at hstep
    split at hstep
    · rename_i hlive
      obtain ⟨r, hr, rfl⟩ := Option.map_eq_some_iff.mp hstep
      exact ⟨f, h.of_onlyFlags (handleAddrValidate_flags hlive hr).1⟩
    · cases hstep
  | l1Issue index =>
    simp only [next] at hstep
    split at hstep
    · cases hstep
      exact ⟨f, h.of_onlyFlags l1Issued_flags.1⟩
    · cases hstep
  | memResponse address executed =>
    cases hstep
    exact ⟨f, h.of_onlyFlags (responseScan_flags executed address _).1⟩
  | commit commitUpto accepts =>
    simp only [next] at hstep
    split at hstep
    · rename_i hi
      exact (handleCommitsFromROB_invariant (J := fun _ => True) (fun _ _ _ _ _ _ _ => trivial)
        h hi trivial hstep).2
    · cases hstep

/-! ### The window is a queue

An allocation puts its slot at the end of the window and a removal takes the first
slot away, so the window lists the entries in the order of their allocation. -/

theorem RingAt.window_pushed {e : LSQEntry} (h : s.RingAt f) (hfull : s.curSize < s.lsqSize)
    (hlive : e.removed = false) :
    (s.pushed f e).window = s.window ++ [slot s.lsqSize f s.curSize] := by
  rw [(h.pushed hfull hlive).window_eq, h.window_eq]
  simp [LSQ.pushed, slotsFrom, List.range_succ]

theorem RingAt.window_nodup (h : s.RingAt f) : s.window.Nodup := by
  rw [h.window_eq]
  exact slotsFrom_nodup h.cur_le

/-- The slot of a new entry is not in the window yet. -/
theorem RingAt.not_mem_window {e : LSQEntry} (h : s.RingAt f) (hfull : s.curSize < s.lsqSize)
    (hlive : e.removed = false) : slot s.lsqSize f s.curSize ∉ s.window := by
  have hnodup := (h.pushed hfull hlive).window_nodup
  rw [h.window_pushed hfull hlive, List.nodup_append] at hnodup
  intro hmem
  exact hnodup.2.2 _ hmem _ (List.mem_singleton_self _) rfl

theorem RingAt.pushed_of_mem {e : LSQEntry} {j : ℕ} (h : s.RingAt f)
    (hfull : s.curSize < s.lsqSize) (hlive : e.removed = false) (hj : j ∈ s.window) :
    (s.pushed f e).lsqueue j = s.lsqueue j := by
  have hne : j ≠ slot s.lsqSize f s.curSize :=
    fun heq => h.not_mem_window hfull hlive (heq ▸ hj)
  exact Function.update_of_ne hne _ _

theorem commitEntry_window {accepts : ℕ → Bool} (h : s.RingAt f) (hcur : 0 < s.curSize)
    (hc : s.commitEntry accepts f = some (some t)) : s.window = f :: t.window := by
  obtain ⟨hring, hn, hcu⟩ := commitEntry_ring h hcur hc
  have hcount : s.curSize = t.curSize + 1 := by omega
  rw [hring.window_eq, h.window_eq, hcount, slotsFrom_succ, slot_zero h.first_lt, hn]
  congr 1
  apply List.map_congr_left
  intro k _
  rw [slot_head_next]
  congr 1
  omega

/-- A commit event takes entries from the front of the window. -/
theorem handleCommitsFromROB_window {accepts : ℕ → Bool} (h : s.RingAt f)
    (hi : i < s.lsqSize) (hc : s.handleCommitsFromROB accepts i = some t) :
    t.window <:+ s.window := by
  refine (handleCommitsFromROB_invariant (J := fun u => u.window <:+ s.window) ?_ h hi
    (List.suffix_refl _) hc).1
  intro u g u' hring hcur hsuffix hu
  rw [commitEntry_window hring hcur hu] at hsuffix
  exact (List.suffix_cons _ _).trans hsuffix

/-- The layout of the queue holds in every run. -/
theorem ringInvariant_run {n : ℕ} {labels : List Action} (hn : 0 < n)
    (run : Run (StepOf next) (new n) labels s) : s.RingInvariant :=
  run.invariant ⟨0, ringAt_new hn⟩ (fun _ _ _ h hstep => ringInvariant_next h hstep)

end Tejas.LSQ
