import Tejas.FetchBuffer

/-!
# What the fetch buffer holds

The buffer holds, in order, what the fetch unit made of the instructions that it took and that
have not left. An instruction that waits for the instruction cache has its request underway.
-/

namespace Tejas.FetchUnit
open RingWindow BoundedLoop

variable {cfg : FetchBufferConfig} {u v : FetchUnit} {ins : NumberedInstruction} {n : ℕ}
  {latch : StageRing NumberedInstruction}

theorem numbered_append (n : ℕ) (xs ys : List NumberedInstruction) :
    numbered cfg n (xs ++ ys) =
      numbered cfg n xs ++ numbered cfg (n + xs.countP (takesSerialNo cfg)) ys := by
  induction xs generalizing n with
  | nil => rfl
  | cons ins rest ih =>
    rw [List.cons_append, numbered, numbered, List.countP_cons]
    by_cases hdrop : isDetached cfg ins = true
    · simp [hdrop, takesSerialNo, ih]
    · rw [if_neg hdrop, if_neg hdrop]
      by_cases hplain : (ins.isInValid || ins.isSync) = true
      · have hno : takesSerialNo cfg ins = false := by
          rw [takesSerialNo]
          cases hinvalid : ins.isInValid <;> simp_all
        rw [if_pos hplain, if_pos hplain, ih, List.cons_append, if_neg (by simp [hno]), add_zero]
      · have hyes : takesSerialNo cfg ins = true := by
          rw [takesSerialNo]
          simp_all
        rw [if_neg hplain, if_neg hplain, ih, List.cons_append, if_pos hyes]
        congr 3
        omega

/-- An instruction of the numbered stream has as its number how many numbered ones precede it.
-/
theorem serialNo_of_numbered {before after xs : List NumberedInstruction}
    (hsplit : ((numbered cfg n xs).filter fun ins => !ins.isSync) = before ++ ins :: after)
    (hvalid : ins.isInValid = false) :
    ins.serialNo = n + before.countP (fun ins => !ins.isInValid) := by
  induction xs generalizing n before with
  | nil => simp [numbered] at hsplit
  | cons first rest ih =>
    rw [numbered] at hsplit
    by_cases hdrop : isDetached cfg first = true
    · rw [if_pos hdrop] at hsplit
      exact ih hsplit
    rw [if_neg hdrop] at hsplit
    by_cases hsync : first.isSync = true
    · rw [if_pos (by simp [hsync]), List.filter_cons_of_neg (by simp [hsync])] at hsplit
      exact ih hsplit
    by_cases hend : first.isInValid = true
    · rw [if_pos (by simp [hend]), List.filter_cons_of_pos (by simp [hsync])] at hsplit
      cases before with
      | nil =>
        obtain ⟨rfl, -⟩ := List.cons.inj hsplit
        rw [hend] at hvalid
        cases hvalid
      | cons b before =>
        obtain ⟨rfl, hrest⟩ := List.cons.inj hsplit
        rw [ih hrest, List.countP_cons_of_neg (by simp [hend])]
    · rw [if_neg (by simp [hend, hsync])] at hsplit
      rw [List.filter_cons_of_pos (by simpa [NumberedInstruction.isSync] using hsync)] at hsplit
      cases before with
      | nil =>
        obtain ⟨rfl, -⟩ := List.cons.inj hsplit
        rfl
      | cons b before =>
        obtain ⟨rfl, hrest⟩ := List.cons.inj hsplit
        rw [ih hrest, List.countP_cons_of_pos
          (by simpa [NumberedInstruction.isInValid] using hend)]
        omega

/-- The slots in use hold instructions, and the numbered stream is what left the buffer and what
is in it. -/
structure Sound (cfg : FetchBufferConfig) (u : FetchUnit) : Prop where
  index : u.fetchBufferIndex < cfg.fetchBufferCapacity
  count : u.fetchFillCount ≤ cfg.fetchBufferCapacity
  filled : ∀ i ∈ u.slots cfg, ∃ ins, u.fetchBuffer i = some ins
  awaited : ∀ i ∈ u.slots cfg, ∀ ins, u.fetchBuffer i = some ins →
    u.fetchBufferStatus i = false → ins.ciscProgramCounter ∈ u.requested
  stream : numbered cfg 0 u.taken = u.passed ++ u.contents cfg
  counter : u.instCtr = u.taken.countP (takesSerialNo cfg)

theorem sound_start (hcap : 0 < cfg.fetchBufferCapacity) : start.Sound cfg := by
  refine ⟨hcap, Nat.zero_le _, ?_, ?_, rfl, rfl⟩
  · intro i hi
    simp [slots, start, slotsFrom] at hi
  · intro i hi
    simp [slots, start, slotsFrom] at hi

/-- What was appended is what the unit took and what it has not reached. -/
def appended (u : FetchUnit) : List NumberedInstruction := u.taken ++ u.inputToPipeline

namespace Sound

theorem numbered_appended (h : u.Sound cfg) : numbered cfg 0 u.appended =
    u.passed ++ u.contents cfg ++ numbered cfg u.instCtr u.inputToPipeline := by
  rw [appended, numbered_append, h.stream, Nat.zero_add, h.counter]

/-- The slot behind the last one is free. -/
theorem slot_not_mem (hroom : u.fetchFillCount < cfg.fetchBufferCapacity) :
    slot cfg.fetchBufferCapacity u.fetchBufferIndex u.fetchFillCount ∉ u.slots cfg := by
  have hnodup : (slotsFrom cfg.fetchBufferCapacity u.fetchBufferIndex 0
      (u.fetchFillCount + 1)).Nodup := slotsFrom_nodup hroom
  rw [slotsFrom_add, List.nodup_append] at hnodup
  intro hmem
  refine hnodup.2.2 _ hmem _ ?_ rfl
  simp [slotsFrom]

/-- One more instruction is taken and entered behind the others. -/
theorem enter {ins' : NumberedInstruction} {status : Bool} (h : u.Sound cfg)
    (hroom : u.fetchFillCount < cfg.fetchBufferCapacity)
    (hindex : v.fetchBufferIndex = u.fetchBufferIndex)
    (hcount : v.fetchFillCount = u.fetchFillCount + 1)
    (hbuffer : v.fetchBuffer = Function.update u.fetchBuffer
      (slot cfg.fetchBufferCapacity u.fetchBufferIndex u.fetchFillCount) (some ins'))
    (hstatus : v.fetchBufferStatus = Function.update u.fetchBufferStatus
      (slot cfg.fetchBufferCapacity u.fetchBufferIndex u.fetchFillCount) status)
    (hrequested : ∀ a ∈ u.requested, a ∈ v.requested)
    (hawaits : status = false → ins'.ciscProgramCounter ∈ v.requested)
    (htaken : v.taken = u.taken ++ [ins]) (hpassed : v.passed = u.passed)
    (hnumbered : numbered cfg u.instCtr [ins] = [ins'])
    (hctr : v.instCtr = u.instCtr + [ins].countP (takesSerialNo cfg)) : v.Sound cfg := by
  obtain ⟨last, hlast⟩ :
      ∃ i, i = slot cfg.fetchBufferCapacity u.fetchBufferIndex u.fetchFillCount := ⟨_, rfl⟩
  have hfree := slot_not_mem hroom
  rw [← hlast] at hbuffer hstatus hfree
  have hslots : v.slots cfg = u.slots cfg ++ [last] := by
    rw [slots, hcount, hindex, slotsFrom_add, slots, hlast]
    simp [slotsFrom]
  have hold : ∀ i ∈ u.slots cfg, v.fetchBuffer i = u.fetchBuffer i ∧
      v.fetchBufferStatus i = u.fetchBufferStatus i := by
    intro i hi
    have hne : i ≠ last := fun heq => hfree (heq ▸ hi)
    rw [hbuffer, hstatus, Function.update_of_ne hne, Function.update_of_ne hne]
    exact ⟨rfl, rfl⟩
  refine ⟨hindex ▸ h.index, by omega, ?_, ?_, ?_, ?_⟩
  · intro i hi
    rw [hslots, List.mem_append, List.mem_singleton] at hi
    rcases hi with hi | rfl
    · rw [(hold i hi).1]
      exact h.filled i hi
    · exact ⟨ins', by rw [hbuffer, Function.update_self]⟩
  · intro i hi waiting hins hwaits
    rw [hslots, List.mem_append, List.mem_singleton] at hi
    rcases hi with hi | rfl
    · rw [(hold i hi).1] at hins
      rw [(hold i hi).2] at hwaits
      exact hrequested _ (h.awaited i hi waiting hins hwaits)
    · rw [hbuffer, Function.update_self] at hins
      rw [hstatus, Function.update_self] at hwaits
      obtain rfl := Option.some.inj hins
      exact hawaits hwaits
  · have hkept : (u.slots cfg).filterMap v.fetchBuffer = u.contents cfg :=
      List.filterMap_congr fun i hi => (hold i hi).1
    have hall : v.contents cfg = u.contents cfg ++ [ins'] := by
      rw [contents, hslots, List.filterMap_append, hkept, hbuffer]
      simp
    rw [htaken, numbered_append, h.stream, Nat.zero_add, ← h.counter, hnumbered, hpassed, hall,
      List.append_assoc]
  · rw [hctr, htaken, List.countP_append, h.counter]

/-- An instruction that is dropped leaves the buffer as it is. -/
theorem drop (h : u.Sound cfg) (rest : List NumberedInstruction)
    (hdrop : isDetached cfg ins = true) : (u.poll ins rest).Sound cfg := by
  refine ⟨h.index, h.count, h.filled, h.awaited, ?_, ?_⟩
  · have hnone : numbered cfg (0 + u.taken.countP (takesSerialNo cfg)) [ins] = [] := by
      rw [numbered, if_pos hdrop, numbered]
    rw [FetchUnit.poll, numbered_append, hnone, List.append_nil]
    exact h.stream
  · rw [FetchUnit.poll, List.countP_append]
    simp [takesSerialNo, hdrop, h.counter]

theorem enterInValid {rest : List NumberedInstruction} (h : u.Sound cfg)
    (hroom : u.fetchFillCount < cfg.fetchBufferCapacity) (hkept : isDetached cfg ins = false)
    (hend : ins.isInValid = true) :
    ((u.poll ins rest).enter (slot cfg.fetchBufferCapacity u.fetchBufferIndex u.fetchFillCount)
      ins true).Sound cfg := by
  refine h.enter hroom rfl rfl rfl rfl (fun a ha => ha) (fun hfalse => by cases hfalse) rfl rfl
    ?_ ?_
  · simp [numbered, hkept, hend]
  · simp [FetchUnit.enter, FetchUnit.poll, takesSerialNo, hend]

theorem enterNumbered (h : u.Sound cfg) (rest : List NumberedInstruction)
    (hroom : u.fetchFillCount < cfg.fetchBufferCapacity) (hkept : isDetached cfg ins = false)
    (hvalid : ins.isInValid = false) :
    ((u.poll ins rest).enterNumbered cfg
      (slot cfg.fetchBufferCapacity u.fetchBufferIndex u.fetchFillCount) ins).Sound cfg := by
  by_cases hsync : ins.isSync = true
  · rw [FetchUnit.enterNumbered, setSerialNo, if_pos hsync]
    have hnumbered : numbered cfg u.instCtr [ins] = [ins] := by
      simp [numbered, hkept, hsync]
    have hcounted : [ins].countP (takesSerialNo cfg) = 0 := by
      simp [takesSerialNo, hsync]
    by_cases hknown : isKnown cfg ins = true
    · simp only [hknown, if_true]
      exact h.enter hroom rfl rfl rfl rfl (fun a ha => ha) (fun hfalse => by cases hfalse) rfl
        rfl hnumbered (by rw [hcounted]; rfl)
    · simp only [hknown]
      exact h.enter hroom rfl rfl rfl rfl (fun a ha => List.mem_append_left _ ha)
        (fun _ => List.mem_append_right _ (List.mem_singleton.mpr rfl)) rfl rfl hnumbered
        (by rw [hcounted]; rfl)
  · rw [FetchUnit.enterNumbered, setSerialNo, if_neg hsync]
    have hnumbered : numbered cfg u.instCtr [ins] = [{ ins with serialNo := u.instCtr }] := by
      simp [numbered, hkept, hsync, hvalid]
    have hcounted : [ins].countP (takesSerialNo cfg) = 1 := by
      simp [takesSerialNo, hsync, hvalid, hkept]
    have hsame : isKnown cfg { ins with serialNo := u.instCtr } = isKnown cfg ins := rfl
    by_cases hknown : isKnown cfg ins = true
    · simp only [FetchUnit.poll, hsame, hknown, if_true]
      exact h.enter hroom rfl rfl rfl rfl (fun a ha => ha) (fun hfalse => by cases hfalse) rfl
        rfl hnumbered (by rw [hcounted]; rfl)
    · simp only [FetchUnit.poll, hsame, hknown]
      exact h.enter hroom rfl rfl rfl rfl (fun a ha => List.mem_append_left _ ha)
        (fun _ => List.mem_append_right _ (List.mem_singleton.mpr rfl)) rfl rfl hnumbered
        (by rw [hcounted]; rfl)

end Sound

/-! ### Filling the buffer -/

/-- The buffer is filled from the input. -/
structure Fills (cfg : FetchBufferConfig) (u v : FetchUnit) : Prop where
  sound : v.Sound cfg
  passed : v.passed = u.passed
  appended : v.appended = u.appended

theorem Fills.refl (h : u.Sound cfg) : u.Fills cfg u := ⟨h, rfl, rfl⟩

theorem enterNumbered_fields (cfg : FetchBufferConfig) (i : ℕ) (ins : NumberedInstruction) :
    (u.enterNumbered cfg i ins).fetchBufferIndex = u.fetchBufferIndex ∧
      (u.enterNumbered cfg i ins).fetchFillCount = u.fetchFillCount + 1 ∧
      (u.enterNumbered cfg i ins).passed = u.passed ∧
      (u.enterNumbered cfg i ins).appended = u.appended := by
  rw [enterNumbered, setSerialNo]
  by_cases hsync : ins.isSync = true
  · rw [if_pos hsync]
    dsimp only
    split <;> exact ⟨rfl, rfl, rfl, rfl⟩
  · rw [if_neg hsync]
    dsimp only
    split <;> exact ⟨rfl, rfl, rfl, rfl⟩

/-- The loop goes on at the slot behind the last one. -/
theorem fillLoop_fills (rounds : ℕ) (h : u.Sound cfg) {i : ℕ}
    (hi : i = slot cfg.fetchBufferCapacity u.fetchBufferIndex u.fetchFillCount) :
    u.Fills cfg (fillLoop cfg rounds i u) := by
  induction rounds generalizing u i with
  | zero => exact .refl h
  | succ rounds ih =>
    rw [fillLoop]
    by_cases hroom : u.fetchFillCount < cfg.fetchBufferCapacity
    case neg =>
      rw [if_neg hroom]
      exact .refl h
    rw [if_pos hroom]
    cases hinput : u.inputToPipeline with
    | nil => exact .refl h
    | cons first rest =>
      have happended : (u.poll first rest).appended = u.appended := by
        simp [appended, poll, hinput]
      dsimp only
      by_cases hdrop : isDetached cfg first = true
      · rw [if_pos hdrop]
        obtain ⟨hsound, hpassed, hall⟩ := ih (h.drop rest hdrop) hi
        exact ⟨hsound, hpassed, hall.trans happended⟩
      rw [if_neg hdrop]
      have hkept : isDetached cfg first = false := Bool.not_eq_true _ ▸ hdrop
      by_cases hend : first.isInValid = true
      · rw [if_pos hend, hi]
        exact ⟨h.enterInValid hroom hkept hend, rfl, happended⟩
      · rw [if_neg hend]
        have hnext := h.enterNumbered rest hroom hkept (Bool.not_eq_true _ ▸ hend)
        rw [← hi] at hnext
        obtain ⟨hindex, hcount, hpassed, hinput'⟩ :=
          (u.poll first rest).enterNumbered_fields cfg i first
        have hi' : (i + 1) % cfg.fetchBufferCapacity = slot cfg.fetchBufferCapacity
            ((u.poll first rest).enterNumbered cfg i first).fetchBufferIndex
            ((u.poll first rest).enterNumbered cfg i first).fetchFillCount := by
          rw [hindex, hcount, hi, slot_next]
          rfl
        obtain ⟨hsound, hpassed', hall⟩ := ih hnext hi'
        exact ⟨hsound, hpassed'.trans hpassed, hall.trans (hinput'.trans happended)⟩

theorem fillFetchBuffer_fills (rounds : ℕ) (h : u.Sound cfg) :
    u.Fills cfg (u.fillFetchBuffer cfg rounds) := by
  rw [fillFetchBuffer]
  split
  · exact .refl h
  · exact fillLoop_fills rounds h rfl

/-! ### Handing instructions on -/

/-- Instructions leave the buffer in their order, and all but the barriers get into the latch.
-/
structure Delivers (cfg : FetchBufferConfig) (now : ℤ) (u : FetchUnit)
    (latch : StageRing NumberedInstruction) (v : FetchUnit)
    (latch' : StageRing NumberedInstruction) : Prop where
  sound : v.Sound cfg
  latchSound : latch'.Sound
  size : latch'.size = latch.size
  appended : v.appended = u.appended
  delivered : ∃ moved, v.passed = u.passed ++ moved ∧ latch'.entries =
    latch.entries ++ (moved.filter fun ins => !ins.isSync).map fun ins => (ins, now + 1)

theorem Delivers.refl {now : ℤ} (h : u.Sound cfg) (hlatch : latch.Sound) :
    Delivers cfg now u latch u latch :=
  ⟨h, hlatch, rfl, rfl, [], by simp⟩

/-- The first slot in use, and the others. -/
theorem Sound.contents_cons (h : u.Sound cfg) (hpos : 0 < u.fetchFillCount)
    (hins : u.fetchBuffer u.fetchBufferIndex = some ins) :
    u.slots cfg = u.fetchBufferIndex :: (u.pass cfg ins).slots cfg ∧
      u.contents cfg = ins :: (u.pass cfg ins).contents cfg := by
  obtain ⟨n, hn⟩ := Nat.exists_eq_add_of_le' hpos
  have hslots : u.slots cfg = u.fetchBufferIndex :: (u.pass cfg ins).slots cfg := by
    rw [slots, hn, slotsFrom_succ, slot_zero h.index, slots, pass]
    congr 1
    rw [show u.fetchFillCount - 1 = n by omega]
    refine List.map_congr_left fun d _ => ?_
    rw [slot_head_next, Nat.zero_add, Nat.zero_add, Nat.add_comm 1 d]
  refine ⟨hslots, ?_⟩
  rw [contents, hslots, List.filterMap_cons, hins]
  rfl

/-- What is about the slots stays when the first one leaves the buffer. -/
theorem Sound.passed (h : u.Sound cfg) (hpos : 0 < u.fetchFillCount)
    (hins : u.fetchBuffer u.fetchBufferIndex = some ins)
    (hindex : v.fetchBufferIndex = (u.pass cfg ins).fetchBufferIndex)
    (hcount : v.fetchFillCount = (u.pass cfg ins).fetchFillCount)
    (hsame : ∀ i, i ≠ u.fetchBufferIndex → v.fetchBuffer i = u.fetchBuffer i ∧
      v.fetchBufferStatus i = u.fetchBufferStatus i)
    (hrequested : v.requested = u.requested) (htaken : v.taken = u.taken)
    (hpassed : v.passed = u.passed ++ [ins]) (hctr : v.instCtr = u.instCtr) : v.Sound cfg := by
  obtain ⟨hslots, hcontents⟩ := h.contents_cons hpos hins
  have hnodup : (u.slots cfg).Nodup := slotsFrom_nodup h.count
  rw [hslots, List.nodup_cons] at hnodup
  have hrest : v.slots cfg = (u.pass cfg ins).slots cfg := by
    rw [slots, slots, hindex, hcount]
  have hold : ∀ i ∈ v.slots cfg, i ∈ u.slots cfg ∧ v.fetchBuffer i = u.fetchBuffer i ∧
      v.fetchBufferStatus i = u.fetchBufferStatus i := by
    intro i hi
    rw [hrest] at hi
    have hne : i ≠ u.fetchBufferIndex := fun heq => hnodup.1 (heq ▸ hi)
    exact ⟨hslots ▸ List.mem_cons_of_mem _ hi, hsame i hne⟩
  have hcapacity := Nat.lt_of_le_of_lt (Nat.zero_le _) h.index
  refine ⟨?_, ?_, ?_, ?_, ?_, ?_⟩
  · rw [hindex]
    exact Nat.mod_lt _ hcapacity
  · rw [hcount, pass]
    exact (Nat.sub_le _ _).trans h.count
  · intro i hi
    obtain ⟨hmem, hbuffer, -⟩ := hold i hi
    rw [hbuffer]
    exact h.filled i hmem
  · intro i hi waiting hwaiting hwaits
    obtain ⟨hmem, hbuffer, hstatus⟩ := hold i hi
    rw [hbuffer] at hwaiting
    rw [hstatus] at hwaits
    rw [hrequested]
    exact h.awaited i hmem waiting hwaiting hwaits
  · have hkept : v.contents cfg = (u.pass cfg ins).contents cfg := by
      rw [contents, contents, hrest]
      exact List.filterMap_congr fun i hi => (hold i (hrest ▸ hi)).2.1
    rw [htaken, h.stream, hcontents, hpassed, hkept, List.append_assoc, List.singleton_append]
  · rw [hctr, htaken, h.counter]

theorem deliverRound_delivers {crosses : Bool} {now : ℤ} {d : Delivery} {r : Round Delivery}
    (h : d.unit.Sound cfg) (hlatch : d.ifIdLatch.Sound)
    (hround : deliverRound cfg crosses now d = some r) :
    Delivers cfg now d.unit d.ifIdLatch r.state.unit r.state.ifIdLatch := by
  simp only [deliverRound] at hround
  split at hround
  case isTrue =>
    cases hround
    exact .refl h hlatch
  case isFalse hgo =>
    simp only [not_or] at hgo
    obtain ⟨-, hcount, -, hfull⟩ := hgo
    have hpos : 0 < d.unit.fetchFillCount := Nat.pos_of_ne_zero hcount
    split at hround
    case h_1 => cases hround
    case h_2 ins hins =>
      by_cases hsync : ins.isSync = true
      · rw [if_pos hsync] at hround
        have hasleep : Delivers cfg now d.unit d.ifIdLatch
            { d.unit.pass cfg ins with sleep := true } d.ifIdLatch :=
          ⟨h.passed hpos hins rfl rfl (fun i _ => ⟨rfl, rfl⟩) rfl rfl rfl rfl, hlatch, rfl, rfl,
            [ins], rfl, by simp [hsync]⟩
        split at hround
        · cases hround
          exact hasleep
        · cases hround
          exact hasleep
      · rw [if_neg hsync] at hround
        cases hround
        have hroom : d.ifIdLatch.curSize < d.ifIdLatch.size := by
          simpa [StageRing.isFull] using hfull
        obtain ⟨hadded, hentries⟩ := hlatch.add ins (now + 1) hroom
        refine ⟨h.passed hpos hins rfl rfl (fun i hne => ?_) rfl rfl rfl rfl, hadded, rfl, rfl,
          [ins], rfl, ?_⟩
        · exact ⟨Function.update_of_ne hne _ _, Function.update_of_ne hne _ _⟩
        · simp only [Round.state, hentries]
          simp [hsync]

theorem Delivers.trans {now : ℤ} {w : FetchUnit} {latch' latch'' : StageRing NumberedInstruction}
    (h : Delivers cfg now u latch v latch') (h' : Delivers cfg now v latch' w latch'') :
    Delivers cfg now u latch w latch'' := by
  obtain ⟨moved, hpassed, hentries⟩ := h.delivered
  obtain ⟨moved', hpassed', hentries'⟩ := h'.delivered
  refine ⟨h'.sound, h'.latchSound, h'.size.trans h.size, h'.appended.trans h.appended,
    moved ++ moved', ?_, ?_⟩
  · rw [hpassed', hpassed, List.append_assoc]
  · rw [hentries', hentries, List.filter_append, List.map_append, List.append_assoc]

/-- The unit hands instructions on, and takes new ones. -/
theorem performFetch_delivers {crosses : Bool} {rounds : ℕ} {now : ℤ}
    {latch' : StageRing NumberedInstruction} (h : u.Sound cfg) (hlatch : latch.Sound)
    (hfetch : u.performFetch cfg crosses rounds now latch = some (v, latch')) :
    Delivers cfg now u latch v latch' := by
  obtain ⟨d, hloop, hresult⟩ := Option.map_eq_some_iff.mp hfetch
  have hdelivers := loop_invariant
    (I := fun d : Delivery => Delivers cfg now u latch d.unit d.ifIdLatch)
    (fun s r hs hr => hs.trans (deliverRound_delivers hs.sound hs.latchSound hr))
    (.refl h hlatch) hloop
  obtain ⟨rfl, rfl⟩ := Prod.mk.inj hresult
  split
  · obtain ⟨hsound, hpassed, happended⟩ := fillFetchBuffer_fills rounds hdelivers.sound
    refine ⟨hsound, hdelivers.latchSound, hdelivers.size, happended.trans hdelivers.appended, ?_⟩
    rw [hpassed]
    exact hdelivers.delivered
  · exact hdelivers

/-- No null entry of the buffer is ever read. -/
theorem exists_performFetch (crosses : Bool) (rounds : ℕ) (now : ℤ) (h : u.Sound cfg)
    (hlatch : latch.Sound) :
    ∃ result, u.performFetch cfg crosses rounds now latch = some result := by
  obtain ⟨d, hd⟩ := exists_loop (deliverRound cfg crosses now)
    (I := fun d => d.unit.Sound cfg ∧ d.ifIdLatch.Sound) (s := ⟨u, latch, true⟩)
    (fun d hd => by
      simp only [deliverRound]
      split
      case isTrue => exact ⟨_, rfl⟩
      case isFalse hgo =>
        simp only [not_or] at hgo
        have hmem : d.unit.fetchBufferIndex ∈ d.unit.slots cfg := by
          obtain ⟨n, hn⟩ := Nat.exists_eq_succ_of_ne_zero hgo.2.1
          rw [slots, hn, slotsFrom_succ, slot_zero hd.1.index]
          exact List.mem_cons_self
        obtain ⟨ins, hins⟩ := hd.1.filled _ hmem
        rw [hins]
        dsimp only
        split
        · split <;> exact ⟨_, rfl⟩
        · exact ⟨_, rfl⟩)
    (fun d r hd hr => by
      have hdelivers := deliverRound_delivers hd.1 hd.2 hr
      exact ⟨hdelivers.sound, hdelivers.latchSound⟩)
    (u.fetchFillCount + 1) ⟨h, hlatch⟩
  exact ⟨_, Option.map_eq_some_iff.mpr ⟨d, hd, rfl⟩⟩

/-! ### The answers of the instruction cache -/

theorem Sound.append (h : u.Sound cfg) (instructions : List NumberedInstruction) :
    (u.append instructions).Sound cfg :=
  ⟨h.index, h.count, h.filled, h.awaited, h.stream, h.counter⟩

theorem Sound.resumePipeline (h : u.Sound cfg) : u.resumePipeline.Sound cfg :=
  ⟨h.index, h.count, h.filled, h.awaited, h.stream, h.counter⟩

/-- After the answer nothing waits for the address, and the others still have their requests. -/
theorem Sound.processCompletionOfMemRequest (h : u.Sound cfg) (address : ℤ) :
    (u.processCompletionOfMemRequest cfg address).Sound cfg := by
  refine ⟨h.index, h.count, h.filled, ?_, h.stream, h.counter⟩
  intro i hi waiting hwaiting hwaits
  simp only [FetchUnit.processCompletionOfMemRequest, Bool.or_eq_false_iff,
    decide_eq_false_iff_not, not_and, not_exists] at hwaits hwaiting ⊢
  have hlt : i < cfg.fetchBufferCapacity := by
    obtain ⟨d, -, rfl⟩ := mem_slotsFrom.mp hi
    exact slot_lt (Nat.lt_of_le_of_lt (Nat.zero_le _) h.index) _ _
  have hother : waiting.ciscProgramCounter ≠ address := hwaits.2 hlt waiting hwaiting
  exact (List.mem_erase_of_ne hother).mpr (h.awaited i hi waiting hwaiting hwaits.1)

end Tejas.FetchUnit
