import Tejas.HierarchySteps

/-!
# Write-through forwarding

In a write-through cache an accepted write is followed by a write to the next level, as
long as no write stands before an eviction in a list of waiting events: such a list
ends at the eviction before anything is forwarded.
-/

namespace Tejas.HierarchyCache
open LabelledRuns

variable {C : Type} {cfg : HierarchyConfig C} {s t u : HierarchyCache C} {addr a : Address}
  {missList : List (AddressCarryingEvent C)} {event : AddressCarryingEvent C}
  {more before after notes : List (CacheRecord C)} {x : CacheAccess C} {label : Action C}
  {labels : List (Action C)} {m : MSHR C}

/-- The reads before the first eviction are answered, the writes before it are forwarded
once, and the events behind it are put back in their order. -/
def ServedInOrder (addr : Address) (missList : List (AddressCarryingEvent C))
    (s t : HierarchyCache C) : Prop :=
  ∃ more, t.history = s.history ++ more ∧
    more.filterMap CacheRecord.response? =
      (beforeEviction missList).filterMap AddressCarryingEvent.read? ∧
    more.filter CacheRecord.isWriteBelow =
      (if hasWrite (beforeEviction missList) then [.writesBelow addr] else []) ∧
    t.requeued = s.requeued ++
      (afterEviction missList).mapIdx (fun i e => (-(missList.length : ℤ) + i, e))

/-- A write stands before an eviction. -/
def writeBeforeEviction (missList : List (AddressCarryingEvent C)) : Bool :=
  hasEviction missList && hasWrite (beforeEviction missList)

/-- No list of the register holds a write before an eviction. -/
def NoWriteBeforeEviction (s : HierarchyCache C) : Prop :=
  ∀ missList ∈ s.mshr.missRegister, writeBeforeEviction missList = false

/-- A write for the line waits in the register, or was put back into the event queue. -/
def HoldsWrite (cfg : HierarchyConfig C) (s : HierarchyCache C) (addr : Address) : Prop :=
  (∃ e ∈ s.mshr.waiting cfg.geometry.blockSizeBits addr, MSHR.isCacheWrite e = true) ∨
    ∃ p ∈ s.requeued, MSHR.isCacheWrite p.2 = true ∧ cfg.geometry.SameLine p.2.address addr

def WritesBelow (g : Geometry) (records : List (CacheRecord C)) (addr : Address) : Prop :=
  ∃ b, .writesBelow b ∈ records ∧ g.SameLine b addr

/-! ### One list -/

theorem beforeEviction_of_none (h : hasEviction missList = false) :
    beforeEviction missList = missList ∧ afterEviction missList = [] := by
  have hall : ∀ e ∈ missList, (!e.missKind.isEviction) = true := by
    intro e he
    simpa using List.any_eq_false.mp h e he
  refine ⟨List.takeWhile_eq_self_iff.mpr hall, ?_⟩
  rw [afterEviction, List.dropWhile_eq_nil_iff.mpr hall]
  rfl

theorem served_putBack (cfg : HierarchyConfig C)
    (h : Serves cfg addr missList false s missList t more) :
    t.requeued = s.requeued ++
      (afterEviction missList).mapIdx (fun i e => (-(missList.length : ℤ) + i, e)) := by
  rw [h.putBack]
  split
  · rw [unprocessedEvents_eq]
  · rename_i hnone
    rw [(beforeEviction_of_none (Bool.not_eq_true _ ▸ hnone)).2]
    rfl

/-- The loop serves its list in order exactly if no write stands before an eviction. -/
theorem processEvents_servedInOrder_iff (hthrough : cfg.writePolicy = .writeThrough)
    (h : processEvents cfg addr missList false s missList = some t) :
    ServedInOrder addr missList s t ↔ writeBeforeEviction missList = false := by
  obtain ⟨more, hserves⟩ := processEvents_serves h
  have hforwards := hserves.forwards
  constructor
  · intro hserved
    obtain ⟨more', hhistory, -, hfilter, -⟩ := hserved
    have hsame : more' = more := List.append_cancel_left (hhistory.symm.trans hserves.history)
    rw [hsame, hforwards] at hfilter
    by_contra hbad
    rw [Bool.not_eq_false, writeBeforeEviction, Bool.and_eq_true] at hbad
    simp [hbad.1, hbad.2] at hfilter
  · intro hgood
    refine ⟨more, hserves.history, hserves.answers, ?_, served_putBack cfg hserves⟩
    rw [hforwards]
    cases hevict : hasEviction missList with
    | false => simp [hthrough, (beforeEviction_of_none hevict).1]
    | true =>
      rw [writeBeforeEviction, hevict, Bool.true_and] at hgood
      simp [hgood]

/-- A write behind the first eviction is put back. -/
theorem Serves.write_behind (h : Serves cfg addr missList false s missList t more)
    (hgood : hasWrite (beforeEviction missList) = false) (hmem : event ∈ missList)
    (hwrite : event.missKind.isWrite = true) : ∃ p ∈ t.requeued, p.2 = event := by
  have hafter : event ∈ afterEviction missList := by
    have hsplit := List.takeWhile_append_dropWhile (p := fun e => !e.missKind.isEviction)
      (l := missList)
    rw [← hsplit] at hmem
    rcases List.mem_append.mp hmem with hmem | hmem
    · exact absurd hwrite (List.any_eq_false.mp hgood event hmem)
    · rw [afterEviction]
      cases hdrop : missList.dropWhile (fun e => !e.missKind.isEviction) with
      | nil =>
        rw [hdrop] at hmem
        cases hmem
      | cons first rest =>
        rw [hdrop] at hmem
        rcases List.mem_cons.mp hmem with rfl | hmem
        · have hfirst := List.head_dropWhile_not (fun e : AddressCarryingEvent C =>
            !e.missKind.isEviction) (by rw [hdrop]; exact List.cons_ne_nil _ _)
          simp only [hdrop, List.head_cons, Bool.not_eq_false'] at hfirst
          cases hkind : event.missKind <;> simp [hkind, MissKind.isWrite,
            MissKind.isEviction] at hwrite hfirst
        · exact hmem
  obtain ⟨i, hi, hget⟩ := List.getElem_of_mem hafter
  refine ⟨(-(missList.length : ℤ) + i, event), ?_, rfl⟩
  rw [served_putBack cfg h]
  refine List.mem_append_right _ (List.mem_mapIdx.mpr ⟨i, hi, ?_⟩)
  rw [hget]

/-- A write of the list is forwarded or put back. -/
theorem Serves.write_kept (hthrough : cfg.writePolicy = .writeThrough)
    (h : Serves cfg addr missList false s missList t more)
    (hgood : writeBeforeEviction missList = false) (hmem : event ∈ missList)
    (hwrite : event.missKind.isWrite = true) :
    .writesBelow addr ∈ more ∨ ∃ p ∈ t.requeued, p.2 = event := by
  cases hevict : hasEviction missList with
  | false =>
    left
    have hany : hasWrite missList = true := List.any_eq_true.mpr ⟨event, hmem, hwrite⟩
    have hforwards := h.forwards
    rw [if_pos ⟨hthrough, hevict, by simp [hany]⟩] at hforwards
    have hin : .writesBelow addr ∈ more.filter CacheRecord.isWriteBelow := by
      rw [hforwards]
      exact List.mem_singleton_self _
    exact (List.mem_filter.mp hin).1
  | true =>
    rw [writeBeforeEviction, hevict, Bool.true_and] at hgood
    exact Or.inr (h.write_behind hgood hmem hwrite)

/-! ### Whole runs -/

/-- Every accepted write is held, or a write to the next level comes after it. -/
def Settled (g : Geometry) (holds : Address → Prop) : List (CacheRecord C) → Prop
  | [] => True
  | .accepts x :: rest =>
    (x.isWrite = true → holds x.address ∨ WritesBelow g rest x.address) ∧ Settled g holds rest
  | _ :: rest => Settled g holds rest

theorem settled_cons_other {g : Geometry} {holds : Address → Prop} {r : CacheRecord C}
    (h : ∀ x, r ≠ .accepts x) : Settled g holds (r :: more) ↔ Settled g holds more := by
  cases r with
  | accepts x => exact absurd rfl (h x)
  | _ => exact Iff.rfl

theorem settled_of_none {g : Geometry} {holds : Address → Prop}
    (h : ∀ x, .accepts x ∉ more) : Settled g holds more := by
  induction more with
  | nil => trivial
  | cons r rest ih =>
    refine (settled_cons_other ?_).mpr (ih fun x hx => h x (List.mem_cons_of_mem _ hx))
    rintro x rfl
    exact h x List.mem_cons_self

theorem WritesBelow.append_left {g : Geometry} (before : List (CacheRecord C))
    (h : WritesBelow g after a) :
    WritesBelow g (before ++ after) a := by
  obtain ⟨b, hb, hsame⟩ := h
  exact ⟨b, List.mem_append_right _ hb, hsame⟩

theorem WritesBelow.append_right {g : Geometry} (h : WritesBelow g before a) :
    WritesBelow g (before ++ after) a := by
  obtain ⟨b, hb, hsame⟩ := h
  exact ⟨b, List.mem_append_left _ hb, hsame⟩

/-- What was held is still held or has been forwarded since. -/
theorem Settled.append {g : Geometry} {holds holds' : Address → Prop}
    (h : Settled g holds before) (h' : Settled g holds' after)
    (hkept : ∀ a, holds a → holds' a ∨ WritesBelow g after a) :
    Settled g holds' (before ++ after) := by
  induction before with
  | nil => exact h'
  | cons r rest ih =>
    cases r with
    | accepts x =>
      refine ⟨?_, ih h.2⟩
      intro hwrite
      rcases h.1 hwrite with hheld | hforwarded
      · exact (hkept _ hheld).imp_right (WritesBelow.append_left _)
      · exact Or.inr hforwarded.append_right
    | _ => exact ih h

theorem Settled.accepted {g : Geometry} {holds : Address → Prop}
    (h : Settled g holds (before ++ .accepts x :: after)) (hwrite : x.isWrite = true) :
    holds x.address ∨ WritesBelow g after x.address := by
  induction before with
  | nil => exact h.1 hwrite
  | cons r rest ih =>
    cases r with
    | accepts y => exact ih h.2
    | _ => exact ih h

/-- What a part of a step does for the writes. -/
structure Forwards (cfg : HierarchyConfig C) (s t : HierarchyCache C)
    (more : List (CacheRecord C)) : Prop where
  mshr : t.mshr.WellFormed cfg.geometry.blockSizeBits
  history : t.history = s.history ++ more
  kept : ∀ a, s.HoldsWrite cfg a → t.HoldsWrite cfg a ∨ WritesBelow cfg.geometry more a
  settled : Settled cfg.geometry (t.HoldsWrite cfg) more

theorem Forwards.trans {more' : List (CacheRecord C)} (h : Forwards cfg s t more)
    (h' : Forwards cfg t u more') : Forwards cfg s u (more ++ more') where
  mshr := h'.mshr
  history := by rw [h'.history, h.history, List.append_assoc]
  kept := by
    intro a ha
    rcases h.kept a ha with ha | ha
    · exact (h'.kept a ha).imp_right (WritesBelow.append_left _)
    · exact Or.inr ha.append_right
  settled := h.settled.append h'.settled h'.kept

/-- Steps that neither accept a write nor lose one. -/
theorem forwards_of_kept (hm : t.mshr.WellFormed cfg.geometry.blockSizeBits)
    (hhistory : t.history = s.history ++ more) (hnone : ∀ x, .accepts x ∉ more)
    (hkept : ∀ a, s.HoldsWrite cfg a → t.HoldsWrite cfg a) : Forwards cfg s t more where
  mshr := hm
  history := hhistory
  kept := fun a ha => Or.inl (hkept a ha)
  settled := settled_of_none hnone

theorem holdsWrite_of_eq (hmshr : t.mshr = s.mshr) (hrequeued : t.requeued = s.requeued)
    (h : s.HoldsWrite cfg a) : t.HoldsWrite cfg a := by
  unfold HoldsWrite
  rw [hmshr, hrequeued]
  exact h

theorem forwards_of_eq (hm : s.mshr.WellFormed cfg.geometry.blockSizeBits)
    (hmshr : t.mshr = s.mshr) (hrequeued : t.requeued = s.requeued)
    (hhistory : t.history = s.history ++ more) (hnone : ∀ x, .accepts x ∉ more) :
    Forwards cfg s t more :=
  forwards_of_kept (hmshr ▸ hm) hhistory hnone (fun _ => holdsWrite_of_eq hmshr hrequeued)

theorem holdsWrite_congr (h : cfg.geometry.SameLine a addr) (ha : s.HoldsWrite cfg a) :
    s.HoldsWrite cfg addr := by
  rcases ha with ⟨e, he, hwrite⟩ | ⟨p, hp, hwrite, hsame⟩
  · exact Or.inl ⟨e, (MSHR.waiting_congr (m := s.mshr) h) ▸ he, hwrite⟩
  · exact Or.inr ⟨p, hp, hwrite, hsame.trans h⟩

theorem forwards_addToMSHR (hm : s.mshr.WellFormed cfg.geometry.blockSizeBits)
    (event : AddressCarryingEvent C) : Forwards cfg s (s.addToMSHR cfg event) [] := by
  refine forwards_of_kept (MSHR.wellFormed_addToMSHR hm) (by simp [addToMSHR]) (by simp) ?_
  intro a ha
  rcases ha with ⟨e, he, hwrite⟩ | hrequeued
  · refine Or.inl ⟨e, ?_, hwrite⟩
    rw [addToMSHR, MSHR.waiting_addToMSHR hm]
    split
    · exact List.mem_append_left _ he
    · exact he
  · exact Or.inr hrequeued

/-- A write added to the register is held, be it merged or not. -/
theorem holdsWrite_addToMSHR (hm : s.mshr.WellFormed cfg.geometry.blockSizeBits)
    (hwrite : MSHR.isCacheWrite event = true) :
    (s.addToMSHR cfg event).HoldsWrite cfg event.address := by
  left
  rw [addToMSHR, MSHR.waiting_addToMSHR hm]
  cases hmerged : MSHR.isMerged (s.mshr.waiting cfg.geometry.blockSizeBits event.address) event with
  | false =>
    rw [if_pos ⟨rfl, rfl⟩]
    exact ⟨event, List.mem_append_right _ (List.mem_singleton_self _), hwrite⟩
  | true =>
    rw [if_neg (by simp)]
    rw [MSHR.isMerged, Bool.and_eq_true, Option.any_eq_true] at hmerged
    obtain ⟨last, hlast, hlastWrite⟩ := hmerged.2
    exact ⟨last, List.mem_of_getLast? hlast, hlastWrite⟩

theorem event_isCacheWrite (x : CacheAccess C) : MSHR.isCacheWrite x.event = x.isWrite := by
  unfold CacheAccess.event MSHR.isCacheWrite
  cases x.isWrite <;> rfl

theorem forwards_record {r : CacheRecord C} (hm : s.mshr.WellFormed cfg.geometry.blockSizeBits)
    (h : ∀ x, r ≠ .accepts x) : Forwards cfg s (s.record r) [r] :=
  forwards_of_eq hm rfl rfl rfl (fun x hx => h x (List.mem_singleton.mp hx).symm)

theorem forwards_sendWrite (hm : s.mshr.WellFormed cfg.geometry.blockSizeBits)
    (addr : Address) : Forwards cfg s (s.sendRequestToNextLevel addr true) [.writesBelow addr] :=
  forwards_record hm (fun _ h => by cases h)

theorem forwards_sendRead (hm : s.mshr.WellFormed cfg.geometry.blockSizeBits)
    (addr : Address) : Forwards cfg s (s.sendRequestToNextLevel addr false) [.readsBelow addr] :=
  forwards_of_eq hm rfl rfl rfl (by simp)

/-- A write that hits is forwarded at once. -/
theorem forwards_cacheHit (hthrough : cfg.writePolicy = .writeThrough)
    (hm : s.mshr.WellFormed cfg.geometry.blockSizeBits) (x : CacheAccess C) (state : MESI) :
    ∃ more, Forwards cfg s (s.cacheHit cfg x state) more ∧
      (x.isWrite = true → WritesBelow cfg.geometry more x.address) := by
  unfold cacheHit
  split
  · dsimp only
    have hsent : Forwards cfg s _ _ := forwards_sendWrite hm x.address
    have hbelow : WritesBelow cfg.geometry [.writesBelow (C := C) x.address] x.address :=
      ⟨x.address, List.mem_singleton_self _, cfg.geometry.sameLine_refl _⟩
    split
    · have htold := hsent.trans (forwards_record hsent.mshr
        (r := .tellsDirectory (.directoryWriteHit cfg.self) x.address) (fun _ h => by cases h))
      exact ⟨_, htold.trans (forwards_addToMSHR htold.mshr x.event),
        fun _ => hbelow.append_right.append_right⟩
    · exact ⟨_, hsent.trans (forwards_record hsent.mshr (r := .writesLine x.address)
        (fun _ h => by cases h)), fun _ => hbelow.append_right⟩
  · rename_i hread
    exact ⟨_, forwards_record hm (fun _ h => by cases h), fun hwrite => absurd hwrite hread⟩

/-- A write that misses is held by the register. -/
theorem forwards_cacheMiss (hm : s.mshr.WellFormed cfg.geometry.blockSizeBits)
    (x : CacheAccess C) : ∃ more, Forwards cfg s (s.cacheMiss cfg x) more ∧
      (x.isWrite = true → (s.cacheMiss cfg x).HoldsWrite cfg x.address) := by
  unfold cacheMiss
  dsimp only
  split
  · have htold : Forwards cfg s _ _ := forwards_record hm (r := .tellsDirectory
      (if x.isWrite then .directoryWriteMiss cfg.self else .directoryReadMiss cfg.self) x.address)
      (fun _ h => by cases h)
    refine ⟨_, htold.trans (forwards_addToMSHR htold.mshr x.event), ?_⟩
    intro hwrite
    exact holdsWrite_addToMSHR htold.mshr ((event_isCacheWrite x).trans hwrite)
  · have hsent : Forwards cfg s _ _ := forwards_sendRead hm x.address
    refine ⟨_, hsent.trans (forwards_addToMSHR hsent.mshr x.event), ?_⟩
    intro hwrite
    exact holdsWrite_addToMSHR hsent.mshr ((event_isCacheWrite x).trans hwrite)

/-- A request is forwarded, or held by the register. -/
theorem forwards_handleRequest (hthrough : cfg.writePolicy = .writeThrough)
    (hm : s.mshr.WellFormed cfg.geometry.blockSizeBits) (x : CacheAccess C) :
    ∃ more, Forwards cfg s (s.handleRequest cfg x) (.accepts x :: more) ∧
      (x.isWrite = true → (s.handleRequest cfg x).HoldsWrite cfg x.address ∨
        WritesBelow cfg.geometry more x.address) := by
  obtain ⟨more, hforwards, hcovered⟩ : ∃ more,
      Forwards cfg (s.record (.accepts x)) (s.handleRequest cfg x) more ∧
        (x.isWrite = true → (s.handleRequest cfg x).HoldsWrite cfg x.address ∨
          WritesBelow cfg.geometry more x.address) := by
    have hm' : (s.record (.accepts x)).mshr.WellFormed cfg.geometry.blockSizeBits := hm
    unfold handleRequest
    split
    · refine ⟨[], forwards_addToMSHR hm' x.event, ?_⟩
      intro hwrite
      exact Or.inl (holdsWrite_addToMSHR hm' ((event_isCacheWrite x).trans hwrite))
    · unfold handleAccess
      split
      · rename_i i lines _
        obtain ⟨more, hhit, hbelow⟩ := forwards_cacheHit hthrough
          (s := { s.record (.accepts x) with lines := lines }) hm' x
          ((s.record (.accepts x)).lines.lines i).state
        exact ⟨more, ⟨hhit.mshr, hhit.history, hhit.kept, hhit.settled⟩,
          fun hwrite => Or.inr (hbelow hwrite)⟩
      · rename_i lines _
        obtain ⟨more, hmiss, hheld⟩ := forwards_cacheMiss
          (s := { s.record (.accepts x) with lines := lines }) hm' x
        exact ⟨more, ⟨hmiss.mshr, hmiss.history, hmiss.kept, hmiss.settled⟩,
          fun hwrite => Or.inl (hheld hwrite)⟩
  refine ⟨more, ⟨hforwards.mshr, ?_, ?_, hcovered, hforwards.settled⟩, hcovered⟩
  · rw [hforwards.history]
    simp [record]
  · intro a ha
    exact (hforwards.kept a ha).imp_right (WritesBelow.append_left [.accepts x])

theorem forwards_pendingList (hthrough : cfg.writePolicy = .writeThrough)
    (hm : s.mshr.WellFormed cfg.geometry.blockSizeBits) :
    ∃ more, Forwards cfg s (s.processEventsInPendingList cfg) more := by
  refine pendingLoop_keeps (I := fun t => ∃ more, Forwards cfg s t more) cfg ?_ ?_ _ _ ?_
  · intro u a hu
    obtain ⟨more, hforwards⟩ := hu
    exact ⟨_, hforwards.trans (forwards_of_eq hforwards.mshr rfl rfl
      (List.append_nil _).symm (by simp))⟩
  · intro u a hu
    obtain ⟨more, hforwards⟩ := hu
    obtain ⟨more', hhandled, -⟩ := forwards_handleRequest hthrough hforwards.mshr a
    exact ⟨_, hforwards.trans hhandled⟩
  · exact ⟨[], forwards_of_eq hm rfl rfl (List.append_nil _).symm (by simp)⟩

theorem noWriteBefore_of_waiting (hgood : s.NoWriteBeforeEviction)
    (h : s.mshr.removeEventsFromMSHR cfg.geometry.blockSizeBits addr = some (missList, m)) :
    writeBeforeEviction missList = false := by
  obtain ⟨l, hl, heq⟩ := Option.map_eq_some_iff.mp h
  cases heq
  exact hgood _ (MSHR.getWaiting_eq_some hl).1

/-- The list of a line is served: its writes are forwarded or put back. -/
theorem forwards_processEventsInMSHR (hthrough : cfg.writePolicy = .writeThrough)
    (hm : s.mshr.WellFormed cfg.geometry.blockSizeBits) (hgood : s.NoWriteBeforeEviction)
    (h : s.processEventsInMSHR cfg addr = some t) : ∃ more, Forwards cfg s t more := by
  unfold processEventsInMSHR at h
  split at h
  · cases h
  · rename_i missList m hremoved
    obtain ⟨u, hprocessed, rfl⟩ := Option.map_eq_some_iff.mp h
    obtain ⟨more, hserves⟩ := processEvents_serves hprocessed
    obtain ⟨hwaiting, hm', hothers⟩ := MSHR.removeEvents_spec hm hremoved
    have hlist := noWriteBefore_of_waiting hgood hremoved
    have hserved : Forwards cfg s u more := by
      refine ⟨hserves.mshr ▸ hm', hserves.history, ?_, settled_of_none hserves.accepts⟩
      intro a ha
      rcases ha with ⟨e, he, hwrite⟩ | ⟨p, hp, hwrite, hsame⟩
      · by_cases hline : cfg.geometry.SameLine a addr
        · rw [MSHR.waiting_congr hline, hwaiting] at he
          rcases hserves.write_kept hthrough hlist he ((isCacheWrite_eq e).symm.trans hwrite) with
            hbelow | ⟨p, hp, rfl⟩
          · exact Or.inr ⟨addr, hbelow, hline.symm⟩
          · have hofLine := MSHR.waiting_line hm (hwaiting.symm ▸ he)
            exact Or.inl (Or.inr ⟨p, hp, hwrite, hofLine.trans hline.symm⟩)
        · refine Or.inl (Or.inl ⟨e, ?_, hwrite⟩)
          have hother : u.mshr.waiting cfg.geometry.blockSizeBits a =
              s.mshr.waiting cfg.geometry.blockSizeBits a := by
            rw [hserves.mshr, hothers]
            exact if_neg hline
          rw [hother]
          exact he
      · refine Or.inl (Or.inr ⟨p, ?_, hwrite, hsame⟩)
        rw [hserves.putBack]
        exact List.mem_append_left _ hp
    obtain ⟨more', hpending⟩ := forwards_pendingList hthrough hserved.mshr
    exact ⟨_, hserved.trans hpending⟩

theorem forwards_updateState (hm : s.mshr.WellFormed cfg.geometry.blockSizeBits)
    {newState : MESI} (h : s.updateStateOfCacheLine cfg addr newState = some t) :
    ∃ more, Forwards cfg s t more := by
  have hupdate := updateStateOfCacheLine_eq_some h
  obtain ⟨notes, hnotes, hkind⟩ := hupdate.history
  refine ⟨notes, forwards_of_eq hm hupdate.mshr hupdate.requeued hnotes ?_⟩
  intro x hx
  rcases hkind _ hx with hnotice | hleaves
  · cases hnotice
  · cases hleaves.1

/-- A victim enters the register as the first event of its line. -/
theorem noWriteBefore_addToMSHR (event : AddressCarryingEvent C) (hgood : s.NoWriteBeforeEviction)
    (hm : s.mshr.WellFormed cfg.geometry.blockSizeBits)
    (hunlocked : s.isAddrInMSHR cfg event.address = false)
    (hevict : event.missKind.isEviction = true) :
    (s.addToMSHR cfg event).NoWriteBeforeEviction := by
  have hnone : s.mshr.getWaitingEventsInMSHR cfg.geometry.blockSizeBits event.address = none :=
    (MSHR.waiting_eq_nil_iff hm).mp ((MSHR.isAddrInMSHR_eq_false_iff hm).mp hunlocked)
  intro missList hmem
  unfold addToMSHR MSHR.addToMSHR at hmem
  rw [hnone] at hmem
  rcases List.mem_append.mp hmem with hmem | hmem
  · exact hgood missList hmem
  · rw [List.mem_singleton.mp hmem, writeBeforeEviction, beforeEviction]
    simp [hevict, hasWrite]

theorem noWriteBefore_handleEvictedLine (hm : s.mshr.WellFormed cfg.geometry.blockSizeBits)
    (hgood : s.NoWriteBeforeEviction) {evictedLine : Option (CacheLine Unit)}
    (h : s.handleEvictedLine cfg evictedLine = some t) : t.NoWriteBeforeEviction := by
  rcases handleEvictedLine_mshr h with heq | ⟨victim, -, -, hunlocked, heq⟩
  · intro missList hmem
    rw [heq] at hmem
    exact hgood missList hmem
  · have hadded := noWriteBefore_addToMSHR
      ⟨.toDirectory (.directoryEvictedFromCoherentCache cfg.self), victim.address⟩ hgood hm
      hunlocked rfl
    intro missList hmem
    rw [heq] at hmem
    exact hadded missList hmem

/-- The replacement of a line loses no waiting write, and a write-back cache without a
directory writes a modified line. -/
theorem forwards_handleEvictedLine (hm : s.mshr.WellFormed cfg.geometry.blockSizeBits)
    {evictedLine : Option (CacheLine Unit)} (h : s.handleEvictedLine cfg evictedLine = some t) :
    ∃ more, Forwards cfg s t more ∧ (cfg.coherent = false → cfg.writePolicy = .writeBack →
      ∀ victim ∈ evictedLine, victim.state = .modified → .writesBelow victim.address ∈ more) := by
  unfold handleEvictedLine at h
  split at h
  · cases h
    exact ⟨[], forwards_of_eq hm rfl rfl (List.append_nil _).symm (by simp), by simp⟩
  · rename_i victim
    split at h
    · rename_i hinvalid
      cases h
      refine ⟨[], forwards_of_eq hm rfl rfl (List.append_nil _).symm (by simp), ?_⟩
      intro _ _ victim' hvictim hmodified
      cases hvictim
      rw [hinvalid] at hmodified
      cases hmodified
    · split at h
      · cases h
      · split at h
        · rename_i hcoherent
          cases h
          have htold : Forwards cfg s _ _ := forwards_record hm (r := .tellsDirectory
            (.directoryEvictedFromCoherentCache cfg.self) victim.address) (fun _ h => by cases h)
          have hadded := htold.trans (forwards_addToMSHR htold.mshr
            ⟨.toDirectory (.directoryEvictedFromCoherentCache cfg.self), victim.address⟩)
          refine ⟨_, hadded.trans (forwards_record hadded.mshr (fun _ h => by cases h)), ?_⟩
          intro hcoherent'
          rw [hcoherent] at hcoherent'
          cases hcoherent'
        · cases h
          split
          · have hsent : Forwards cfg s _ _ := forwards_sendWrite hm victim.address
            refine ⟨_, hsent.trans (forwards_record hsent.mshr (fun _ h => by cases h)), ?_⟩
            intro _ _ victim' hvictim _
            cases hvictim
            exact List.mem_append_left _ (List.mem_singleton_self _)
          · rename_i hclean
            refine ⟨_, forwards_record hm (fun _ h => by cases h), ?_⟩
            intro _ hback victim' hvictim hmodified
            cases hvictim
            exact absurd ⟨hmodified, hback⟩ hclean

theorem forwards_handleMemResponse (hthrough : cfg.writePolicy = .writeThrough)
    (hm : s.mshr.WellFormed cfg.geometry.blockSizeBits) (hgood : s.NoWriteBeforeEviction)
    (h : s.handleMemResponse cfg event = some t) : ∃ more, Forwards cfg s t more := by
  unfold handleMemResponse at h
  split at h
  · unfold fillAndSatisfyRequests at h
    split at h
    · cases h
    · rename_i lines evictedLine _
      obtain ⟨u, hevicted, hprocessed⟩ := Option.bind_eq_some_iff.mp h
      obtain ⟨more, hforwards, -⟩ :=
        forwards_handleEvictedLine (s := { s with lines := lines }) hm hevicted
      have hgood' : u.NoWriteBeforeEviction :=
        noWriteBefore_handleEvictedLine (s := { s with lines := lines }) hm hgood hevicted
      obtain ⟨more', hserved⟩ :=
        forwards_processEventsInMSHR hthrough hforwards.mshr hgood' hprocessed
      have hfilled : Forwards cfg s u more :=
        ⟨hforwards.mshr, hforwards.history, hforwards.kept, hforwards.settled⟩
      exact ⟨_, hfilled.trans hserved⟩
  · cases h
    exact ⟨[], forwards_of_eq hm rfl rfl (List.append_nil _).symm (by simp)⟩

/-- An event forwards what it takes out of the register, and holds or forwards the write
it is. -/
theorem forwards_handleEvent (hthrough : cfg.writePolicy = .writeThrough)
    (hm : s.mshr.WellFormed cfg.geometry.blockSizeBits) (hgood : s.NoWriteBeforeEviction)
    (h : s.handleEvent cfg event = some t) :
    ∃ more, Forwards cfg s t more ∧ (MSHR.isCacheWrite event = true →
      t.HoldsWrite cfg event.address ∨ WritesBelow cfg.geometry more event.address) := by
  obtain ⟨request, address⟩ := event
  unfold handleEvent at h
  have hother : (∃ more, Forwards cfg s t more) →
      MSHR.isCacheWrite (⟨request, address⟩ : AddressCarryingEvent C) = false →
      ∃ more, Forwards cfg s t more ∧
        (MSHR.isCacheWrite (⟨request, address⟩ : AddressCarryingEvent C) = true →
          t.HoldsWrite cfg address ∨ WritesBelow cfg.geometry more address) := by
    intro hforwards hread
    obtain ⟨more, hforwards⟩ := hforwards
    refine ⟨more, hforwards, ?_⟩
    intro hwrite
    rw [hread] at hwrite
    cases hwrite
  split at h
  · rename_i c heq
    dsimp only at heq h
    cases heq
    cases h
    obtain ⟨more, hforwards, -⟩ := forwards_handleRequest hthrough hm ⟨c, false, address⟩
    exact hother ⟨_, hforwards⟩ rfl
  · rename_i c heq
    dsimp only at heq h
    cases heq
    cases h
    obtain ⟨more, hforwards, hcovered⟩ := forwards_handleRequest hthrough hm ⟨c, true, address⟩
    exact ⟨_, hforwards, fun _ => (hcovered rfl).imp_right
      (WritesBelow.append_left [.accepts ⟨c, true, address⟩])⟩
  · rename_i heq
    dsimp only at heq h
    cases heq
    apply hother _ rfl
    split at h
    · cases h
      exact ⟨_, forwards_addToMSHR hm _⟩
    · exact forwards_updateState hm h
  · rename_i heq
    dsimp only at heq
    cases heq
    exact hother (forwards_handleMemResponse hthrough hm hgood h) rfl
  · rename_i heq
    dsimp only at heq
    cases heq
    exact hother (forwards_handleMemResponse hthrough hm hgood h) rfl
  · rename_i heq
    dsimp only at heq
    cases heq
    exact hother (forwards_processEventsInMSHR hthrough hm hgood h) rfl
  · rename_i heq
    dsimp only at heq
    cases heq
    apply hother _ rfl
    obtain ⟨u, hupdate, rfl⟩ := Option.map_eq_some_iff.mp h
    obtain ⟨more, hforwards⟩ := forwards_updateState hm hupdate
    exact ⟨_, hforwards.trans (forwards_record hforwards.mshr (fun _ h => by cases h))⟩
  · rename_i heq
    dsimp only at heq
    cases heq
    exact hother (forwards_updateState hm h) rfl
  · rename_i heq
    dsimp only at heq
    cases heq
    apply hother _ rfl
    unfold handleAckDirectoryWriteHit at h
    split at h
    · cases h
    · exact forwards_processEventsInMSHR hthrough hm hgood h
  · rename_i hread hwrite _ _ _ _ _ _ _
    cases h
    apply hother ⟨[], forwards_of_eq hm rfl rfl (List.append_nil _).symm (by simp)⟩
    cases request with
    | cacheWrite c => exact absurd rfl (hwrite c)
    | _ => rfl

/-- The accepted writes are held or have been forwarded. -/
structure Covered (cfg : HierarchyConfig C) (s : HierarchyCache C) : Prop where
  mshr : s.mshr.WellFormed cfg.geometry.blockSizeBits
  settled : Settled cfg.geometry (s.HoldsWrite cfg) s.history

theorem Covered.forwards (h : Covered cfg s) (hforwards : Forwards cfg s t more) :
    Covered cfg t where
  mshr := hforwards.mshr
  settled := by
    rw [hforwards.history]
    exact h.settled.append hforwards.settled hforwards.kept

theorem covered_initial : Covered cfg initial where
  mshr := MSHR.wellFormed_empty
  settled := trivial

theorem Covered.quiet (h : Covered cfg s) (hmshr : t.mshr = s.mshr)
    (hrequeued : t.requeued = s.requeued) (hhistory : t.history = s.history ++ more)
    (hnone : ∀ x, .accepts x ∉ more) : Covered cfg t :=
  h.forwards (forwards_of_eq h.mshr hmshr hrequeued hhistory hnone)

/-- A member is left after an erasure, or it is the erased one. -/
theorem mem_eraseIdx_or_eq {α : Type} {l : List α} {i : ℕ} {x y : α} (hx : l[i]? = some x)
    (hy : y ∈ l) : y ∈ l.eraseIdx i ∨ y = x := by
  obtain ⟨j, hj, rfl⟩ := List.getElem_of_mem hy
  by_cases heq : j = i
  · right
    subst heq
    rw [List.getElem?_eq_getElem hj] at hx
    exact Option.some.inj hx
  · left
    rw [List.mem_eraseIdx_iff_getElem]
    exact ⟨j, hj, heq, rfl⟩

theorem Covered.step (hthrough : cfg.writePolicy = .writeThrough) (h : Covered cfg s)
    (hgood : s.NoWriteBeforeEviction) (hstep : Step cfg s label t) : Covered cfg t := by
  cases label with
  | request x =>
    cases hstep
    unfold addEventAtLowerCache
    split
    · have hhistory : s.history ++ [.requested x] = s.history ++ [.requested x] := rfl
      exact h.quiet rfl rfl hhistory (by simp)
    · have hhistory : s.history ++ [.requested x] = s.history ++ [.requested x] := rfl
      exact h.quiet rfl rfl hhistory (by simp)
  | post event =>
    cases hstep
    exact h.quiet rfl rfl (List.append_nil _).symm (by simp)
  | answer i =>
    unfold Step StepOf next at hstep
    dsimp only at hstep
    split at hstep
    · cases hstep
    · cases hstep
      exact h.quiet rfl rfl (List.append_nil _).symm (by simp)
  | deliver i =>
    unfold Step StepOf next at hstep
    dsimp only at hstep
    split at hstep
    · cases hstep
    · have htaken : Covered cfg { s with queue := s.queue.eraseIdx i } :=
        h.quiet rfl rfl (List.append_nil _).symm (by simp)
      obtain ⟨more, hforwards, -⟩ := forwards_handleEvent hthrough htaken.mshr hgood hstep
      exact htaken.forwards hforwards
  | redeliver i =>
    unfold Step StepOf next at hstep
    dsimp only at hstep
    split at hstep
    · cases hstep
    · rename_i time event hfound
      obtain ⟨more, hforwards, hcovered⟩ := forwards_handleEvent
        (s := { s with requeued := s.requeued.eraseIdx i }) hthrough h.mshr hgood hstep
      refine h.forwards ⟨hforwards.mshr, hforwards.history, ?_, hforwards.settled⟩
      intro a ha
      rcases ha with hwaiting | ⟨p, hp, hwrite, hsame⟩
      · exact hforwards.kept a (Or.inl hwaiting)
      · rcases mem_eraseIdx_or_eq hfound hp with hrest | rfl
        · exact hforwards.kept a (Or.inr ⟨p, hrest, hwrite, hsame⟩)
        · -- the event that is handled again is the one looked for
          rcases hcovered hwrite with hheld | ⟨b, hb, hline⟩
          · exact Or.inl (holdsWrite_congr hsame hheld)
          · exact Or.inr ⟨b, hb, hline.trans hsame⟩
  | setState addr state =>
    unfold Step StepOf next at hstep
    dsimp only at hstep
    split at hstep
    · cases hstep
    · obtain ⟨more, hforwards⟩ := forwards_updateState h.mshr hstep
      exact h.forwards hforwards

/-- A write-through cache serves a list of waiting events in order exactly if no write
stands before an eviction in it. In a run in which the register never holds such a list,
every accepted write is followed by a write of its line to the next level, or still waits
in the register or in the event queue. -/
theorem writes_forwarded (hthrough : cfg.writePolicy = .writeThrough) :
    (∀ (s : HierarchyCache C) (addr : Address) (missList : List (AddressCarryingEvent C)),
      (s.lines.accessValid cfg.geometry addr).isSome → s.isAddrInMSHR cfg addr = false →
      ∃ t, processEvents cfg addr missList false s missList = some t ∧
        (ServedInOrder addr missList s t ↔ writeBeforeEviction missList = false)) ∧
    ∀ (labels : List (Action C)) (s : HierarchyCache C),
      Run (Guarded (Step cfg) fun s _ => s.NoWriteBeforeEviction) initial labels s →
      ∀ before x after, s.history = before ++ .accepts x :: after → x.isWrite = true →
        s.HoldsWrite cfg x.address ∨ WritesBelow cfg.geometry after x.address := by
  constructor
  · intro s addr missList hvalid hunlocked
    have hsome : ∃ t, processEvents cfg addr missList false s missList = some t :=
      processEvents_isSome hvalid hunlocked
    obtain ⟨t, ht⟩ := hsome
    exact ⟨t, ht, processEvents_servedInOrder_iff hthrough ht⟩
  · intro labels s run before x after hhistory hwrite
    have hcovered : Covered cfg s :=
      run.invariant covered_initial (fun _ _ _ h hstep => h.step hthrough hstep.1 hstep.2)
    have hsettled := hcovered.settled
    rw [hhistory] at hsettled
    exact hsettled.accepted hwrite

instance : Decidable s.NoWriteBeforeEviction :=
  inferInstanceAs (Decidable (∀ missList ∈ s.mshr.missRegister, _))

instance : Decidable (s.HoldsWrite cfg addr) := inferInstanceAs (Decidable (_ ∨ _))

/-- A first-level write-through cache with two lines of 64 bytes. -/
def smallCache : HierarchyConfig Unit where
  self := ()
  geometry := ⟨0, 6, 2, Nat.two_pos, Geometry.oneSet_bits⟩
  writePolicy := .writeThrough
  mshrMaxSize := 4
  coherent := false
  belowCoherenceLevel := false
  topLevelCache := true

/-- A write that misses is forwarded once its line has come. -/
theorem smallCache_forwards :
    ∃ s : HierarchyCache Unit,
      s.history = [.requested ⟨(), true, 0⟩, .accepts ⟨(), true, 0⟩, .readsBelow 0,
        .writesLine 0, .writesBelow 0] ∧
      (s.HoldsWrite smallCache 0 ∨
        WritesBelow smallCache.geometry (C := Unit)
          [.readsBelow 0, .writesLine 0, .writesBelow 0] 0) := by
  have hrun : (exec
      (fun s a => if NoWriteBeforeEviction s then next smallCache s a else none) initial
      [.request ⟨(), true, 0⟩, .deliver 0, .answer 0, .deliver 0]).any
        (fun s => s.history = [.requested ⟨(), true, 0⟩, .accepts ⟨(), true, 0⟩, .readsBelow 0,
          .writesLine 0, .writesBelow 0]) = true := by decide
  obtain ⟨s, hexec, hs⟩ := (Option.any_eq_true _ _).mp hrun
  have hhistory := of_decide_eq_true hs
  exact ⟨s, hhistory, (writes_forwarded rfl).2 _ s (guarded_run_of_exec hexec)
    [.requested ⟨(), true, 0⟩] ⟨(), true, 0⟩ _ hhistory rfl⟩

/-- A write that waits before an eviction is never forwarded. -/
theorem write_before_eviction_lost :
    ¬ ∀ (cfg : HierarchyConfig Unit) (labels : List (Action Unit)) (s : HierarchyCache Unit),
      cfg.writePolicy = .writeThrough → Run (Step cfg) initial labels s →
        ∀ before x after, s.history = before ++ .accepts x :: after → x.isWrite = true →
          s.HoldsWrite cfg x.address ∨ WritesBelow cfg.geometry after x.address := by
  intro hclaim
  have hrun : (exec (next smallCache) initial
      [.request ⟨(), true, 0⟩, .deliver 0, .post ⟨.fromDirectory (.evictCacheLine ()), 0⟩,
        .deliver 0, .answer 0, .deliver 0]).any
        (fun s => decide (s.history = [.requested ⟨(), true, 0⟩, .accepts ⟨(), true, 0⟩,
          .readsBelow 0, .writesLine 0, .evictsAbove 0, .leaves 0] ∧
          ¬ s.HoldsWrite smallCache 0)) = true := by decide
  obtain ⟨s, hexec, hs⟩ := (Option.any_eq_true _ _).mp hrun
  obtain ⟨hhistory, hlost⟩ := of_decide_eq_true hs
  rcases hclaim smallCache _ s rfl (run_of_exec hexec) [.requested ⟨(), true, 0⟩]
    ⟨(), true, 0⟩ _ hhistory rfl with hheld | ⟨b, hb, -⟩
  · exact hlost hheld
  · simp at hb

end Tejas.HierarchyCache
