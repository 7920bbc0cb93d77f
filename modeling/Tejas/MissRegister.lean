import Tejas.CoherenceEvents
import Mathlib.Data.List.Nodup

/-!
# Miss status holding registers

`MSHR.java` keeps, for each line with an outstanding request, the list of the events
that wait for it. A write that would follow a write is merged into it.
-/

namespace Tejas

structure MSHR (C : Type) where
  missRegister : List (List (AddressCarryingEvent C))
  mshrSize : ℕ

namespace MSHR

variable {C : Type} {m : MSHR C} {b : ℕ} {a addr : Address} {event : AddressCarryingEvent C}
  {lists : List (List (AddressCarryingEvent C))} {missList : List (AddressCarryingEvent C)}

def empty : MSHR C := ⟨[], 0⟩

/-- The line of a list is that of its first event. -/
def lineOf (b : ℕ) (missList : List (AddressCarryingEvent C)) : Option Address :=
  missList.head?.map (fun e => getLineAddr b e.address)

def holdsLine (b : ℕ) (addr : Address) (missList : List (AddressCarryingEvent C)) : Bool :=
  lineOf b missList = some (getLineAddr b addr)

def getWaitingEventsInMSHR (m : MSHR C) (b : ℕ) (addr : Address) :
    Option (List (AddressCarryingEvent C)) :=
  m.missRegister.find? (holdsLine b addr)

def isAddrInMSHR (m : MSHR C) (b : ℕ) (addr : Address) : Bool :=
  if m.mshrSize = 0 then false else (m.getWaitingEventsInMSHR b addr).isSome

/-- `missList.add(event)` on the list `getWaitingEventsInMSHR` finds. -/
def addWaiting (b : ℕ) (event : AddressCarryingEvent C) :
    List (List (AddressCarryingEvent C)) → List (List (AddressCarryingEvent C))
  | [] => []
  | missList :: rest =>
    if holdsLine b event.address missList then (missList ++ [event]) :: rest
    else missList :: addWaiting b event rest

def isCacheWrite (event : AddressCarryingEvent C) : Bool :=
  match event.request with
  | .cacheWrite _ => true
  | _ => false

/-- A write after a write. -/
def isMerged (missList : List (AddressCarryingEvent C)) (event : AddressCarryingEvent C) : Bool :=
  isCacheWrite event && missList.getLast?.any isCacheWrite

def addToMSHR (m : MSHR C) (b : ℕ) (event : AddressCarryingEvent C) : MSHR C :=
  match m.getWaitingEventsInMSHR b event.address with
  | some missList =>
    if isMerged missList event then m
    else ⟨addWaiting b event m.missRegister, m.mshrSize + 1⟩
  | none => ⟨m.missRegister ++ [[event]], m.mshrSize + 1⟩

/-- The events of a line and the register without them; `none` is the exit "No pending
event in MSHR". -/
def removeEventsFromMSHR (m : MSHR C) (b : ℕ) (addr : Address) :
    Option (List (AddressCarryingEvent C) × MSHR C) :=
  (m.getWaitingEventsInMSHR b addr).map (fun missList =>
    (missList, ⟨m.missRegister.eraseP (holdsLine b addr), m.mshrSize - missList.length⟩))

/-- The events waiting for the line of an address. -/
def waiting (m : MSHR C) (b : ℕ) (addr : Address) : List (AddressCarryingEvent C) :=
  (m.getWaitingEventsInMSHR b addr).getD []

/-- Lists are not empty, hold events of one line each, and no two stand for one line. -/
structure WellFormed (m : MSHR C) (b : ℕ) : Prop where
  ofLine : ∀ missList ∈ m.missRegister, ∀ e ∈ missList,
    lineOf b missList = some (getLineAddr b e.address)
  nonempty : ∀ missList ∈ m.missRegister, missList ≠ []
  distinct : (m.missRegister.map (lineOf b)).Nodup
  size : m.mshrSize = (m.missRegister.map List.length).sum

theorem wellFormed_empty : (empty : MSHR C).WellFormed b where
  ofLine := by simp [empty]
  nonempty := by simp [empty]
  distinct := by simp [empty]
  size := by simp [empty]

theorem holdsLine_congr (h : getLineAddr b a = getLineAddr b addr) :
    holdsLine (C := C) b a = holdsLine b addr := by
  funext missList
  rw [holdsLine, holdsLine, h]

theorem waiting_congr (h : getLineAddr b a = getLineAddr b addr) :
    m.waiting b a = m.waiting b addr := by
  rw [waiting, waiting, getWaitingEventsInMSHR, getWaitingEventsInMSHR, holdsLine_congr h]

/-- The list found for an address is one of the register, and holds its line. -/
theorem getWaiting_eq_some (h : m.getWaitingEventsInMSHR b addr = some missList) :
    missList ∈ m.missRegister ∧ lineOf b missList = some (getLineAddr b addr) :=
  ⟨List.mem_of_find?_eq_some h, by simpa [holdsLine] using List.find?_some h⟩

theorem waiting_eq_nil_iff (hm : m.WellFormed b) :
    m.waiting b addr = [] ↔ m.getWaitingEventsInMSHR b addr = none := by
  rw [waiting]
  cases h : m.getWaitingEventsInMSHR b addr with
  | none => simp
  | some missList => simpa using hm.nonempty missList (getWaiting_eq_some h).1

/-- What waits for a line is of that line. -/
theorem waiting_line (hm : m.WellFormed b) (h : event ∈ m.waiting b addr) :
    getLineAddr b event.address = getLineAddr b addr := by
  rw [waiting] at h
  cases hfound : m.getWaitingEventsInMSHR b addr with
  | none =>
    rw [hfound] at h
    cases h
  | some missList =>
    rw [hfound] at h
    obtain ⟨hmem, hline⟩ := getWaiting_eq_some hfound
    exact Option.some.inj ((hm.ofLine missList hmem event h).symm.trans hline)

theorem length_le_total (h : missList ∈ lists) :
    missList.length ≤ (lists.map List.length).sum := by
  induction lists with
  | nil => cases h
  | cons l rest ih =>
    rw [List.map_cons, List.sum_cons]
    rcases List.mem_cons.mp h with rfl | h
    · omega
    · have := ih h
      omega

/-- The size test of `isAddrInMSHR` is only a shortcut. -/
theorem isAddrInMSHR_iff (hm : m.WellFormed b) :
    m.isAddrInMSHR b addr = true ↔ m.waiting b addr ≠ [] := by
  rw [Ne, waiting_eq_nil_iff hm, isAddrInMSHR]
  cases h : m.getWaitingEventsInMSHR b addr with
  | none => simp
  | some missList =>
    have hmem := (getWaiting_eq_some h).1
    have hlen : 0 < missList.length := List.length_pos_of_ne_nil (hm.nonempty missList hmem)
    have hle : missList.length ≤ m.mshrSize := by
      rw [hm.size]
      exact length_le_total hmem
    have hpos : m.mshrSize ≠ 0 := by omega
    simp [hpos]

theorem isAddrInMSHR_eq_false_iff (hm : m.WellFormed b) :
    m.isAddrInMSHR b addr = false ↔ m.waiting b addr = [] := by
  rw [← Bool.not_eq_true, isAddrInMSHR_iff hm, not_not]

theorem lineOf_append (hne : missList ≠ []) :
    lineOf b (missList ++ [event]) = lineOf b missList := by
  cases missList with
  | nil => exact absurd rfl hne
  | cons e rest => rfl

/-! ### Adding an event -/

theorem addWaiting_lines (hne : ∀ missList ∈ lists, missList ≠ []) :
    (addWaiting b event lists).map (lineOf b) = lists.map (lineOf b) := by
  induction lists with
  | nil => rfl
  | cons missList rest ih =>
    rw [addWaiting]
    split
    · rw [List.map_cons, lineOf_append (hne missList List.mem_cons_self), List.map_cons]
    · rw [List.map_cons, List.map_cons,
        ih (fun l hl => hne l (List.mem_cons_of_mem _ hl))]

theorem addWaiting_size (h : (lists.find? (holdsLine b event.address)).isSome) :
    ((addWaiting b event lists).map List.length).sum = (lists.map List.length).sum + 1 := by
  induction lists with
  | nil => simp at h
  | cons missList rest ih =>
    rw [addWaiting]
    split
    · simp
      omega
    · rename_i hnot
      rw [List.find?_cons_of_neg hnot] at h
      simp only [List.map_cons, List.sum_cons, ih h]
      omega

theorem mem_addWaiting (h : missList ∈ addWaiting b event lists) :
    missList ∈ lists ∨ ∃ l ∈ lists, holdsLine b event.address l ∧ missList = l ++ [event] := by
  induction lists with
  | nil => simp [addWaiting] at h
  | cons l rest ih =>
    rw [addWaiting] at h
    split at h
    · rename_i hl
      rcases List.mem_cons.mp h with rfl | h
      · exact Or.inr ⟨l, List.mem_cons_self, hl, rfl⟩
      · exact Or.inl (List.mem_cons_of_mem _ h)
    · rcases List.mem_cons.mp h with rfl | h
      · exact Or.inl List.mem_cons_self
      · rcases ih h with h | ⟨l', hl', hrest⟩
        · exact Or.inl (List.mem_cons_of_mem _ h)
        · exact Or.inr ⟨l', List.mem_cons_of_mem _ hl', hrest⟩

theorem find?_addWaiting (hne : ∀ missList ∈ lists, missList ≠ []) :
    (addWaiting b event lists).find? (holdsLine b addr) =
      (lists.find? (holdsLine b addr)).map (fun missList =>
        if getLineAddr b addr = getLineAddr b event.address then missList ++ [event]
        else missList) := by
  induction lists with
  | nil => rfl
  | cons l rest ih =>
    have hl := hne l List.mem_cons_self
    have hrest := ih (fun l' hl' => hne l' (List.mem_cons_of_mem _ hl'))
    have happ : holdsLine b addr (l ++ [event]) = holdsLine b addr l := by
      rw [holdsLine, holdsLine, lineOf_append hl]
    rw [addWaiting]
    by_cases hsame : getLineAddr b addr = getLineAddr b event.address
    · rw [← holdsLine_congr hsame]
      cases hh : holdsLine b addr l with
      | true => simp [happ, hh, hsame]
      | false =>
        rw [if_neg (by simp), List.find?_cons_of_neg (by simp [hh]),
          List.find?_cons_of_neg (by simp [hh]), hrest]
    · split
      · rename_i hh
        -- the list that grows is not the one looked for
        have hnot : holdsLine b addr l = false := by
          simp only [holdsLine, decide_eq_true_eq] at hh
          simp only [holdsLine, hh, decide_eq_false_iff_not, Option.some.injEq]
          exact fun heq => hsame heq.symm
        rw [List.find?_cons_of_neg (by simp [happ, hnot]),
          List.find?_cons_of_neg (by simp [hnot])]
        simp
      · cases hh : holdsLine b addr l with
        | true => simp [hh]
        | false =>
          rw [List.find?_cons_of_neg (by simp [hh]), List.find?_cons_of_neg (by simp [hh]), hrest]
          simp [hsame]

/-- What waits for a line after an event has been added. -/
theorem waiting_addToMSHR (hm : m.WellFormed b) :
    (m.addToMSHR b event).waiting b addr =
      if getLineAddr b addr = getLineAddr b event.address ∧
        isMerged (m.waiting b addr) event = false then m.waiting b addr ++ [event]
      else m.waiting b addr := by
  rw [addToMSHR]
  cases hw : m.getWaitingEventsInMSHR b event.address with
  | none =>
    by_cases hsame : getLineAddr b addr = getLineAddr b event.address
    · have hnone : m.getWaitingEventsInMSHR b addr = none := by
        rw [getWaitingEventsInMSHR, holdsLine_congr hsame]
        exact hw
      have hnil := (waiting_eq_nil_iff hm).mpr hnone
      rw [hnil]
      simp only [waiting, getWaitingEventsInMSHR] at hnone ⊢
      simp [List.find?_append, hnone, holdsLine, lineOf, hsame, isMerged]
    · simp only [hsame, false_and, if_false, waiting, getWaitingEventsInMSHR,
        List.find?_append]
      have hnot : holdsLine b addr [event] = false := by
        simp only [holdsLine, lineOf, List.head?_cons, Option.map_some, Option.some_inj,
          decide_eq_false_iff_not]
        exact fun heq => hsame heq.symm
      simp [hnot]
  | some missList =>
    have hwait : m.waiting b event.address = missList := by simp [waiting, hw]
    by_cases hsame : getLineAddr b addr = getLineAddr b event.address
    · rw [waiting_congr (m := m) hsame, hwait]
      simp only
      cases hmerged : isMerged missList event with
      | true => simp [waiting_congr hsame, hwait]
      | false =>
        have hfind : m.missRegister.find? (holdsLine b addr) = some missList := by
          rw [holdsLine_congr hsame]
          exact hw
        simp [hsame, waiting, getWaitingEventsInMSHR, find?_addWaiting hm.nonempty, hfind]
    · simp only
      cases hmerged : isMerged missList event with
      | true => simp [hsame]
      | false =>
        simp [hsame, waiting, getWaitingEventsInMSHR, find?_addWaiting hm.nonempty]

theorem wellFormed_addToMSHR (hm : m.WellFormed b) : (m.addToMSHR b event).WellFormed b := by
  rw [addToMSHR]
  cases hw : m.getWaitingEventsInMSHR b event.address with
  | none =>
    constructor
    case ofLine =>
      intro missList hmem e he
      rcases List.mem_append.mp hmem with hmem | hmem
      · exact hm.ofLine missList hmem e he
      · cases List.mem_singleton.mp hmem
        cases List.mem_singleton.mp he
        rfl
    case nonempty =>
      intro missList hmem
      rcases List.mem_append.mp hmem with hmem | hmem
      · exact hm.nonempty missList hmem
      · cases List.mem_singleton.mp hmem
        simp
    case distinct =>
      simp only [List.map_append, List.map_cons, List.map_nil]
      refine List.nodup_append.mpr ⟨hm.distinct, by simp, ?_⟩
      rintro x hx y hy rfl
      obtain ⟨l, hl, hlx⟩ := List.mem_map.mp hx
      rw [List.mem_singleton] at hy
      have hnot := List.find?_eq_none.mp hw l hl
      simp only [holdsLine, decide_eq_true_eq] at hnot
      exact hnot (hlx.trans hy)
    case size =>
      simp [hm.size]
  | some missList =>
    simp only
    split
    · exact hm
    · constructor
      case ofLine =>
        intro l hmem e he
        rcases mem_addWaiting hmem with hmem | ⟨l', hl', hholds, rfl⟩
        · exact hm.ofLine l hmem e he
        · rw [lineOf_append (hm.nonempty l' hl')]
          rcases List.mem_append.mp he with he | he
          · exact hm.ofLine l' hl' e he
          · cases List.mem_singleton.mp he
            simpa [holdsLine] using hholds
      case nonempty =>
        intro l hmem
        rcases mem_addWaiting hmem with hmem | ⟨l', -, -, rfl⟩
        · exact hm.nonempty l hmem
        · simp
      case distinct =>
        rw [addWaiting_lines hm.nonempty]
        exact hm.distinct
      case size =>
        simp only
        rw [addWaiting_size (by rw [← getWaitingEventsInMSHR, hw]; rfl), hm.size]

/-! ### Removing the events of a line -/

theorem removeEvents_spec {m' : MSHR C} (hm : m.WellFormed b)
    (h : m.removeEventsFromMSHR b addr = some (missList, m')) :
    m.waiting b addr = missList ∧ m'.WellFormed b ∧
      ∀ a, m'.waiting b a =
        if getLineAddr b a = getLineAddr b addr then [] else m.waiting b a := by
  obtain ⟨l, hl, heq⟩ := Option.map_eq_some_iff.mp h
  cases heq
  obtain ⟨hmem, hline⟩ := getWaiting_eq_some hl
  obtain ⟨x, before, after, hnot, hholds, hreg, herase⟩ :=
    List.exists_of_eraseP (p := holdsLine b addr) hmem (by simp [holdsLine, hline])
  -- the list erased is the one found
  have hx : x = missList := by
    have hfind := hl
    rw [getWaitingEventsInMSHR, hreg, List.find?_append] at hfind
    have hnone : before.find? (holdsLine b addr) = none :=
      List.find?_eq_none.mpr hnot
    simpa [hnone, hholds] using hfind
  subst hx
  have hdistinct := hm.distinct
  rw [hreg, List.map_append, List.map_cons, List.nodup_append] at hdistinct
  have hafter : ∀ l ∈ after, holdsLine b addr l = false := by
    intro l hl'
    simp only [holdsLine, decide_eq_false_iff_not]
    intro heq
    have hnodup := (List.nodup_cons.mp hdistinct.2.1).1
    exact hnodup (List.mem_map.mpr ⟨l, hl', by rw [heq, hline]⟩)
  refine ⟨by simp [waiting, hl], ⟨?_, ?_, ?_, ?_⟩, fun a => ?_⟩
  · exact fun l hl' => hm.ofLine l (List.mem_of_mem_eraseP hl')
  · exact fun l hl' => hm.nonempty l (List.mem_of_mem_eraseP hl')
  · exact hm.distinct.sublist (List.eraseP_sublist.map _)
  · simp only [hm.size, herase]
    rw [hreg]
    simp only [List.map_append, List.map_cons, List.sum_append, List.sum_cons]
    omega
  · rw [waiting, waiting, getWaitingEventsInMSHR, getWaitingEventsInMSHR]
    simp only [herase]
    by_cases hsame : getLineAddr b a = getLineAddr b addr
    · rw [if_pos hsame, holdsLine_congr hsame, List.find?_eq_none.mpr]
      · rfl
      · intro l hl'
        rcases List.mem_append.mp hl' with hl' | hl'
        · exact hnot l hl'
        · simp [hafter l hl']
    · rw [if_neg hsame, hreg, List.find?_append, List.find?_append]
      have hxa : holdsLine b a x = false := by
        simp only [holdsLine, hline, decide_eq_false_iff_not, Option.some.injEq]
        exact fun heq => hsame heq.symm
      rw [List.find?_cons_of_neg (by simp [hxa])]

theorem removeEvents_isSome (hm : m.WellFormed b) :
    (m.removeEventsFromMSHR b addr).isSome ↔ m.waiting b addr ≠ [] := by
  rw [Ne, waiting_eq_nil_iff hm, removeEventsFromMSHR]
  cases m.getWaitingEventsInMSHR b addr <;> simp

end MSHR

end Tejas
