import Tejas.FetchLogic

/-!
# Waiting at sync instructions

An abstract machine says what waiting is: a core that waits at an address does nothing
until it takes a signal for that address or the barrier at that address is
released, and signals are kept until they are taken. The history of the fetch stage
is a history of this machine as long as the stage stops at a sync instruction.
-/

namespace Tejas
open LabelledRuns JavaHashtable

/-- What a core waits for, and the signals that have arrived and not been taken. -/
structure SyncMachine where
  waiting : Option ℤ
  pending : ℤ → ℕ

namespace SyncMachine

def initial : SyncMachine := ⟨none, fun _ => 0⟩

/-- What may happen to a core. -/
def step (m : SyncMachine) : SyncEvent → Option SyncMachine
  | .waits address => if m.waiting = none then some { m with waiting := some address } else none
  | .enters _ => if m.waiting = none then some m else none
  | .signalled address =>
    some { m with pending := Function.update m.pending address (m.pending address + 1) }
  | .takesSignal address =>
    if m.waiting = some address ∧ 0 < m.pending address then
      some ⟨none, Function.update m.pending address (m.pending address - 1)⟩
    else none
  | .released address => if m.waiting = some address then some { m with waiting := none } else none

end SyncMachine

namespace FetchLogic

/-- The first instruction that is not dropped, if there is one, finds no place. -/
def noneEnters (cfg : FetchConfig) (busy : ℕ → ℤ → Bool) (question filled : ℕ) :
    List MicroOp → Bool
  | [] => true
  | op :: rest =>
    if isDropped cfg op then noneEnters cfg busy question filled rest
    else !hasPlace cfg busy question filled op.ciscProgramCounter

/-- The loop of `performFetch` finds nothing to fetch behind a sync instruction. -/
def syncIsLast (cfg : FetchConfig) (busy : ℕ → ℤ → Bool) : ℕ → ℕ → ℕ → List MicroOp → Bool
  | _, _, _, [] => true
  | i, question, filled, op :: rest =>
    if cfg.iCacheBufferSize ≤ i then true
    else if op.operationType = .sync then
      !hasPlace cfg busy question filled op.ciscProgramCounter ||
        noneEnters cfg busy (question + 1) (filled + 1) rest
    else if isDropped cfg op then syncIsLast cfg busy i question filled rest
    else if hasPlace cfg busy question filled op.ciscProgramCounter then
      syncIsLast cfg busy (i + 1) (question + 1) (filled + 1) rest
    else true

/-- The state in which the second part of `performFetch` begins. -/
def beforeLoop (cfg : FetchConfig) (s : FetchLogic) (stalled : Bool) : FetchLogic :=
  if stalled then s else s.fillFetchBuffer cfg cfg.fetchWidth

/-- An awake core fetches nothing behind a sync instruction in the same call. A sleeping
core finds signals only for the address it waits at, and a release reaches it while it
waits at the barrier. -/
def Settled (cfg : FetchConfig) (s : FetchLogic) : Action → Prop
  | .performFetch stalled busy =>
    if s.sleep then s.signals.containsKey s.syncHeadAddr = true → s.awaited = some s.syncHeadAddr
    else syncIsLast cfg busy 0 0 (s.beforeLoop cfg stalled).iCacheBuffer.length
      (s.beforeLoop cfg stalled).inputToPipeline = true
  | .release address => s.awaited = some address
  | _ => True

/-- The state of the machine after the history of the stage. -/
structure Matches (s : FetchLogic) (m : SyncMachine) : Prop where
  accepted : exec SyncMachine.step SyncMachine.initial s.history = some m
  waiting : m.waiting = s.awaited
  sleep : s.sleep = s.awaited.isSome
  pending : ∀ a, s.signals.get a = if m.pending a = 0 then none else some (m.pending a : ℤ)

variable {cfg : FetchConfig} {s t : FetchLogic} {m m' : SyncMachine} {a : Action}
  {labels : List Action} {busy : ℕ → ℤ → Bool} {i question : ℕ} {input : List MicroOp}

theorem matches_initial (input : List MicroOp) : Matches (initial input) SyncMachine.initial where
  accepted := rfl
  waiting := rfl
  sleep := rfl
  pending := fun _ => rfl

/-- What the machine does not see. -/
theorem Matches.frame (h : Matches s m) (hhistory : t.history = s.history)
    (hawaited : t.awaited = s.awaited) (hsleep : t.sleep = s.sleep)
    (hsignals : t.signals = s.signals) : Matches t m where
  accepted := by
    rw [hhistory]
    exact h.accepted
  waiting := by
    rw [hawaited]
    exact h.waiting
  sleep := by
    rw [hsleep, hawaited]
    exact h.sleep
  pending := by
    rw [hsignals]
    exact h.pending

/-- An event that the machine accepts. -/
theorem Matches.event {e : SyncEvent} (h : Matches s m) (he : m.step e = some m')
    (hhistory : t.history = s.history ++ [e]) (hawaited : m'.waiting = t.awaited)
    (hsleep : t.sleep = t.awaited.isSome)
    (hpending : ∀ a, t.signals.get a = if m'.pending a = 0 then none else some (m'.pending a : ℤ)) :
    Matches t m' where
  accepted := by
    rw [hhistory, exec_append_singleton, h.accepted]
    exact he
  waiting := hawaited
  sleep := hsleep
  pending := hpending

theorem fillFetchBuffer_eq (cfg : FetchConfig) (n : ℕ) (s : FetchLogic) :
    (s.fillFetchBuffer cfg n).history = s.history ∧
      (s.fillFetchBuffer cfg n).awaited = s.awaited ∧
      (s.fillFetchBuffer cfg n).sleep = s.sleep ∧
      (s.fillFetchBuffer cfg n).signals = s.signals := by
  induction n generalizing s with
  | zero => exact ⟨rfl, rfl, rfl, rfl⟩
  | succ n ih =>
    rw [fillFetchBuffer]
    split
    · exact ⟨rfl, rfl, rfl, rfl⟩
    · split
      · exact ih _
      · exact ⟨rfl, rfl, rfl, rfl⟩

/-- A sync instruction puts the core to sleep at its address. -/
theorem processSync_eq_some {address : ℤ} (h : processSync cfg s address = some t) :
    t.history = s.history ++ [.waits address] ∧ t.awaited = some address ∧ t.sleep = true ∧
      t.signals = s.signals ∧ t.iCacheBuffer = s.iCacheBuffer := by
  unfold processSync at h
  split at h
  · cases h
  · split at h
    · cases h
      exact ⟨rfl, rfl, rfl, rfl, rfl⟩
    · dsimp only at h
      split at h
      · cases h
        exact ⟨rfl, rfl, rfl, rfl, rfl⟩
      · split at h
        · cases h
          exact ⟨rfl, rfl, rfl, rfl, rfl⟩
        · cases h
          exact ⟨rfl, rfl, rfl, rfl, rfl⟩

/-- Nothing happens behind the sync instruction. -/
theorem Matches.fetchLoop_asleep (h : Matches s m)
    (hnone : noneEnters cfg busy question s.iCacheBuffer.length input = true)
    (hloop : fetchLoop cfg busy i question s input = some t) : Matches t m := by
  induction input generalizing s with
  | nil =>
    cases hloop
    exact h.frame rfl rfl rfl rfl
  | cons op rest ih =>
    rw [noneEnters] at hnone
    rw [fetchLoop] at hloop
    split at hloop
    · cases hloop
      exact h.frame rfl rfl rfl rfl
    · split at hnone
      · rename_i hdropped
        have hsync : op.operationType ≠ .sync := by
          intro hsync
          simp [isDropped, hsync] at hdropped
        rw [if_neg hsync, if_pos hdropped] at hloop
        exact ih h hnone hloop
      · rename_i hkept
        have hplace : hasPlace cfg busy question s.iCacheBuffer.length op.ciscProgramCounter =
            false := by simpa using hnone
        rw [if_neg hkept, hplace] at hloop
        simp only [Bool.false_eq_true, if_false, ite_self] at hloop
        cases hloop
        exact h.frame rfl rfl rfl rfl

/-- The loop of an awake core fetches instructions up to a sync instruction. -/
theorem Matches.fetchLoop_awake (h : Matches s m) (hawake : s.awaited = none)
    (hlast : syncIsLast cfg busy i question s.iCacheBuffer.length input = true)
    (hloop : fetchLoop cfg busy i question s input = some t) : ∃ m', Matches t m' := by
  induction input generalizing s i question with
  | nil =>
    cases hloop
    exact ⟨m, h.frame rfl rfl rfl rfl⟩
  | cons op rest ih =>
    rw [syncIsLast] at hlast
    rw [fetchLoop] at hloop
    split at hloop
    · cases hloop
      exact ⟨m, h.frame rfl rfl rfl rfl⟩
    · rename_i hmore
      rw [if_neg hmore] at hlast
      split at hloop
      · rename_i hsync
        rw [if_pos hsync] at hlast
        split at hloop
        · rename_i hplace
          rw [hplace, Bool.not_true, Bool.false_or] at hlast
          obtain ⟨u, hsynced, hrest⟩ := Option.bind_eq_some_iff.mp hloop
          obtain ⟨hhistory, hawaited, hsleep, hsignals, hbuffer⟩ := processSync_eq_some hsynced
          have hfilled : u.iCacheBuffer.length = s.iCacheBuffer.length + 1 := by
            rw [hbuffer]
            simp [addToBuffer]
          have hwaits : m.step (.waits op.ciscProgramCounter) =
              some { m with waiting := some op.ciscProgramCounter } :=
            if_pos (h.waiting.trans hawake)
          have hasleep : Matches u { m with waiting := some op.ciscProgramCounter } := by
            refine h.event hwaits hhistory hawaited.symm ?_ ?_
            · rw [hsleep, hawaited]
              rfl
            · rw [hsignals]
              exact h.pending
          rw [← hfilled] at hlast
          exact ⟨_, hasleep.fetchLoop_asleep hlast hrest⟩
        · cases hloop
          exact ⟨m, h.frame rfl rfl rfl rfl⟩
      · rename_i hsync
        rw [if_neg hsync] at hlast
        split at hloop
        · rename_i hdropped
          rw [if_pos hdropped] at hlast
          exact ih h hawake hlast hloop
        · rename_i hkept
          rw [if_neg hkept] at hlast
          split at hloop
          · rename_i hplace
            rw [if_pos hplace] at hlast
            have henters : m.step (.enters op) = some m := if_pos (h.waiting.trans hawake)
            have hentered : Matches { s.addToBuffer cfg op with
                history := (s.addToBuffer cfg op).history ++ [.enters op] } m :=
              h.event henters rfl h.waiting h.sleep h.pending
            have hfilled : (s.addToBuffer cfg op).iCacheBuffer.length =
                s.iCacheBuffer.length + 1 := by
              simp [addToBuffer]
            rw [← hfilled] at hlast
            exact ih hentered hawake hlast hloop
          · cases hloop
            exact ⟨m, h.frame rfl rfl rfl rfl⟩

/-- A signal is taken from the address that the core waits at. -/
theorem Matches.wakeUp (h : Matches s m)
    (hsettled : s.signals.containsKey s.syncHeadAddr = true → s.awaited = some s.syncHeadAddr)
    (hwake : s.wakeUp = some t) : ∃ m', Matches t m' := by
  unfold FetchLogic.wakeUp at hwake
  split at hwake
  · cases hwake
    exact ⟨m, h⟩
  · rename_i count hcount
    split at hwake
    · cases hwake
    · have hawaited := hsettled (by rw [Hashtable.containsKey, hcount]; rfl)
      have hpending := h.pending s.syncHeadAddr
      rw [hcount] at hpending
      have hpositive : 0 < m.pending s.syncHeadAddr := by
        by_contra hzero
        rw [if_pos (by omega)] at hpending
        cases hpending
      rw [if_neg (by omega)] at hpending
      have hvalue : count = m.pending s.syncHeadAddr := Option.some.inj hpending
      have htakes : m.step (.takesSignal s.syncHeadAddr) =
          some ⟨none, Function.update m.pending s.syncHeadAddr (m.pending s.syncHeadAddr - 1)⟩ :=
        if_pos ⟨h.waiting.trans hawaited, hpositive⟩
      cases hwake
      refine ⟨_, h.event htakes rfl rfl rfl ?_⟩
      intro a
      dsimp only
      unfold takeSignal
      rcases eq_or_ne a s.syncHeadAddr with rfl | hne
      · simp only [Function.update_self]
        split
        · rw [Hashtable.get_remove_same, if_pos (by omega)]
        · rw [Hashtable.get_put_same, if_neg (by omega)]
          congr 1
          omega
      · simp only [Function.update_of_ne hne]
        split
        · rw [Hashtable.get_remove_of_ne _ hne]
          exact h.pending a
        · rw [Hashtable.get_put_of_ne _ hne]
          exact h.pending a

/-- Every signal is recorded, whatever the core does. -/
theorem Matches.signal (h : Matches s m) (address : ℤ) :
    ∃ m', Matches (s.receivedExternalResumeSignal address) m' := by
  refine ⟨_, h.event (e := .signalled address) rfl rfl h.waiting h.sleep ?_⟩
  intro a
  have hpending := h.pending address
  dsimp only [receivedExternalResumeSignal]
  rcases eq_or_ne a address with rfl | hne
  · simp only [Function.update_self, Nat.succ_ne_zero, if_false]
    split
    · rename_i hnone
      rw [hnone] at hpending
      have hzero : m.pending a = 0 := by
        by_contra hpositive
        rw [if_neg hpositive] at hpending
        cases hpending
      rw [Hashtable.get_put_same, hzero]
      rfl
    · rename_i count hcount
      rw [hcount] at hpending
      have hpositive : m.pending a ≠ 0 := by
        intro hzero
        rw [if_pos hzero] at hpending
        cases hpending
      rw [if_neg hpositive] at hpending
      rw [Hashtable.get_put_same, Option.some.inj hpending]
      rfl
  · simp only [Function.update_of_ne hne]
    split
    · rw [Hashtable.get_put_of_ne _ hne]
      exact h.pending a
    · rw [Hashtable.get_put_of_ne _ hne, Hashtable.get_put_of_ne _ hne]
      exact h.pending a

theorem Matches.performFetch {stalled : Bool} (h : Matches s m)
    (hsettled : s.Settled cfg (.performFetch stalled busy))
    (hfetch : s.performFetch cfg stalled busy = some t) : ∃ m', Matches t m' := by
  unfold FetchLogic.performFetch at hfetch
  unfold Settled at hsettled
  dsimp only at hsettled
  split at hfetch
  · rename_i hsleep
    rw [if_pos hsleep] at hsettled
    exact h.wakeUp hsettled hfetch
  · rename_i hawake
    rw [if_neg hawake] at hsettled
    have hbefore : Matches (s.beforeLoop cfg stalled) m ∧
        (s.beforeLoop cfg stalled).awaited = s.awaited := by
      unfold beforeLoop
      split
      · exact ⟨h, rfl⟩
      · obtain ⟨hhistory, hawaited, hsleep, hsignals⟩ :=
          fillFetchBuffer_eq cfg cfg.fetchWidth s
        exact ⟨h.frame hhistory hawaited hsleep hsignals, hawaited⟩
    have hnone : s.awaited = none := by
      have hsleep := h.sleep
      rw [Bool.not_eq_true] at hawake
      rw [hawake] at hsleep
      exact Option.isSome_eq_false_iff.mp hsleep.symm |> Option.isNone_iff_eq_none.mp
    exact hbefore.1.fetchLoop_awake (hbefore.2.trans hnone) hsettled hfetch

theorem Matches.step (h : Matches s m) (hsettled : s.Settled cfg a) (hstep : Step cfg s a t) :
    ∃ m', Matches t m' := by
  cases a with
  | performFetch stalled busy => exact h.performFetch hsettled hstep
  | signal address =>
    cases hstep
    exact h.signal address
  | release address =>
    cases hstep
    have hreleased : m.step (.released address) = some { m with waiting := none } :=
      if_pos (h.waiting.trans hsettled)
    exact ⟨_, h.event hreleased rfl rfl rfl h.pending⟩
  | enqueue op =>
    cases hstep
    exact ⟨m, h.frame rfl rfl rfl rfl⟩
  | completeFetch address =>
    cases hstep
    exact ⟨m, h.frame rfl rfl rfl rfl⟩
  | decode =>
    cases hstep
    exact ⟨m, h.frame rfl rfl rfl rfl⟩
  | setBarrier address barrier =>
    cases hstep
    exact ⟨m, h.frame rfl rfl rfl rfl⟩

instance : Decidable (s.Settled cfg a) :=
  match a with
  | .performFetch _ _ => inferInstanceAs (Decidable (ite _ _ _))
  | .release _ => inferInstanceAs (Decidable (_ = _))
  | .enqueue _ => isTrue trivial
  | .signal _ => isTrue trivial
  | .completeFetch _ => isTrue trivial
  | .decode => isTrue trivial
  | .setBarrier _ _ => isTrue trivial

def smallFetch : FetchConfig where
  fetchWidth := 2
  fetchBufferSize := 4
  iCacheBufferSize := 4
  detachMemSysData := false
  detachMemSysInsn := true
  treeBarrier := false

end FetchLogic

end Tejas
