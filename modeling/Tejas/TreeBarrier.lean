import Tejas.LabelledRuns
import Mathlib

/-!
# The tree barrier

`CoreBcastBus.java` passes the arrivals at a barrier up a binary heap of cores and
the release down again. A leaf of the heap passes its own arrival on. An inner node
counts its own arrival and those passed on by its children in `TreeInfo`, and passes
the third one on; node 1 releases instead. The cores of the simulator are numbered
from 0, the heap from 1.

A run may deliver the messages on the bus in any order. The arrivals, the releases and
the messages passed on are counted as the history of the run.
-/

namespace Tejas
open LabelledRuns

/-- A barrier, the cores that take part and how often they use it. -/
structure TreeBarrierConfig where
  numThreads : ℕ
  participants : List ℕ
  numCores : ℕ
  uses : ℕ

/-- The messages of `CoreBcastBus` with their `coreId`. -/
inductive BusMessage where
  | treeBarrier (coreId : ℕ)
  | treeBarrierRelease (coreId : ℕ)
  deriving DecidableEq, Repr

structure TreeBarrier where
  numThreadsArrived : ℕ
  treeInfo : ℕ → ℕ
  sleep : ℕ → Bool
  port : List BusMessage
  arrivals : ℕ → ℕ
  forwards : ℕ → ℕ
  releases : ℕ → ℕ

namespace TreeBarrier

def initial : TreeBarrier where
  numThreadsArrived := 0
  treeInfo := fun _ => 0
  sleep := fun _ => false
  port := []
  arrivals := fun _ => 0
  forwards := fun _ => 0
  releases := fun _ => 0

/-- `(int)(Math.log(numThreads + 1) / Math.log(2))`. -/
def level (numThreads : ℕ) : ℕ := Nat.log 2 (numThreads + 1)

/-- The test of `handleEvent` for a core in the last row of the heap. -/
def IsLeaf (numThreads coreId : ℕ) : Prop :=
  2 ^ (level numThreads - 1) ≤ coreId ∧ coreId < 2 ^ level numThreads

instance (numThreads coreId : ℕ) : Decidable (IsLeaf numThreads coreId) :=
  inferInstanceAs (Decidable (_ ∧ _))

/-- One more in a table of counters. -/
def increment (f : ℕ → ℕ) (i : ℕ) : ℕ → ℕ := Function.update f i (f i + 1)

/-- The core reaches its sync instruction: the tree barrier branch of `performFetch`. -/
def arrive (cfg : TreeBarrierConfig) (s : TreeBarrier) (coreId : ℕ) : Option TreeBarrier :=
  if coreId ∈ cfg.participants ∧ s.sleep coreId = false ∧ s.arrivals coreId < cfg.uses then
    some { s with
      numThreadsArrived := s.numThreadsArrived + 1
      sleep := Function.update s.sleep coreId true
      port := s.port ++ [.treeBarrier coreId]
      arrivals := increment s.arrivals coreId }
  else none

/-- `TREE_BARRIER` is passed on to the parent. -/
def forward (s : TreeBarrier) (coreId : ℕ) : TreeBarrier :=
  { s with
    port := s.port ++ [.treeBarrier (coreId / 2)]
    forwards := increment s.forwards coreId }

/-- `handleEvent`; `none` is an index out of range. -/
def handleEvent (cfg : TreeBarrierConfig) (s : TreeBarrier) : BusMessage → Option TreeBarrier
  | .treeBarrierRelease coreId =>
    if coreId < cfg.numCores then
      some { s with
        sleep := Function.update s.sleep coreId false
        releases := increment s.releases coreId
        port :=
          if coreId * 2 < cfg.numThreads then
            s.port ++ [.treeBarrierRelease (coreId * 2), .treeBarrierRelease (coreId * 2 + 1)]
          else s.port }
    else none
  | .treeBarrier coreId =>
    if IsLeaf cfg.numThreads coreId then some (s.forward coreId)
    else if coreId ≤ cfg.numThreads then
      let t := { s with treeInfo := increment s.treeInfo coreId }
      if t.treeInfo coreId = 3 then
        if coreId = 1 then some { t with port := t.port ++ [.treeBarrierRelease 1] }
        else some (t.forward coreId)
      else some t
    else none

inductive Action where
  | arrive (coreId : ℕ)
  | deliver (index : ℕ)
  deriving DecidableEq, Repr

def next (cfg : TreeBarrierConfig) (s : TreeBarrier) : Action → Option TreeBarrier
  | .arrive coreId => s.arrive cfg coreId
  | .deliver index =>
    (s.port[index]?).bind (fun message =>
      handleEvent cfg { s with port := s.port.eraseIdx index } message)

abbrev Step (cfg : TreeBarrierConfig) : TreeBarrier → Action → TreeBarrier → Prop :=
  StepOf (next cfg)

/-- Nothing more can happen. -/
def Stuck (cfg : TreeBarrierConfig) (s : TreeBarrier) : Prop := ∀ a, next cfg s a = none

/-- In every run the release reaches a core for the `j`-th time only after every
participant has arrived for the `j`-th time, it reaches participants only, and when
nothing more can happen it has reached every participant once for every use. -/
def ReleasesEveryPhase (cfg : TreeBarrierConfig) : Prop :=
  ∀ labels s, Run (Step cfg) initial labels s →
    (∀ c, ∀ d ∈ cfg.participants, s.releases c ≤ s.arrivals d) ∧
    (∀ c, c ∉ cfg.participants → s.releases c = 0) ∧
    (Stuck cfg s → ∀ c ∈ cfg.participants, s.releases c = cfg.uses)

/-- As many threads as the heap has nodes, on the cores from 0 on. -/
def simulatorCores (n numCores uses : ℕ) : TreeBarrierConfig :=
  ⟨n, List.range n, numCores, uses⟩

/-- The same threads on the cores from 1 on. -/
def heapCores (n numCores uses : ℕ) : TreeBarrierConfig :=
  ⟨n, List.range' 1 n, numCores, uses⟩

variable {cfg : TreeBarrierConfig} {s t : TreeBarrier} {a : Action} {labels : List Action}
  {n k c v : ℕ} {message : BusMessage}

@[simp] theorem increment_self (f : ℕ → ℕ) (i : ℕ) : increment f i i = f i + 1 := by
  simp [increment]

theorem increment_of_ne (f : ℕ → ℕ) {i j : ℕ} (h : j ≠ i) : increment f i j = f j := by
  simp [increment, h]

theorem increment_apply (f : ℕ → ℕ) (i j : ℕ) :
    increment f i j = f j + if j = i then 1 else 0 := by
  by_cases h : j = i
  · rw [h, increment_self, if_pos rfl]
  · rw [increment_of_ne f h, if_neg h, Nat.add_zero]

theorem level_eq (h : n + 1 = 2 ^ k) : level n = k := by
  rw [level, h]
  exact Nat.log_pow (by decide) k

theorem isLeaf_iff (h : n + 1 = 2 ^ k) : IsLeaf n v ↔ 2 ^ (k - 1) ≤ v ∧ v < 2 ^ k := by
  rw [IsLeaf, level_eq h]

/-- A node is inner exactly when its children are nodes. -/
theorem two_mul_lt_iff (h : n + 1 = 2 ^ k) (hv : 1 ≤ v) : 2 * v < n ↔ v ≤ n ∧ ¬ IsLeaf n v := by
  rw [isLeaf_iff h]
  cases k with
  | zero =>
    have hn : n = 0 := by simpa using h
    omega
  | succ k =>
    rw [Nat.add_sub_cancel]
    rw [Nat.pow_succ] at h ⊢
    omega

/-! ## What is on the bus -/

/-- Arrivals on their way to a node. -/
def climbing (s : TreeBarrier) (v : ℕ) : ℕ := s.port.count (.treeBarrier v)

/-- Releases on their way to a node. -/
def descending (s : TreeBarrier) (v : ℕ) : ℕ := s.port.count (.treeBarrierRelease v)

/-- The arrivals that a node has handled. -/
def handled (cfg : TreeBarrierConfig) (s : TreeBarrier) (v : ℕ) : ℕ :=
  if IsLeaf cfg.numThreads v then s.forwards v else s.treeInfo v

/-- What the bus does with a message, once it is off the port. -/
inductive Handles (cfg : TreeBarrierConfig) (s : TreeBarrier) : BusMessage → TreeBarrier → Prop
  | released (c : ℕ) (hcore : c < cfg.numCores) :
      Handles cfg s (.treeBarrierRelease c) { s with
        sleep := Function.update s.sleep c false
        releases := increment s.releases c
        port :=
          if c * 2 < cfg.numThreads then
            s.port ++ [.treeBarrierRelease (c * 2), .treeBarrierRelease (c * 2 + 1)]
          else s.port }
  | passed (c : ℕ) (hleaf : IsLeaf cfg.numThreads c) :
      Handles cfg s (.treeBarrier c) (s.forward c)
  | counted (c : ℕ) (hinner : ¬ IsLeaf cfg.numThreads c) (hc : c ≤ cfg.numThreads)
      (hcount : s.treeInfo c + 1 ≠ 3) :
      Handles cfg s (.treeBarrier c) { s with treeInfo := increment s.treeInfo c }
  | completed (c : ℕ) (hinner : ¬ IsLeaf cfg.numThreads c) (hc : c ≤ cfg.numThreads)
      (hcount : s.treeInfo c + 1 = 3) (hroot : c ≠ 1) :
      Handles cfg s (.treeBarrier c)
        (forward { s with treeInfo := increment s.treeInfo c } c)
  | root (hinner : ¬ IsLeaf cfg.numThreads 1) (hcount : s.treeInfo 1 + 1 = 3) :
      Handles cfg s (.treeBarrier 1) { s with
        treeInfo := increment s.treeInfo 1
        port := s.port ++ [.treeBarrierRelease 1] }

theorem handleEvent_handles (h : handleEvent cfg s message = some t) :
    Handles cfg s message t := by
  cases message with
  | treeBarrierRelease c =>
    simp only [handleEvent] at h
    split at h
    · cases h
      exact .released c ‹_›
    · cases h
  | treeBarrier c =>
    simp only [handleEvent, increment_self] at h
    split at h
    · cases h
      exact .passed c ‹_›
    · rename_i hinner
      split at h
      · split at h
        · split at h
          · rename_i hcount hroot
            subst hroot
            cases h
            exact .root hinner hcount
          · cases h
            exact .completed c hinner ‹_› ‹_› ‹_›
        · cases h
          exact .counted c hinner ‹_› ‹_›
      · cases h

/-- A step is an arrival or the delivery of some message on the port. -/
theorem step_cases (h : Step cfg s a t) :
    (∃ c ∈ cfg.participants, s.sleep c = false ∧ s.arrivals c < cfg.uses ∧
      t = { s with
        numThreadsArrived := s.numThreadsArrived + 1
        sleep := Function.update s.sleep c true
        port := s.port ++ [.treeBarrier c]
        arrivals := increment s.arrivals c }) ∨
    ∃ message rest, s.port.Perm (message :: rest) ∧
      Handles cfg { s with port := rest } message t := by
  cases a with
  | arrive c =>
    left
    unfold Step StepOf next arrive at h
    dsimp only at h
    split at h
    · rename_i hc
      exact ⟨c, hc.1, hc.2.1, hc.2.2, (Option.some.inj h).symm⟩
    · cases h
  | deliver index =>
    right
    obtain ⟨message, hmessage, hhandle⟩ := Option.bind_eq_some_iff.mp h
    obtain ⟨hindex, hget⟩ := List.getElem?_eq_some_iff.mp hmessage
    refine ⟨message, s.port.eraseIdx index, ?_, handleEvent_handles hhandle⟩
    rw [← hget]
    exact (List.getElem_cons_eraseIdx_perm hindex).symm

/-! ## The arrivals climb -/

/-- Every arrival that is passed on to a node is on the bus or has been handled there. -/
structure Climbs (cfg : TreeBarrierConfig) (s : TreeBarrier) : Prop where
  flow : ∀ v, s.climbing v + s.handled cfg v =
    s.arrivals v + s.forwards (2 * v) + s.forwards (2 * v + 1)
  once : ∀ v, ¬ IsLeaf cfg.numThreads v →
    s.forwards v = if v ≠ 1 ∧ 3 ≤ s.treeInfo v then 1 else 0
  outside : ∀ v, cfg.numThreads < v → s.climbing v = 0 ∧ s.arrivals v = 0 ∧ s.forwards v = 0
  awake : ∀ v, s.sleep v = false → s.arrivals v ≤ s.releases v
  asleep : ∀ v, s.sleep v = true → 1 ≤ s.arrivals v
  waiting : ∀ v, s.arrivals v ≤ s.releases v + 1
  used : ∀ v, s.arrivals v ≤ cfg.uses
  participate : ∀ v, v ∉ cfg.participants → s.arrivals v = 0

theorem climbs_initial : Climbs cfg initial where
  flow := by
    intro v
    simp [climbing, handled, initial]
  once := by
    intro v _
    simp [initial]
  outside := fun v _ => ⟨rfl, rfl, rfl⟩
  awake := fun v _ => le_refl 0
  asleep := by
    intro v h
    cases h
  waiting := fun v => Nat.zero_le _
  used := fun v => Nat.zero_le _
  participate := fun _ _ => rfl

theorem Climbs.arrive (h : Climbs cfg s)
    (hparticipants : ∀ c ∈ cfg.participants, c ≤ cfg.numThreads)
    (hc : c ∈ cfg.participants) (hawake : s.sleep c = false) (hused : s.arrivals c < cfg.uses) :
    Climbs cfg { s with
      numThreadsArrived := s.numThreadsArrived + 1
      sleep := Function.update s.sleep c true
      port := s.port ++ [.treeBarrier c]
      arrivals := increment s.arrivals c } := by
  have hle := hparticipants c hc
  have hcount : ∀ v, (s.port ++ [BusMessage.treeBarrier c]).count (.treeBarrier v) =
      s.climbing v + if v = c then 1 else 0 := by
    intro v
    rw [List.count_append, List.count_singleton, climbing]
    rcases eq_or_ne v c with rfl | hne
    · simp
    · simp [hne, hne.symm]
  refine ⟨?_, h.once, ?_, ?_, ?_, ?_, ?_, ?_⟩
  · intro v
    have hflow := h.flow v
    change (s.port ++ [BusMessage.treeBarrier c]).count (.treeBarrier v) + s.handled cfg v =
      increment s.arrivals c v + s.forwards (2 * v) + s.forwards (2 * v + 1)
    rw [hcount, increment_apply]
    omega
  · intro v hv
    obtain ⟨h₁, h₂, h₃⟩ := h.outside v hv
    refine ⟨?_, ?_, h₃⟩
    · change (s.port ++ [BusMessage.treeBarrier c]).count (.treeBarrier v) = 0
      rw [hcount, h₁, if_neg (by omega)]
    · change increment s.arrivals c v = 0
      rw [increment_apply, h₂, if_neg (by omega)]
  · intro v hv
    change increment s.arrivals c v ≤ s.releases v
    rcases eq_or_ne v c with rfl | hne
    · simp at hv
    · rw [increment_of_ne _ hne]
      exact h.awake v (by simpa [hne] using hv)
  · intro v hv
    change 1 ≤ increment s.arrivals c v
    rcases eq_or_ne v c with rfl | hne
    · simp
    · rw [increment_of_ne _ hne]
      exact h.asleep v (by simpa [hne] using hv)
  · intro v
    change increment s.arrivals c v ≤ s.releases v + 1
    rcases eq_or_ne v c with rfl | hne
    · have hbefore := h.awake v hawake
      rw [increment_self]
      omega
    · rw [increment_of_ne _ hne]
      exact h.waiting v
  · intro v
    change increment s.arrivals c v ≤ cfg.uses
    rcases eq_or_ne v c with rfl | hne
    · rw [increment_self]
      omega
    · rw [increment_of_ne _ hne]
      exact h.used v
  · intro v hv
    change increment s.arrivals c v = 0
    rcases eq_or_ne v c with rfl | hne
    · exact absurd hc hv
    · rw [increment_of_ne _ hne]
      exact h.participate v hv

theorem IsLeaf.le (h : IsLeaf n c) : c ≤ n := by
  have hlog : 2 ^ level n ≤ n + 1 := Nat.pow_log_le_self 2 (Nat.succ_ne_zero n)
  have hlt := h.2
  omega

@[simp] theorem count_treeBarrier_singleton (c v : ℕ) :
    [BusMessage.treeBarrier c].count (.treeBarrier v) = if v = c then 1 else 0 := by
  rcases eq_or_ne v c with rfl | hne
  · simp
  · simp [hne, hne.symm]

theorem count_climbing_rest {rest : List BusMessage} {c : ℕ}
    (h : s.port.Perm (.treeBarrier c :: rest)) (v : ℕ) :
    s.climbing v = rest.count (.treeBarrier v) + if v = c then 1 else 0 := by
  rw [climbing, h.count_eq, ← List.singleton_append, List.count_append,
    count_treeBarrier_singleton, Nat.add_comm]

/-- A node passes on what it has just handled: the flow at the node and at its parent. -/
theorem Climbs.forwarded {rest : List BusMessage} (h : Climbs cfg s) (treeInfo : ℕ → ℕ)
    (hperm : s.port.Perm (.treeBarrier c :: rest)) (hc : c ≤ cfg.numThreads)
    (hhandled : ∀ v, (if IsLeaf cfg.numThreads v then increment s.forwards c v else treeInfo v) =
      s.handled cfg v + if v = c then 1 else 0)
    (honce : ∀ v, ¬ IsLeaf cfg.numThreads v →
      increment s.forwards c v = if v ≠ 1 ∧ 3 ≤ treeInfo v then 1 else 0) :
    Climbs cfg (forward { s with port := rest, treeInfo := treeInfo } c) := by
  have hcount := count_climbing_rest hperm
  refine ⟨?_, honce, ?_, h.awake, h.asleep, h.waiting, h.used, h.participate⟩
  · intro v
    have hflow := h.flow v
    change (rest ++ [BusMessage.treeBarrier (c / 2)]).count (.treeBarrier v) +
      (if IsLeaf cfg.numThreads v then increment s.forwards c v else treeInfo v) =
      s.arrivals v + increment s.forwards c (2 * v) + increment s.forwards c (2 * v + 1)
    rw [hhandled, List.count_append, count_treeBarrier_singleton, increment_apply, increment_apply]
    rw [hcount] at hflow
    split_ifs at hflow ⊢ <;> omega
  · intro v hv
    obtain ⟨hclimbing, harrivals, hforwards⟩ := h.outside v hv
    rw [hcount] at hclimbing
    refine ⟨?_, harrivals, ?_⟩
    · change (rest ++ [BusMessage.treeBarrier (c / 2)]).count (.treeBarrier v) = 0
      rw [List.count_append, count_treeBarrier_singleton, if_neg (by omega)]
      omega
    · change increment s.forwards c v = 0
      rw [increment_apply, hforwards, if_neg (by omega)]

/-- A node counts an arrival and passes nothing on. -/
theorem Climbs.counted {rest : List BusMessage} (h : Climbs cfg s) (more : List BusMessage)
    (hperm : s.port.Perm (.treeBarrier c :: rest)) (hinner : ¬ IsLeaf cfg.numThreads c)
    (hmore : ∀ v, more.count (.treeBarrier v) = 0)
    (honce : c ≠ 1 ∧ 3 ≤ s.treeInfo c + 1 ↔ c ≠ 1 ∧ 3 ≤ s.treeInfo c) :
    Climbs cfg { s with port := rest ++ more, treeInfo := increment s.treeInfo c } := by
  have hcount := count_climbing_rest hperm
  refine ⟨?_, ?_, ?_, h.awake, h.asleep, h.waiting, h.used, h.participate⟩
  · intro v
    have hflow := h.flow v
    have hhandled : (if IsLeaf cfg.numThreads v then s.forwards v
        else increment s.treeInfo c v) = s.handled cfg v + if v = c then 1 else 0 := by
      rw [handled, increment_apply]
      rcases eq_or_ne v c with rfl | hne
      · rw [if_neg hinner, if_neg hinner]
      · rw [if_neg hne, Nat.add_zero, Nat.add_zero]
    change (rest ++ more).count (.treeBarrier v) + (if IsLeaf cfg.numThreads v then s.forwards v
      else increment s.treeInfo c v) = s.arrivals v + s.forwards (2 * v) + s.forwards (2 * v + 1)
    rw [hhandled, List.count_append, hmore]
    rw [hcount] at hflow
    omega
  · intro v hv
    change s.forwards v = if v ≠ 1 ∧ 3 ≤ increment s.treeInfo c v then 1 else 0
    rw [h.once v hv, increment_apply]
    rcases eq_or_ne v c with rfl | hne
    · simp only [if_true, honce]
    · rw [if_neg hne, Nat.add_zero]
  · intro v hv
    obtain ⟨hclimbing, hrest⟩ := h.outside v hv
    rw [hcount] at hclimbing
    refine ⟨?_, hrest⟩
    change (rest ++ more).count (.treeBarrier v) = 0
    rw [List.count_append, hmore]
    omega

theorem Climbs.released {rest : List BusMessage} (h : Climbs cfg s) (more : List BusMessage)
    (hperm : s.port.Perm (.treeBarrierRelease c :: rest))
    (hmore : ∀ v, more.count (.treeBarrier v) = 0) :
    Climbs cfg { s with
      sleep := Function.update s.sleep c false
      releases := increment s.releases c
      port := rest ++ more } := by
  have hcount : ∀ v, (rest ++ more).count (.treeBarrier v) = s.climbing v := by
    intro v
    rw [List.count_append, hmore, climbing, hperm.count_eq, List.count_cons]
    simp
  have hmono : ∀ v, s.releases v ≤ increment s.releases c v := by
    intro v
    rw [increment_apply]
    exact Nat.le_add_right _ _
  refine ⟨?_, h.once, ?_, ?_, ?_, ?_, h.used, h.participate⟩
  · intro v
    change (rest ++ more).count (.treeBarrier v) + s.handled cfg v =
      s.arrivals v + s.forwards (2 * v) + s.forwards (2 * v + 1)
    rw [hcount]
    exact h.flow v
  · intro v hv
    obtain ⟨hclimbing, hrest⟩ := h.outside v hv
    refine ⟨?_, hrest⟩
    change (rest ++ more).count (.treeBarrier v) = 0
    rw [hcount]
    exact hclimbing
  · intro v hv
    change s.arrivals v ≤ increment s.releases c v
    rcases eq_or_ne v c with rfl | hne
    · rw [increment_self]
      exact h.waiting v
    · exact (h.awake v (by simpa [hne] using hv)).trans (hmono v)
  · intro v hv
    rcases eq_or_ne v c with rfl | hne
    · simp at hv
    · exact h.asleep v (by simpa [hne] using hv)
  · intro v
    exact (h.waiting v).trans (Nat.add_le_add_right (hmono v) 1)

theorem Climbs.handles {rest : List BusMessage} (h : Climbs cfg s)
    (hperm : s.port.Perm (message :: rest)) (ht : Handles cfg { s with port := rest } message t) :
    Climbs cfg t := by
  cases ht with
  | released c hcore =>
    by_cases hnode : c * 2 < cfg.numThreads
    · have hclimbs := h.released
        [.treeBarrierRelease (c * 2), .treeBarrierRelease (c * 2 + 1)] hperm (by simp)
      simpa only [if_pos hnode] using hclimbs
    · have hclimbs := h.released [] hperm (by simp)
      simpa only [if_neg hnode, List.append_nil] using hclimbs
  | passed c hleaf =>
    refine h.forwarded s.treeInfo hperm hleaf.le ?_ ?_
    · intro v
      rw [handled, increment_apply]
      split_ifs with hv hc hc
      · rfl
      · rfl
      · exact absurd (hc ▸ hleaf) hv
      · rfl
    · intro v hv
      have hne : v ≠ c := by
        rintro rfl
        exact hv hleaf
      rw [increment_of_ne _ hne]
      exact h.once v hv
  | counted c hinner hc hcount =>
    have hclimbs := h.counted [] hperm hinner (by simp) (by
      have hne : s.treeInfo c + 1 ≠ 3 := hcount
      omega)
    simpa only [List.append_nil] using hclimbs
  | completed c hinner hc hcount hroot =>
    have hcount : s.treeInfo c + 1 = 3 := hcount
    refine h.forwarded (increment s.treeInfo c) hperm hc ?_ ?_
    · intro v
      rw [handled, increment_apply, increment_apply]
      split_ifs with hv hc hc
      · exact absurd hv (hc ▸ hinner)
      · rfl
      · rfl
      · rfl
    · intro v hv
      have honce := h.once v hv
      rw [increment_apply, increment_apply]
      rcases eq_or_ne v c with rfl | hne
      · rw [if_neg (by omega)] at honce
        rw [honce, if_pos rfl, if_pos ⟨hroot, by omega⟩]
      · rw [if_neg hne]
        exact honce
  | root hinner hcount =>
    exact h.counted [.treeBarrierRelease 1] hperm hinner (by simp) (by simp)

theorem Climbs.step (h : Climbs cfg s) (hparticipants : ∀ c ∈ cfg.participants, c ≤ cfg.numThreads)
    (hstep : Step cfg s a t) : Climbs cfg t := by
  rcases step_cases hstep with ⟨c, hc, hawake, hused, rfl⟩ | ⟨message, rest, hperm, ht⟩
  · exact h.arrive hparticipants hc hawake hused
  · exact h.handles hperm ht

theorem climbs_of_run (hparticipants : ∀ c ∈ cfg.participants, c ≤ cfg.numThreads)
    (run : Run (Step cfg) initial labels s) : Climbs cfg s :=
  run.invariant climbs_initial (fun _ _ _ h hstep => h.step hparticipants hstep)

/-! ## The releases descend -/

/-- Every release on the bus or delivered comes from the third arrival at the root or
from the release of the parent. -/
structure Descends (cfg : TreeBarrierConfig) (s : TreeBarrier) : Prop where
  zero : s.descending 0 = 0 ∧ s.releases 0 = 0
  root : s.descending 1 + s.releases 1 =
    if ¬ IsLeaf cfg.numThreads 1 ∧ 3 ≤ s.treeInfo 1 then 1 else 0
  node : ∀ v, 2 ≤ v → s.descending v + s.releases v =
    if v / 2 * 2 < cfg.numThreads then s.releases (v / 2) else 0

theorem descends_initial : Descends cfg initial where
  zero := ⟨rfl, rfl⟩
  root := by simp [descending, initial]
  node := by
    intro v _
    simp [descending, initial]

@[simp] theorem count_treeBarrierRelease_singleton (c v : ℕ) :
    [BusMessage.treeBarrierRelease c].count (.treeBarrierRelease v) = if v = c then 1 else 0 := by
  rcases eq_or_ne v c with rfl | hne
  · simp
  · simp [hne, hne.symm]

theorem count_descending_rest {rest : List BusMessage} {c : ℕ}
    (h : s.port.Perm (.treeBarrierRelease c :: rest)) (v : ℕ) :
    s.descending v = rest.count (.treeBarrierRelease v) + if v = c then 1 else 0 := by
  rw [descending, h.count_eq, ← List.singleton_append, List.count_append,
    count_treeBarrierRelease_singleton, Nat.add_comm]

/-- Steps that leave the releases and the count of the root as they are. -/
theorem Descends.frame (h : Descends cfg s) (hreleases : t.releases = s.releases)
    (hdescending : ∀ v, t.descending v = s.descending v)
    (hroot : ¬ IsLeaf cfg.numThreads 1 → (3 ≤ t.treeInfo 1 ↔ 3 ≤ s.treeInfo 1)) :
    Descends cfg t where
  zero := by
    rw [hdescending, hreleases]
    exact h.zero
  root := by
    rw [hdescending, hreleases, h.root]
    by_cases hleaf : IsLeaf cfg.numThreads 1
    · simp [hleaf]
    · simp only [hroot hleaf]
  node := by
    intro v hv
    rw [hdescending, hreleases]
    exact h.node v hv

theorem Descends.released {rest : List BusMessage} (h : Descends cfg s) (more : List BusMessage)
    (hperm : s.port.Perm (.treeBarrierRelease c :: rest))
    (hmore : ∀ v, more.count (.treeBarrierRelease v) =
      if v / 2 = c ∧ c * 2 < cfg.numThreads then 1 else 0) :
    Descends cfg { s with
      sleep := Function.update s.sleep c false
      releases := increment s.releases c
      port := rest ++ more } := by
  have hcount := count_descending_rest hperm
  have hc : c ≠ 0 := by
    rintro rfl
    have hzero := h.zero.1
    rw [hcount, if_pos rfl] at hzero
    omega
  refine ⟨?_, ?_, ?_⟩
  · have hzero := h.zero.1
    rw [hcount] at hzero
    change (rest ++ more).count (.treeBarrierRelease 0) = 0 ∧ increment s.releases c 0 = 0
    rw [List.count_append, hmore, increment_of_ne _ hc.symm, if_neg (by omega)]
    exact ⟨by omega, h.zero.2⟩
  · have hroot := h.root
    rw [hcount] at hroot
    change (rest ++ more).count (.treeBarrierRelease 1) + increment s.releases c 1 =
      if ¬ IsLeaf cfg.numThreads 1 ∧ 3 ≤ s.treeInfo 1 then 1 else 0
    rw [List.count_append, hmore, increment_apply, ← hroot, if_neg (by omega)]
    omega
  · intro v hv
    have hnode := h.node v hv
    rw [hcount] at hnode
    change (rest ++ more).count (.treeBarrierRelease v) + increment s.releases c v =
      if v / 2 * 2 < cfg.numThreads then increment s.releases c (v / 2) else 0
    rw [List.count_append, hmore, increment_apply, increment_apply]
    split_ifs at hnode ⊢ <;> omega

theorem Descends.handles {rest : List BusMessage} (h : Descends cfg s)
    (hperm : s.port.Perm (message :: rest)) (ht : Handles cfg { s with port := rest } message t) :
    Descends cfg t := by
  have hquiet : ∀ (u : TreeBarrier) (c : ℕ) (more : List BusMessage),
      message = .treeBarrier c → u.port = rest ++ more →
      (∀ v, more.count (.treeBarrierRelease v) = 0) → ∀ v, u.descending v = s.descending v := by
    intro u c more hmessage hport hmore v
    rw [descending, hport, List.count_append, hmore, descending, hperm.count_eq, hmessage,
      List.count_cons]
    simp
  cases ht with
  | released c hcore =>
    by_cases hnode : c * 2 < cfg.numThreads
    · have hdescends := h.released
        [.treeBarrierRelease (c * 2), .treeBarrierRelease (c * 2 + 1)] hperm (by
          intro v
          rw [← List.singleton_append, List.count_append, count_treeBarrierRelease_singleton,
            count_treeBarrierRelease_singleton]
          split_ifs <;> omega)
      simpa only [if_pos hnode] using hdescends
    · have hdescends := h.released [] hperm (by
        intro v
        rw [if_neg (by omega)]
        rfl)
      simpa only [if_neg hnode, List.append_nil] using hdescends
  | passed c hleaf =>
    exact h.frame rfl (hquiet _ c [.treeBarrier (c / 2)] rfl rfl (by simp)) (fun _ => Iff.rfl)
  | counted c hinner hc hcount =>
    refine h.frame rfl (hquiet _ c [] rfl (List.append_nil _).symm (by simp)) (fun _ => ?_)
    change 3 ≤ increment s.treeInfo c 1 ↔ 3 ≤ s.treeInfo 1
    have hcount : s.treeInfo c + 1 ≠ 3 := hcount
    rw [increment_apply]
    rcases eq_or_ne 1 c with rfl | hne
    · rw [if_pos rfl]
      omega
    · rw [if_neg hne, Nat.add_zero]
  | completed c hinner hc hcount hroot =>
    refine h.frame rfl (hquiet _ c [.treeBarrier (c / 2)] rfl rfl (by simp)) (fun _ => ?_)
    change 3 ≤ increment s.treeInfo c 1 ↔ 3 ≤ s.treeInfo 1
    rw [increment_of_ne _ hroot.symm]
  | root hinner hcount =>
    have hcount : s.treeInfo 1 + 1 = 3 := hcount
    have hdescending : ∀ v, (rest ++ [BusMessage.treeBarrierRelease 1]).count
        (.treeBarrierRelease v) = s.descending v + if v = 1 then 1 else 0 := by
      intro v
      rw [List.count_append, count_treeBarrierRelease_singleton, descending, hperm.count_eq,
        List.count_cons]
      simp
    refine ⟨?_, ?_, ?_⟩
    · change (rest ++ [BusMessage.treeBarrierRelease 1]).count (.treeBarrierRelease 0) = 0 ∧ _
      rw [hdescending, if_neg (by decide)]
      exact h.zero
    · have hroot := h.root
      rw [if_neg (by omega)] at hroot
      change (rest ++ [BusMessage.treeBarrierRelease 1]).count (.treeBarrierRelease 1) +
        s.releases 1 = if ¬ IsLeaf cfg.numThreads 1 ∧ 3 ≤ increment s.treeInfo 1 1 then 1 else 0
      rw [hdescending, if_pos rfl, increment_self, if_pos ⟨hinner, by omega⟩]
      omega
    · intro v hv
      change (rest ++ [BusMessage.treeBarrierRelease 1]).count (.treeBarrierRelease v) +
        s.releases v = _
      rw [hdescending, if_neg (by omega)]
      exact h.node v hv

theorem Descends.step (h : Descends cfg s) (hstep : Step cfg s a t) : Descends cfg t := by
  rcases step_cases hstep with ⟨c, -, -, -, rfl⟩ | ⟨message, rest, hperm, ht⟩
  · refine h.frame rfl (fun v => ?_) (fun _ => Iff.rfl)
    change (s.port ++ [BusMessage.treeBarrier c]).count (.treeBarrierRelease v) = s.descending v
    rw [List.count_append, descending]
    simp
  · exact h.handles hperm ht

theorem descends_of_run (run : Run (Step cfg) initial labels s) : Descends cfg s :=
  run.invariant descends_initial (fun _ _ _ h hstep => h.step hstep)

/-! ## Cores numbered from 0 -/

theorem two_mul_le_of_not_isLeaf (h : n + 1 = 2 ^ k) (hv : 1 ≤ v) (hle : v ≤ n)
    (hinner : ¬ IsLeaf n v) : 2 * v + 1 ≤ n := by
  rw [isLeaf_iff h] at hinner
  cases k with
  | zero =>
    have hn : n = 0 := by simpa using h
    omega
  | succ k =>
    rw [Nat.add_sub_cancel] at hinner
    rw [Nat.pow_succ] at h hinner
    omega

theorem not_isLeaf_zero : ¬ IsLeaf n 0 := by
  intro h
  have hpos : 0 < 2 ^ (level n - 1) := Nat.two_pow_pos _
  have hle := h.1
  omega

theorem lt_two_mul_of_isLeaf (h : n + 1 = 2 ^ k) (hleaf : IsLeaf n v) : n < 2 * v := by
  have hzero : v ≠ 0 := by
    rintro rfl
    exact not_isLeaf_zero hleaf
  by_contra hlt
  rcases Nat.lt_or_ge (2 * v) n with hlt' | hge
  · exact ((two_mul_lt_iff h (by omega)).mp hlt').2 hleaf
  · cases k with
    | zero =>
      have hn : n = 0 := by simpa using h
      omega
    | succ k =>
      rw [Nat.pow_succ] at h
      omega

/-- A core that has arrived at most once is passed on at most once. -/
theorem Climbs.forwards_le_one (h : Climbs cfg s) (hn : cfg.numThreads + 1 = 2 ^ k)
    (honce : ∀ v, s.arrivals v ≤ 1) (v : ℕ) : s.forwards v ≤ 1 := by
  by_cases hleaf : IsLeaf cfg.numThreads v
  · have hflow := h.flow v
    have hbelow := lt_two_mul_of_isLeaf hn hleaf
    rw [handled, if_pos hleaf, (h.outside (2 * v) hbelow).2.2,
      (h.outside (2 * v + 1) (by omega)).2.2] at hflow
    have harrivals := honce v
    omega
  · rw [h.once v hleaf]
    split <;> omega

/-- The last leaf of the heap never arrives, so no node between it and the root
handles a third arrival. -/
theorem Climbs.forwards_spine (h : Climbs cfg s) (hn : cfg.numThreads + 1 = 2 ^ k)
    (honce : ∀ v, s.arrivals v ≤ 1) (habsent : s.arrivals cfg.numThreads = 0) (i : ℕ) (hi : i < k) :
    s.forwards (2 ^ (k - i) - 1) = 0 := by
  induction i with
  | zero =>
    have hlast : 2 ^ (k - 0) - 1 = cfg.numThreads := by
      rw [Nat.sub_zero]
      omega
    rw [hlast]
    have hleaf : IsLeaf cfg.numThreads cfg.numThreads := by
      rw [isLeaf_iff hn]
      have hhalf : 2 ^ k = 2 ^ (k - 1) * 2 := by
        rw [← Nat.pow_succ]
        congr 1
        omega
      have hpos : 0 < 2 ^ (k - 1) := Nat.two_pow_pos _
      omega
    have hflow := h.flow cfg.numThreads
    have hbelow := lt_two_mul_of_isLeaf hn hleaf
    rw [handled, if_pos hleaf, habsent, (h.outside (2 * cfg.numThreads) hbelow).2.2,
      (h.outside (2 * cfg.numThreads + 1) (by omega)).2.2] at hflow
    omega
  | succ i ih =>
    have hchild := ih (by omega)
    have hdouble : 2 ^ (k - i) = 2 * 2 ^ (k - (i + 1)) := by
      rw [Nat.mul_comm, ← Nat.pow_succ]
      congr 1
      omega
    have hpos : 0 < 2 ^ (k - (i + 1)) := Nat.two_pow_pos _
    have hnode : 2 * (2 ^ (k - (i + 1)) - 1) + 1 = 2 ^ (k - i) - 1 := by omega
    have hinner : ¬ IsLeaf cfg.numThreads (2 ^ (k - (i + 1)) - 1) := by
      rw [isLeaf_iff hn]
      have hsmall : 2 ^ (k - (i + 1)) ≤ 2 ^ (k - 1) := Nat.pow_le_pow_right (by decide) (by omega)
      omega
    have hflow := h.flow (2 ^ (k - (i + 1)) - 1)
    have hleft := h.forwards_le_one hn honce (2 * (2 ^ (k - (i + 1)) - 1))
    have harrivals := honce (2 ^ (k - (i + 1)) - 1)
    rw [handled, if_neg hinner, hnode, hchild] at hflow
    rw [h.once _ hinner, if_neg (by omega)]

/-- As long as nothing has been released, nothing is about to be. -/
theorem Climbs.descending_eq_zero (h : Climbs cfg s) (hd : Descends cfg s)
    (hn : cfg.numThreads + 1 = 2 ^ k) (habsent : cfg.numThreads ∉ cfg.participants)
    (hreleases : ∀ v, s.releases v = 0) (v : ℕ) : s.descending v = 0 := by
  have honce : ∀ v, s.arrivals v ≤ 1 := by
    intro v
    have hwaiting := h.waiting v
    rw [hreleases] at hwaiting
    exact hwaiting
  rcases Nat.lt_or_ge v 2 with hv | hv
  · rcases Nat.lt_or_ge v 1 with hzero | hone
    · have hv0 : v = 0 := by omega
      rw [hv0]
      exact hd.zero.1
    · have hv1 : v = 1 := by omega
      have hroot := hd.root
      rw [hv1]
      by_cases hinner : IsLeaf cfg.numThreads 1
      · rw [if_neg (fun hboth => hboth.1 hinner)] at hroot
        omega
      · have hflow := h.flow 1
        have hleft := h.forwards_le_one hn honce (2 * 1)
        have harrivals := honce 1
        have hright : s.forwards (2 * 1 + 1) = 0 := by
          rcases Nat.lt_or_ge k 2 with hk | hk
          · refine (h.outside (2 * 1 + 1) ?_).2.2
            have hpow : 2 ^ k ≤ 2 ^ 1 := Nat.pow_le_pow_right (by decide) (by omega)
            omega
          · have hspine := h.forwards_spine hn honce (h.participate _ habsent) (k - 2) (by omega)
            have htwo : k - (k - 2) = 2 := by omega
            have hthree : 2 ^ (k - (k - 2)) - 1 = 2 * 1 + 1 :=
              (congrArg (fun e => 2 ^ e - 1) htwo).trans (by decide)
            rwa [hthree] at hspine
        rw [handled, if_neg hinner] at hflow
        have hthird : ¬ (3 ≤ s.treeInfo 1) := by omega
        rw [if_neg (fun hboth => hthird hboth.2)] at hroot
        omega
  · have hnode := hd.node v hv
    rw [hreleases (v / 2), ite_self] at hnode
    omega

/-- A step releases a core only if a release is on the bus. -/
theorem step_releases (hstep : Step cfg s a t) (hdescending : ∀ v, s.descending v = 0) :
    t.releases = s.releases := by
  rcases step_cases hstep with ⟨c, -, -, -, rfl⟩ | ⟨message, rest, hperm, ht⟩
  · rfl
  · cases ht with
    | released c hcore =>
      have hzero := hdescending c
      rw [count_descending_rest hperm, if_pos rfl] at hzero
      omega
    | passed => rfl
    | counted => rfl
    | completed => rfl
    | root => rfl

theorem participants_le_simulatorCores {numCores uses : ℕ} :
    ∀ c ∈ (simulatorCores n numCores uses).participants,
      c ≤ (simulatorCores n numCores uses).numThreads := by
  intro c hc
  exact (List.mem_range.mp hc).le

/-- On cores numbered from 0 no core is ever released. -/
theorem releases_simulatorCores {numCores uses : ℕ} (hn : n + 1 = 2 ^ k)
    (run : Run (Step (simulatorCores n numCores uses)) initial labels s) :
    ∀ v, s.releases v = 0 := by
  have hinv : ∀ labels s, Run (Step (simulatorCores n numCores uses)) initial labels s →
      Climbs (simulatorCores n numCores uses) s ∧ Descends (simulatorCores n numCores uses) s :=
    fun _ _ run => ⟨climbs_of_run participants_le_simulatorCores run, descends_of_run run⟩
  refine run.invariant_with (J := fun s => ∀ v, s.releases v = 0) (fun _ => rfl) hinv ?_
  intro s a t hboth hreleases hstep v
  have habsent : n ∉ (simulatorCores n numCores uses).participants := by
    simp [simulatorCores]
  rw [step_releases hstep (hboth.1.descending_eq_zero hboth.2 hn habsent hreleases)]
  exact hreleases v

/-- How far a message can still climb. -/
def height : BusMessage → ℕ
  | .treeBarrier c => c + 1
  | .treeBarrierRelease _ => 0

def awakeCores (n : ℕ) (sleep : ℕ → Bool) : ℕ :=
  ((Finset.range n).filter (fun c => sleep c = false)).card

/-- The work that is left as long as no core is released. -/
def work (n : ℕ) (s : TreeBarrier) : ℕ :=
  awakeCores n s.sleep * (n + 2) + (s.port.map height).sum

theorem sum_height_append (l : List BusMessage) (m : BusMessage) :
    ((l ++ [m]).map height).sum = (l.map height).sum + height m := by
  simp

theorem awakeCores_update {sleep : ℕ → Bool} (hc : c < n) (hawake : sleep c = false) :
    awakeCores n (Function.update sleep c true) < awakeCores n sleep := by
  apply Finset.card_lt_card
  rw [Finset.ssubset_iff_of_subset]
  · refine ⟨c, ?_, ?_⟩
    · simp [hc, hawake]
    · simp
  · intro d hd
    rw [Finset.mem_filter] at hd ⊢
    rcases eq_or_ne d c with rfl | hne
    · simp at hd
    · simpa [hne] using hd

theorem work_arrive (hc : c < n) (hawake : s.sleep c = false) :
    work n { s with
      numThreadsArrived := s.numThreadsArrived + 1
      sleep := Function.update s.sleep c true
      port := s.port ++ [.treeBarrier c]
      arrivals := increment s.arrivals c } < work n s := by
  have hmul := Nat.mul_le_mul_right (n + 2) (awakeCores_update hc hawake)
  rw [Nat.succ_mul] at hmul
  change awakeCores n (Function.update s.sleep c true) * (n + 2) +
    ((s.port ++ [BusMessage.treeBarrier c]).map height).sum < awakeCores n s.sleep * (n + 2) + _
  rw [sum_height_append]
  change _ + (_ + (c + 1)) < _
  omega

theorem work_handles {rest : List BusMessage} (hperm : s.port.Perm (message :: rest))
    (ht : Handles cfg { s with port := rest } message t) (hdescending : ∀ v, s.descending v = 0)
    (hzero : s.treeInfo 0 < 2) : work n t < work n s := by
  have hsum : (s.port.map height).sum = height message + (rest.map height).sum :=
    (hperm.map height).sum_eq
  have hless : ∀ (c : ℕ) (more : List BusMessage) (u : TreeBarrier), message = .treeBarrier c →
      u.sleep = s.sleep → u.port = rest ++ more → (more.map height).sum < c + 1 →
      work n u < work n s := by
    rintro c more u rfl hsleep hport hmore
    rw [work, work, hsleep, hport, hsum, List.map_append, List.sum_append]
    change _ < _ + (c + 1 + _)
    omega
  cases ht with
  | released c hcore =>
    have hnone := hdescending c
    rw [count_descending_rest hperm, if_pos rfl] at hnone
    omega
  | passed c hleaf =>
    have hc : c ≠ 0 := by
      rintro rfl
      exact not_isLeaf_zero hleaf
    refine hless c [.treeBarrier (c / 2)] _ rfl rfl rfl ?_
    change c / 2 + 1 + 0 < c + 1
    omega
  | counted c => exact hless c [] _ rfl rfl (List.append_nil _).symm (Nat.succ_pos c)
  | completed c hinner hc hcount hroot =>
    have hc : c ≠ 0 := by
      rintro rfl
      have hcount : s.treeInfo 0 + 1 = 3 := hcount
      omega
    refine hless c [.treeBarrier (c / 2)] _ rfl rfl rfl ?_
    change c / 2 + 1 + 0 < c + 1
    omega
  | root => exact hless 1 [.treeBarrierRelease 1] _ rfl rfl rfl (by decide)

/-- Core 0 counts its own arrival only. -/
theorem Climbs.treeInfo_zero (h : Climbs cfg s) (hn : cfg.numThreads + 1 = 2 ^ k) (hk : 1 ≤ k)
    (habsent : cfg.numThreads ∉ cfg.participants) (hreleases : ∀ v, s.releases v = 0) :
    s.treeInfo 0 < 2 := by
  have honce : ∀ v, s.arrivals v ≤ 1 := by
    intro v
    have hwaiting := h.waiting v
    rw [hreleases] at hwaiting
    exact hwaiting
  have hspine := h.forwards_spine hn honce (h.participate _ habsent) (k - 1) (by omega)
  have hone : k - (k - 1) = 1 := by omega
  have hroot : s.forwards (2 * 0 + 1) = 0 := by
    rwa [(congrArg (fun e => 2 ^ e - 1) hone).trans (by decide : 2 ^ 1 - 1 = 2 * 0 + 1)] at hspine
  have hflow := h.flow 0
  have hself := h.once 0 not_isLeaf_zero
  have harrivals := honce 0
  rw [handled, if_neg not_isLeaf_zero, hroot] at hflow
  change s.climbing 0 + s.treeInfo 0 = s.arrivals 0 + s.forwards 0 + 0 at hflow
  split_ifs at hself <;> omega

/-- Every run on cores numbered from 0 comes to an end. -/
theorem exists_stuck (numCores uses : ℕ) (hn : n + 1 = 2 ^ k) (hk : 1 ≤ k)
    (run : Run (Step (simulatorCores n numCores uses)) initial labels s) :
    ∃ labels t, Run (Step (simulatorCores n numCores uses)) initial labels t ∧
      Stuck (simulatorCores n numCores uses) t := by
  induction hm : work n s using Nat.strong_induction_on generalizing labels s with
  | _ m ih =>
    by_cases hstuck : Stuck (simulatorCores n numCores uses) s
    · exact ⟨labels, s, run, hstuck⟩
    · obtain ⟨a, ha⟩ := not_forall.mp hstuck
      obtain ⟨t, hstep⟩ := Option.ne_none_iff_exists'.mp ha
      have hclimbs := climbs_of_run participants_le_simulatorCores run
      have hreleases := releases_simulatorCores hn run
      have habsent : n ∉ (simulatorCores n numCores uses).participants := by
        simp [simulatorCores]
      have hless : work n t < work n s := by
        rcases step_cases hstep with ⟨c, hc, hawake, -, rfl⟩ | ⟨message, rest, hperm, ht⟩
        · exact work_arrive (List.mem_range.mp hc) hawake
        · exact work_handles hperm ht
            (hclimbs.descending_eq_zero (descends_of_run run) hn habsent hreleases)
            (hclimbs.treeInfo_zero hn hk habsent hreleases)
      rw [← hm] at ih
      exact ih (work n t) hless (run.snoc hstep) rfl

/-- On cores numbered from 0 the threads wait for ever at the first use. -/
theorem not_releasesEveryPhase {numCores uses : ℕ} (hn : n + 1 = 2 ^ k) (hpos : 0 < n)
    (huses : 0 < uses) : ¬ ReleasesEveryPhase (simulatorCores n numCores uses) := by
  intro hreleases
  have hk : 1 ≤ k := by
    by_contra hzero
    have hk0 : k = 0 := by omega
    rw [hk0] at hn
    omega
  obtain ⟨labels, s, run, hstuck⟩ := exists_stuck numCores uses hn hk .nil
  have hall := (hreleases labels s run).2.2 hstuck 0 (List.mem_range.mpr hpos)
  rw [releases_simulatorCores hn run 0] at hall
  have hzero : 0 = uses := hall
  omega

/-- Without an arrival nothing happens. -/
theorem releasesEveryPhase_of_idle (hidle : cfg.participants = [] ∨ cfg.uses = 0) :
    ReleasesEveryPhase cfg := by
  intro labels s run
  have hinitial : s = initial := by
    refine run.invariant (I := fun s => s = initial) rfl ?_
    rintro s a t rfl hstep
    rcases step_cases hstep with ⟨c, hc, -, hused, -⟩ | ⟨message, rest, hperm, -⟩
    · rcases hidle with hnone | hzero
      · rw [hnone] at hc
        cases hc
      · rw [hzero] at hused
        cases hused
    · exact absurd (List.perm_nil.mp hperm.symm) (List.cons_ne_nil _ _)
  rw [hinitial]
  refine ⟨fun c d _ => le_refl 0, fun c _ => rfl, fun _ c hc => ?_⟩
  rcases hidle with hnone | hzero
  · rw [hnone] at hc
    cases hc
  · exact hzero.symm

/-- With as many threads as a full heap has nodes, on the cores from 0 on, the barrier
does what it is for exactly when it is not used. -/
theorem releasesEveryPhase_iff (n k numCores uses : ℕ) (hn : n + 1 = 2 ^ k) :
    ReleasesEveryPhase (simulatorCores n numCores uses) ↔ n = 0 ∨ uses = 0 := by
  constructor
  · intro hreleases
    by_contra hused
    exact not_releasesEveryPhase hn (by omega) (by omega) hreleases
  · rintro (rfl | rfl)
    · exact releasesEveryPhase_of_idle (Or.inl rfl)
    · exact releasesEveryPhase_of_idle (Or.inr rfl)

theorem releasesEveryPhase_iff_three :
    ReleasesEveryPhase (simulatorCores 3 4 2) ↔ 3 = 0 ∨ 2 = 0 :=
  releasesEveryPhase_iff 3 2 4 2 rfl

/-- Three threads on the cores 0, 1 and 2 never leave their first barrier. -/
theorem three_threads_never_released :
    ¬ ∀ n k numCores uses, n + 1 = 2 ^ k → n ≤ numCores →
      ReleasesEveryPhase (simulatorCores n numCores uses) := by
  intro hclaim
  exact not_releasesEveryPhase (n := 3) (k := 2) rfl (by decide) (by decide)
    (hclaim 3 2 4 1 rfl (by decide))

/-! ## Cores numbered from 1 -/

/-- What is true of the first use of the barrier by the cores of the heap. -/
structure FirstUse (n k : ℕ) (cfg : TreeBarrierConfig) (s : TreeBarrier) : Prop where
  numThreads : cfg.numThreads = n
  full : n + 1 = 2 ^ k
  deep : 2 ≤ k
  climbs : Climbs cfg s
  descends : Descends cfg s
  once : ∀ v, s.arrivals v ≤ 1

theorem FirstUse.root_inner (h : FirstUse n k cfg s) : ¬ IsLeaf cfg.numThreads 1 := by
  rw [h.numThreads, isLeaf_iff h.full]
  have hpow : 2 ^ 1 ≤ 2 ^ (k - 1) := Nat.pow_le_pow_right (by decide) (by have := h.deep; omega)
  omega

theorem FirstUse.forwards_le_one (h : FirstUse n k cfg s) (v : ℕ) : s.forwards v ≤ 1 :=
  h.climbs.forwards_le_one (h.numThreads ▸ h.full) h.once v

/-- A node that has handled three arrivals has handled its own and both of its children. -/
theorem FirstUse.of_third (h : FirstUse n k cfg s) (hinner : ¬ IsLeaf cfg.numThreads v)
    (hthird : 3 ≤ s.treeInfo v) :
    s.arrivals v = 1 ∧ s.forwards (2 * v) = 1 ∧ s.forwards (2 * v + 1) = 1 := by
  have hflow := h.climbs.flow v
  have harrivals := h.once v
  have hleft := h.forwards_le_one (2 * v)
  have hright := h.forwards_le_one (2 * v + 1)
  rw [handled, if_neg hinner] at hflow
  omega

/-- A leaf passes on its own arrival only. -/
theorem FirstUse.forwards_leaf (h : FirstUse n k cfg s) (hleaf : IsLeaf cfg.numThreads v) :
    s.climbing v + s.forwards v = s.arrivals v := by
  have hflow := h.climbs.flow v
  have hbelow := lt_two_mul_of_isLeaf (h.numThreads ▸ h.full) hleaf
  rw [handled, if_pos hleaf, (h.climbs.outside (2 * v) hbelow).2.2,
    (h.climbs.outside (2 * v + 1) (by omega)).2.2] at hflow
  omega

/-- When the root releases, every node has arrived. -/
theorem FirstUse.all_arrived (h : FirstUse n k cfg s) (hroot : 3 ≤ s.treeInfo 1) (v : ℕ)
    (hv : 1 ≤ v) (hle : v ≤ n) :
    s.arrivals v = 1 ∧ (¬ IsLeaf cfg.numThreads v → 3 ≤ s.treeInfo v) := by
  induction v using Nat.strong_induction_on with
  | _ v ih =>
    rcases eq_or_ne v 1 with rfl | hne
    · exact ⟨(h.of_third h.root_inner hroot).1, fun _ => hroot⟩
    · have hinner : ¬ IsLeaf cfg.numThreads (v / 2) := by
        intro hleaf
        have hbelow := lt_two_mul_of_isLeaf (h.numThreads ▸ h.full) hleaf
        have hthreads := h.numThreads
        omega
      have hparent := (ih (v / 2) (by omega) (by omega) (by omega)).2 hinner
      have hpassed := h.of_third hinner hparent
      have hforwards : s.forwards v = 1 := by
        rcases (by omega : 2 * (v / 2) = v ∨ 2 * (v / 2) + 1 = v) with heven | hodd
        · rw [heven] at hpassed
          exact hpassed.2.1
        · rw [hodd] at hpassed
          exact hpassed.2.2
      by_cases hleaf : IsLeaf cfg.numThreads v
      · have hflow := h.forwards_leaf hleaf
        have harrivals := h.once v
        exact ⟨by omega, fun hinner => absurd hleaf hinner⟩
      · have honce := h.climbs.once v hleaf
        have hthird : 3 ≤ s.treeInfo v := by
          by_contra hless
          rw [if_neg (fun hboth => hless hboth.2)] at honce
          omega
        exact ⟨(h.of_third hleaf hthird).1, fun _ => hthird⟩

/-- A core is released at most once, and then the root has handled three arrivals. -/
theorem FirstUse.releases_le_one (h : FirstUse n k cfg s) (v : ℕ) :
    s.descending v + s.releases v ≤ 1 ∧ (1 ≤ s.descending v + s.releases v → 3 ≤ s.treeInfo 1) := by
  induction v using Nat.strong_induction_on with
  | _ v ih =>
    rcases Nat.lt_or_ge v 2 with hv | hv
    · rcases Nat.lt_or_ge v 1 with hzero | hone
      · have hv0 : v = 0 := by omega
        rw [hv0, h.descends.zero.1, h.descends.zero.2]
        omega
      · have hv1 : v = 1 := by omega
        rw [hv1, h.descends.root]
        split_ifs with hboth
        · exact ⟨le_refl 1, fun _ => hboth.2⟩
        · exact ⟨Nat.zero_le 1, fun hpos => absurd hpos (by decide)⟩
    · rw [h.descends.node v hv]
      obtain ⟨hle, hthird⟩ := ih (v / 2) (by omega)
      split_ifs
      · exact ⟨by omega, fun hpos => hthird (by omega)⟩
      · exact ⟨Nat.zero_le 1, fun hpos => absurd hpos (by decide)⟩

/-- When every node has arrived and the bus is empty, every node has been released. -/
theorem FirstUse.all_released (h : FirstUse n k cfg s) (hport : s.port = [])
    (harrived : ∀ v, 1 ≤ v → v ≤ n → s.arrivals v = 1) (v : ℕ) (hv : 1 ≤ v) (hle : v ≤ n) :
    s.releases v = 1 := by
  have hempty : ∀ w, s.climbing w = 0 ∧ s.descending w = 0 := by
    intro w
    rw [climbing, descending, hport]
    exact ⟨rfl, rfl⟩
  have hthreads := h.numThreads
  -- the arrivals are all passed on, from the leaves to the root
  have hpassed : ∀ m w, n - w = m → 1 ≤ w → w ≤ n →
      (IsLeaf cfg.numThreads w ∧ s.forwards w = 1) ∨
        (¬ IsLeaf cfg.numThreads w ∧ 3 ≤ s.treeInfo w) := by
    intro m
    induction m using Nat.strong_induction_on with
    | _ m ih =>
      intro w hm hw hwn
      by_cases hleaf : IsLeaf cfg.numThreads w
      · have hflow := h.forwards_leaf hleaf
        rw [(hempty w).1, harrived w hw hwn] at hflow
        exact Or.inl ⟨hleaf, by omega⟩
      · have hchildren := two_mul_le_of_not_isLeaf (hthreads ▸ h.full) hw (by omega) hleaf
        have hone : ∀ c, w < c → c ≤ n → c ≠ 1 → s.forwards c = 1 := by
          intro c hwc hcn hc
          rcases ih (n - c) (by omega) c rfl (by omega) hcn with ⟨-, hforwards⟩ | ⟨hinner, hthird⟩
          · exact hforwards
          · rw [h.climbs.once c hinner, if_pos ⟨hc, hthird⟩]
        have hflow := h.climbs.flow w
        rw [handled, if_neg hleaf, (hempty w).1, harrived w hw hwn,
          hone (2 * w) (by omega) (by omega) (by omega),
          hone (2 * w + 1) (by omega) (by omega) (by omega)] at hflow
        exact Or.inr ⟨hleaf, by omega⟩
  induction v using Nat.strong_induction_on with
  | _ v ih =>
    rcases eq_or_ne v 1 with rfl | hne
    · have hroot := h.descends.root
      rcases hpassed (n - 1) 1 rfl (le_refl 1) hle with ⟨hleaf, -⟩ | ⟨hinner, hthird⟩
      · exact absurd hleaf h.root_inner
      · rw [(hempty 1).2, if_pos ⟨hinner, hthird⟩] at hroot
        omega
    · have hparent := ih (v / 2) (by omega) (by omega) (by omega)
      have hnode := h.descends.node v (by omega)
      have hodd : v / 2 * 2 < cfg.numThreads := by
        have hpow : 2 ^ k = 2 * 2 ^ (k - 1) := by
          rw [Nat.mul_comm, ← Nat.pow_succ]
          congr 1
          have hdeep := h.deep
          omega
        have hfull := h.full
        omega
      rw [(hempty v).2, if_pos hodd, hparent] at hnode
      omega

theorem mem_heapCores {numCores uses : ℕ} :
    v ∈ (heapCores n numCores uses).participants ↔ 1 ≤ v ∧ v ≤ n := by
  simp only [heapCores, List.mem_range']
  constructor
  · rintro ⟨i, hi, rfl⟩
    omega
  · intro hv
    exact ⟨v - 1, by omega, by omega⟩

/-- A state in which nothing can happen has an empty bus. -/
theorem Stuck.port_eq_nil (hstuck : Stuck cfg s) (hclimbs : Climbs cfg s)
    (hcores : ∀ v, 1 ≤ s.descending v → v < cfg.numCores) : s.port = [] := by
  rcases hport : s.port with _ | ⟨message, rest⟩
  · rfl
  · have hnone := hstuck (.deliver 0)
    simp only [next, hport, List.getElem?_cons_zero, Option.bind_some] at hnone
    cases message with
    | treeBarrierRelease c =>
      have hc : c < cfg.numCores := by
        apply hcores
        rw [descending, hport, List.count_cons_self]
        omega
      simp only [handleEvent, if_pos hc] at hnone
      cases hnone
    | treeBarrier c =>
      have hc : c ≤ cfg.numThreads := by
        by_contra hout
        have hzero := (hclimbs.outside c (by omega)).1
        rw [climbing, hport, List.count_cons_self] at hzero
        omega
      simp only [handleEvent, if_pos hc] at hnone
      split at hnone
      · cases hnone
      · split at hnone
        · split at hnone <;> cases hnone
        · cases hnone

/-- With the cores numbered like the heap, one use of the barrier works: the release
reaches every core once and after all of them have arrived. -/
theorem releasesEveryPhase_heapCores {numCores : ℕ} (hn : n + 1 = 2 ^ k) (hk : 2 ≤ k)
    (hcores : n < numCores) : ReleasesEveryPhase (heapCores n numCores 1) := by
  intro labels s run
  have hparticipants : ∀ c ∈ (heapCores n numCores 1).participants,
      c ≤ (heapCores n numCores 1).numThreads := fun c hc => (mem_heapCores.mp hc).2
  have h : FirstUse n k (heapCores n numCores 1) s :=
    ⟨rfl, hn, hk, climbs_of_run hparticipants run, descends_of_run run,
      (climbs_of_run hparticipants run).used⟩
  have houtside : ∀ c, 1 ≤ s.descending c + s.releases c → 1 ≤ c ∧ c ≤ n := by
    intro c hc
    have hzero := h.descends.zero
    have hpos : c ≠ 0 := by
      rintro rfl
      omega
    refine ⟨by omega, ?_⟩
    by_contra hout
    have hpow : 2 ^ 2 ≤ 2 ^ k := Nat.pow_le_pow_right (by decide) hk
    have hnode := h.descends.node c (by omega)
    have hhalf : 2 ^ k = 2 * 2 ^ (k - 1) := by
      rw [Nat.mul_comm, ← Nat.pow_succ]
      congr 1
      omega
    have hodd : ¬ (c / 2 * 2 < (heapCores n numCores 1).numThreads) := by
      change ¬ (c / 2 * 2 < n)
      omega
    rw [if_neg hodd] at hnode
    omega
  refine ⟨?_, ?_, ?_⟩
  · intro c d hd
    obtain ⟨hle, hthird⟩ := h.releases_le_one c
    by_cases hreleased : 1 ≤ s.releases c
    · rw [(h.all_arrived (hthird (by omega)) d (mem_heapCores.mp hd).1 (mem_heapCores.mp hd).2).1]
      omega
    · omega
  · intro c hc
    by_contra hreleased
    exact hc (mem_heapCores.mpr (houtside c (by omega)))
  · intro hstuck c hc
    have hport : s.port = [] := by
      refine hstuck.port_eq_nil h.climbs (fun v hv => ?_)
      have hle := (houtside v (by omega)).2
      exact Nat.lt_of_le_of_lt hle hcores
    have harrived : ∀ v, 1 ≤ v → v ≤ n → s.arrivals v = 1 := by
      intro v hv hle
      have hnone := hstuck (.arrive v)
      have honce := h.once v
      by_contra hnot
      have hawake : s.sleep v = false := by
        rcases Bool.eq_false_or_eq_true (s.sleep v) with hsleep | hsleep
        · have hone := h.climbs.asleep v hsleep
          omega
        · exact hsleep
      simp only [next, arrive, mem_heapCores] at hnone
      have hunused : s.arrivals v < (heapCores n numCores 1).uses := Nat.lt_of_le_of_ne honce hnot
      rw [if_pos ⟨⟨hv, hle⟩, hawake, hunused⟩] at hnone
      cases hnone
    exact h.all_released hport harrived c (mem_heapCores.mp hc).1 (mem_heapCores.mp hc).2

end TreeBarrier

end Tejas
