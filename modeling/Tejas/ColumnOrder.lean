import Tejas.CommandPops
import Mathlib.Data.List.Perm.Basic
import Mathlib.Data.List.Nodup

/-!
# The order of the column commands

Transactions enter the command queue as pairs, ranks ask for refreshes, commands are popped
and state updates fire, in any sequence. The commands of a transaction stay together, every
column command is in its queue or popped once, and an ACTIVATE leaves by being popped or with
its column command. Column commands to one row of a bank are popped in the order they came.
With close page and one queue for a rank that rests on the bank staying open for the column
command whose ACTIVATE is popped. A state update goes by the last command of its bank when it
fires; one that was scheduled before a REFRESH, and fires after it, sets every bank of the
rank idle, also a bank that was activated in between.
-/

namespace Tejas
open LabelledRuns

variable {cfg : MainMemoryConfig} {E : Type}

/-- The controller with the column commands that entered its queue and the commands popped. -/
structure CommandHistory (cfg : MainMemoryConfig) (E : Type) where
  controller : BankController cfg E
  enqueued : List (MainMemoryBusPacket cfg E)
  popped : List (MainMemoryBusPacket cfg E)

inductive CommandAction (cfg : MainMemoryConfig) (E : Type)
  | enqueue (kind : MemoryRequest) (b : MainMemoryBusPacket cfg E)
  | needRefresh (rank : cfg.Rank)
  | pop (now : ℤ)
  | stateUpdate (event : StateUpdateEvent cfg)

namespace CommandHistory

def new (cfg : MainMemoryConfig) (E : Type) : CommandHistory cfg E := ⟨.new cfg E, [], []⟩

variable (s : CommandHistory cfg E)

def step (s : CommandHistory cfg E) : CommandAction cfg E → Option (CommandHistory cfg E)
  | .enqueue kind b =>
    let column := b.withType (requestTypeToBusPacketType cfg kind)
    if b.testid ∈ s.enqueued.map (fun c => c.testid) then none
    else (s.controller.enqueuePair column).map (fun controller =>
      { s with controller := controller, enqueued := s.enqueued ++ [column] })
  | .needRefresh rank => some { s with controller := s.controller.needRefresh rank }
  | .pop now =>
    let result := s.controller.popCommand now
    some { s with controller := result.2, popped := s.popped ++ result.1.toList }
  | .stateUpdate event =>
    if event ∈ s.controller.stateUpdates then
      some { s with controller := s.controller.handleStateUpdate event }
    else none

/-- The commands in a queue of a rank. -/
def queue (rank : cfg.Rank) (queue : cfg.Bank) : List (MainMemoryBusPacket cfg E) :=
  s.controller.commandQueue.queues rank queue

end CommandHistory

namespace MainMemoryBusPacket

variable (b : MainMemoryBusPacket cfg E)

/-- The packet is a column command for a row of a bank. -/
def goesTo (rank : cfg.Rank) (bank : cfg.Bank) (row : ℤ) : Bool :=
  b.isColumn && b.rank = rank && b.isFor bank row

/-- The packet is a column command for a queue. -/
def isColumnIn (rank : cfg.Rank) (queue : cfg.Bank) : Bool :=
  b.isColumn && b.rank = rank && cfg.queueIndex b.bank = queue

/-- How many column commands of a transaction a list has. -/
def copies (testid : ℕ) (l : List (MainMemoryBusPacket cfg E)) : ℕ :=
  l.countP (fun b => b.isColumn && b.testid = testid)

end MainMemoryBusPacket

namespace CommandHistory

/-- An ACTIVATE that leaves its queue is popped, or leaves with its own column command. -/
def ActivatesAccounted (s s' : CommandHistory cfg E) : Prop :=
  ∀ rank queue, ∀ a ∈ s.queue rank queue, a.isActivate = true → a ∉ s'.queue rank queue →
    s'.popped = s.popped ++ [a] ∨
      ∃ c, s'.popped = s.popped ++ [c] ∧ c.isColumn = true ∧ a = c.withType .activate

/-- What the command queue promises about the commands that enter it. -/
structure Conforms (s : CommandHistory cfg E) : Prop where
  blocks : ∀ rank queue, ∃ blocks : List (Block cfg E), s.queue rank queue = render blocks ∧
    ∀ k ∈ blocks, k.column.isColumn = true
  once : ∀ c ∈ s.enqueued, MainMemoryBusPacket.copies c.testid s.popped +
    MainMemoryBusPacket.copies c.testid (s.queue c.rank (cfg.queueIndex c.bank)) = 1
  popped_known : ∀ b ∈ s.popped, b.isColumn = true → b ∈ s.enqueued
  queued_known : ∀ rank queue, ∀ b ∈ s.queue rank queue, b.isColumn = true →
    b ∈ s.enqueued ∧ b.isColumnIn rank queue = true
  activates : ∀ action s', s.step action = some s' → ActivatesAccounted s s'
  order : ∀ rank bank row, s.popped.filter (fun b => b.goesTo rank bank row) <+:
    s.enqueued.filter (fun b => b.goesTo rank bank row)

end CommandHistory

/-- A state update that finds a REFRESH as the last command of its bank finds no open row in
the rank. -/
def BankController.UpdatesInTime (s : BankController cfg E) (event : StateUpdateEvent cfg) : Prop :=
  (s.bankStates event.rank event.bank).lastCommand = .refresh →
    ∀ bank, (s.bankStates event.rank bank).currentBankState ≠ .rowActive

/-- With close page and one queue for a rank, the state updates are in time. -/
def CommandHistory.InTime (s : CommandHistory cfg E) (action : CommandAction cfg E) : Prop :=
  cfg.rowBufferPolicy = .closePage → cfg.queuingStructure = .perRank →
    ∀ event, action = .stateUpdate event → s.controller.UpdatesInTime event

/-- The columns of a list of blocks. -/
def columns (blocks : List (Block cfg E)) : List (MainMemoryBusPacket cfg E) :=
  blocks.map Block.column

@[simp] theorem columns_append {bl br : List (Block cfg E)} :
    columns (bl ++ br) = columns bl ++ columns br := List.map_append

@[simp] theorem columns_cons {k : Block cfg E} {br : List (Block cfg E)} :
    columns (k :: br) = k.column :: columns br := rfl

/-- A block whose ACTIVATE is popped is the first one of its bank. -/
def LoneFirst (blocks : List (Block cfg E)) : Prop :=
  blocks.Pairwise (fun k' k => k.activated = true → k'.column.bank ≠ k.column.bank)

/-- The row of a column command whose ACTIVATE is popped is open. -/
def LoneOpen (bankStates : BankStates cfg) (t : BlockTable cfg E) : Prop :=
  ∀ rank queue, ∀ k ∈ t rank queue, k.activated = true →
    (bankStates rank k.column.bank).phase = (.rowActive, .activate, k.column.row)

section Blocks

variable {bankStates : BankStates cfg} {now : ℤ} {t t' : BlockTable cfg E}
  {b : MainMemoryBusPacket cfg E} {bl br blocks : List (Block cfg E)} {k k' : Block cfg E}
  {rank i : cfg.Rank} {queue j : cfg.Bank}

/-- All blocks stand where they belong. -/
def AllPlaced (t : BlockTable cfg E) : Prop :=
  ∀ rank queue, ∀ k ∈ t rank queue, k.Placed rank queue

theorem BankState.phase_eq {s : BankState} {state : CurrentBankState} {command : BusPacketType}
    {row : ℤ} (h : s.phase = (state, command, row)) :
    s.currentBankState = state ∧ s.lastCommand = command ∧ s.openRowAddress = row := by
  cases h
  exact ⟨rfl, rfl, rfl⟩

/-- Two blocks of one bank in one queue, of which the one is open, are not both open. -/
theorem LoneFirst.other (h : LoneFirst (bl ++ k :: br)) (hk : k.activated = true)
    (hk' : k' ∈ bl ++ br) (hopen : k'.activated = true) : k'.column.bank ≠ k.column.bank := by
  rw [LoneFirst, List.pairwise_append, List.pairwise_cons] at h
  rcases List.mem_append.mp hk' with hk' | hk'
  · exact h.2.2 k' hk' k List.mem_cons_self hk
  · exact fun heq => h.2.1.1 k' hk' hopen heq.symm

/-- Popping a command keeps every open block the first one of its bank. -/
theorem loneFirst_of_popped (hclose : cfg.rowBufferPolicy = .closePage)
    (hlone : ∀ rank queue, LoneFirst (t rank queue))
    (hopen : cfg.queuingStructure = .perRank → LoneOpen bankStates t)
    (h : Popped bankStates now t b t') : ∀ rank queue, LoneFirst (t' rank queue) := by
  intro i j
  cases h with
  | refresh => exact hlone i j
  | precharge rank bank hpolicy => simp [hclose] at hpolicy
  | activate rank queue bl k br ht hk hstate hready hrank hbank =>
    rw [setEntry_apply]
    split
    case isFalse => exact hlone i j
    case isTrue =>
      have hold := hlone rank queue
      rw [ht, LoneFirst, List.pairwise_append, List.pairwise_cons] at hold
      rw [LoneFirst, List.pairwise_append, List.pairwise_cons]
      refine ⟨hold.1, ⟨fun k' hk' => hold.2.1.1 k' hk', hold.2.1.2⟩, ?_⟩
      intro k₁ hk₁ k₂ hk₂ hactive
      rcases List.mem_cons.mp hk₂ with rfl | hk₂
      · -- an earlier block of the bank would be open, and the ACTIVATE not allowed
        intro hsame
        cases hstructure : cfg.queuingStructure with
        | perRankPerBank =>
          rw [hbank hclose hstructure] at hk₁
          cases hk₁
        | perRank =>
          have hphase := hopen hstructure rank queue k₁ (by simp [ht, hk₁])
            (hrank hclose hstructure k₁ hk₁ hsame)
          obtain ⟨hrow, -, -⟩ := BankState.phase_eq hphase
          have hsame' : k₁.column.bank = k.column.bank := hsame
          rw [hsame'] at hrow
          simp [hrow] at hstate
      · exact hold.2.2 k₁ hk₁ k₂ (List.mem_cons_of_mem _ hk₂) hactive
  | column rank queue bl k br ht =>
    rw [setEntry_apply]
    split
    case isFalse => exact hlone i j
    case isTrue =>
      have hold := hlone rank queue
      rw [ht] at hold
      exact hold.sublist (List.Sublist.append_left (List.sublist_cons_self k br) bl)

theorem mem_setEntry (h : k ∈ setEntry t rank queue blocks i j) :
    i = rank ∧ j = queue ∧ k ∈ blocks ∨ k ∈ t i j := by
  rw [setEntry_apply] at h
  split at h
  case isTrue hij => exact Or.inl ⟨hij.1, hij.2, h⟩
  case isFalse => exact Or.inr h

/-- A block that enters is not open. -/
theorem loneFirst_of_entered {c : MainMemoryBusPacket cfg E}
    (hlone : ∀ rank queue, LoneFirst (t rank queue)) (rank : cfg.Rank) (queue : cfg.Bank) :
    ∀ i j, LoneFirst (setEntry t rank queue (t rank queue ++ [⟨c, false⟩]) i j) := by
  intro i j
  rw [setEntry_apply]
  split
  case isTrue =>
    rw [LoneFirst, List.pairwise_append]
    refine ⟨hlone _ _, List.pairwise_singleton _ _, ?_⟩
    intro k₁ _ k₂ hk₂ hactive
    rw [List.mem_singleton.mp hk₂] at hactive
    cases hactive
  case isFalse => exact hlone i j

theorem loneOpen_of_entered {c : MainMemoryBusPacket cfg E} (hopen : LoneOpen bankStates t)
    (rank : cfg.Rank) (queue : cfg.Bank) :
    LoneOpen bankStates (setEntry t rank queue (t rank queue ++ [⟨c, false⟩])) := by
  intro i j k hk hactive
  rcases mem_setEntry hk with ⟨rfl, rfl, hmem⟩ | hmem
  · rcases List.mem_append.mp hmem with hmem | hmem
    · exact hopen _ _ k hmem hactive
    · rw [List.mem_singleton.mp hmem] at hactive
      cases hactive
  · exact hopen i j k hmem hactive

/-- Popping a command keeps the row of every open block open. -/
theorem loneOpen_of_popped (hclose : cfg.rowBufferPolicy = .closePage) (hplaced : AllPlaced t)
    (hlone : ∀ rank queue, LoneFirst (t rank queue)) (hopen : LoneOpen bankStates t)
    (h : Popped bankStates now t b t') : LoneOpen (bankStates.after now b) t' := by
  intro i j k' hk' hactive
  cases h with
  | refresh row column rank hidle =>
    have hphase := hopen i j k' hk' hactive
    rw [BankStates.phase_after_refresh rfl]
    split
    case isTrue hi =>
      have hi : i = rank := hi
      subst hi
      exact absurd (BankState.phase_eq hphase).1 (hidle _)
    case isFalse => exact hphase
  | precharge rank bank hpolicy => simp [hclose] at hpolicy
  | activate rank queue bl k br ht hk hstate =>
    have hkplaced := hplaced rank queue k (by simp [ht])
    rw [BankStates.phase_after_activate rfl]
    by_cases hsame : i = rank ∧ k'.column.bank = k.column.bank
    · rw [if_pos ⟨hsame.1.trans hkplaced.rank.symm, hsame.2⟩]
      -- an open block of this bank would not let it be activated
      have hnot : k' ∉ t i j := by
        intro hmem
        obtain ⟨hrow, -, -⟩ := BankState.phase_eq (hopen i j k' hmem hactive)
        rw [hsame.1, hsame.2] at hrow
        simp [hrow] at hstate
      rcases mem_setEntry hk' with ⟨hi, hj, hmem⟩ | hmem
      · subst hi hj
        rcases List.mem_append.mp hmem with hmem | hmem
        · exact (hnot (by simp [ht, hmem])).elim
        · rcases List.mem_cons.mp hmem with rfl | hmem
          · rfl
          · exact (hnot (by simp [ht, hmem])).elim
      · exact absurd hmem hnot
    · rw [if_neg (fun hand => hsame ⟨hand.1.trans hkplaced.rank, hand.2⟩)]
      rcases mem_setEntry hk' with ⟨hi, hj, hmem⟩ | hmem
      · subst hi hj
        rcases List.mem_append.mp hmem with hmem | hmem
        · exact hopen i j k' (by simp [ht, hmem]) hactive
        · rcases List.mem_cons.mp hmem with rfl | hmem
          · exact absurd ⟨rfl, rfl⟩ hsame
          · exact hopen i j k' (by simp [ht, hmem]) hactive
      · exact hopen i j k' hmem hactive
  | column rank queue bl k br ht _ _ _ hclosed =>
    have hkplaced := hplaced rank queue k (by simp [ht])
    have hmem : k' ∈ t i j := by
      rcases mem_setEntry hk' with ⟨rfl, rfl, hmem⟩ | hmem
      · rw [ht]
        exact List.mem_append.mpr ((List.mem_append.mp hmem).imp_right (List.mem_cons_of_mem k))
      · exact hmem
    rw [BankStates.phase_after_column hkplaced.fits.isColumn, if_neg ?_]
    · exact hopen i j k' hmem hactive
    · rintro ⟨hi, hbank⟩
      have hi : i = rank := hi.trans hkplaced.rank
      have hj : j = queue := by
        rw [← (hplaced i j k' hmem).queue, hbank, hkplaced.queue]
      subst hi hj
      have hother : k' ∈ bl ++ br := by
        rw [setEntry_apply, if_pos ⟨rfl, rfl⟩] at hk'
        exact hk'
      have hfirst := hlone i j
      rw [ht] at hfirst
      exact hfirst.other (hclosed hclose) hother hactive hbank

/-- A state update in time keeps the row of every open block open. -/
theorem loneOpen_of_update {bank : cfg.Bank} (hopen : LoneOpen bankStates t)
    (htime : (bankStates rank bank).lastCommand = .refresh →
      ∀ j row, (bankStates rank j).phase ≠ (.rowActive, .activate, row)) :
    LoneOpen (bankStates.afterUpdate rank bank) t := by
  intro i j k hk hactive
  have hphase := hopen i j k hk hactive
  obtain ⟨-, hlast, -⟩ := BankState.phase_eq hphase
  by_cases hrefresh : (bankStates rank bank).lastCommand = .refresh
  · by_cases hi : i = rank
    · subst hi
      exact absurd hphase (htime hrefresh _ _)
    · have hsame : bankStates.afterUpdate rank bank i k.column.bank =
          bankStates i k.column.bank := by
        simp [BankStates.afterUpdate, hrefresh, hi]
      rw [hsame]
      exact hphase
  · have hupdate := BankStates.phase_afterUpdate (i := i) (j := k.column.bank) hrefresh
    rcases hupdate with hsame | ⟨rfl, rfl, hne⟩
    · rw [hsame]
      exact hphase
    · exact absurd hlast hne

/-- A popped command is no column command and leaves the columns alone, or it is the column of
the block that is taken out. -/
theorem columns_of_popped (hplaced : AllPlaced t) (h : Popped bankStates now t b t') :
    (b.isColumn = false ∧ ∀ i j, columns (t' i j) = columns (t i j)) ∨
    ∃ rank queue bl k br, t rank queue = bl ++ k :: br ∧ t' = setEntry t rank queue (bl ++ br) ∧
      b = k.column ∧ k.Placed rank queue ∧
      (cfg.rowBufferPolicy = .closePage → k.activated = true) ∧
      (cfg.rowBufferPolicy = .openPage →
        ∀ k' ∈ bl, k'.column.isFor k.column.bank k.column.row = false) := by
  cases h with
  | refresh => exact Or.inl ⟨rfl, fun i j => rfl⟩
  | precharge => exact Or.inl ⟨rfl, fun i j => rfl⟩
  | activate rank queue bl k br ht =>
    refine Or.inl ⟨rfl, fun i j => ?_⟩
    rw [setEntry_apply]
    split
    case isTrue hij => simp [hij.1, hij.2, ht, columns, Block.opened]
    case isFalse => rfl
  | column rank queue bl k br ht hactive hrow hready hclose hopen =>
    exact Or.inr ⟨rank, queue, bl, k, br, ht, rfl, rfl, hplaced rank queue k (by simp [ht]),
      hclose, hopen⟩

end Blocks

namespace CommandHistory

variable {s s' : CommandHistory cfg E} {t t' : BlockTable cfg E}
  {labels : List (CommandAction cfg E)} {action : CommandAction cfg E}

/-- What one action does to the controller, the histories and the blocks. -/
inductive Move (s : CommandHistory cfg E) (t : BlockTable cfg E) :
    CommandAction cfg E → CommandHistory cfg E → BlockTable cfg E → Prop
  | entered (kind : MemoryRequest) (b c : MainMemoryBusPacket cfg E) (cq' : CommandQueue cfg E)
      (hfits : c.Fits) (hfresh : c.testid ∉ s.enqueued.map (fun c => c.testid))
      (hblocked : Blocked cq' (setEntry t c.rank (cfg.queueIndex c.bank)
        (t c.rank (cfg.queueIndex c.bank) ++ [⟨c, false⟩]))) :
    Move s t (.enqueue kind b)
      ⟨{ s.controller with commandQueue := cq' }, s.enqueued ++ [c], s.popped⟩
      (setEntry t c.rank (cfg.queueIndex c.bank)
        (t c.rank (cfg.queueIndex c.bank) ++ [⟨c, false⟩]))
  | quiet (a : CommandAction cfg E) (cq' : CommandQueue cfg E)
      (hqueues : cq'.queues = s.controller.commandQueue.queues) :
    Move s t a ⟨{ s.controller with commandQueue := cq' }, s.enqueued, s.popped⟩ t
  | updated (event : StateUpdateEvent cfg) :
    Move s t (.stateUpdate event) ⟨s.controller.handleStateUpdate event, s.enqueued, s.popped⟩ t
  | popped (now : ℤ) (b : MainMemoryBusPacket cfg E) (cq' : CommandQueue cfg E)
      (t' : BlockTable cfg E) (hpopped : Popped s.controller.bankStates now t b t')
      (hblocked : Blocked cq' t') :
    Move s t (.pop now)
      ⟨⟨s.controller.bankStates.after now b, cq',
        s.controller.stateUpdates ++ scheduledUpdate now b⟩, s.enqueued, s.popped ++ [b]⟩ t'

theorem move_of_step (hb : Blocked s.controller.commandQueue t) (h : s.step action = some s') :
    ∃ t', Move s t action s' t' := by
  cases action with
  | enqueue kind b =>
    rw [step] at h
    split at h
    case isTrue => cases h
    case isFalse hfresh =>
      obtain ⟨controller, hpair, rfl⟩ := Option.map_eq_some_iff.mp h
      have hfits : (b.withType (requestTypeToBusPacketType cfg kind)).Fits := ⟨kind, rfl⟩
      obtain ⟨cq', rfl, hb'⟩ := BankController.enqueuePair_eq_some hb hfits hpair
      exact ⟨_, .entered kind b _ cq' hfits hfresh hb'⟩
  | needRefresh rank =>
    cases h
    exact ⟨t, .quiet _ _ rfl⟩
  | pop now =>
    rw [step] at h
    rcases BankController.popCommand_cases now hb with
      ⟨cq', hpop, hqueues⟩ | ⟨b, cq', t', hpop, hpopped, hb'⟩
    · rw [hpop] at h
      cases h
      simp only [Option.toList_none, List.append_nil]
      exact ⟨t, .quiet _ cq' hqueues⟩
    · rw [hpop] at h
      cases h
      exact ⟨t', .popped now b cq' t' hpopped hb'⟩
  | stateUpdate event =>
    rw [step] at h
    split at h
    case isTrue =>
      cases h
      exact ⟨t, .updated event⟩
    case isFalse => cases h

theorem Move.blocked (h : Move s t action s' t') (hb : Blocked s.controller.commandQueue t) :
    Blocked s'.controller.commandQueue t' := by
  cases h with
  | entered kind b c cq' hfits hfresh hblocked => exact hblocked
  | quiet a cq' hqueues => exact hb.congr hqueues
  | updated event => exact hb
  | popped now b cq' t' hpopped hblocked => exact hblocked

/-- The histories and the blocks account for every column command once. -/
structure Tracks (s : CommandHistory cfg E) (t : BlockTable cfg E) : Prop where
  blocked : Blocked s.controller.commandQueue t
  fresh : (s.enqueued.map (fun c => c.testid)).Nodup
  column : ∀ c ∈ s.enqueued, c.isColumn = true
  once : ∀ rank queue, (s.enqueued.filter (fun b => b.isColumnIn rank queue)).Perm
    (s.popped.filter (fun b => b.isColumnIn rank queue) ++ columns (t rank queue))

theorem isColumnIn_of_placed {k : Block cfg E} {rank : cfg.Rank} {queue : cfg.Bank}
    (h : k.Placed rank queue) (i : cfg.Rank) (j : cfg.Bank) :
    k.column.isColumnIn i j = decide (i = rank ∧ j = queue) := by
  rw [MainMemoryBusPacket.isColumnIn, h.fits.isColumn, h.rank, h.queue]
  simp [eq_comm]

theorem isColumnIn_of_not_column {b : MainMemoryBusPacket cfg E} (h : b.isColumn = false)
    (i : cfg.Rank) (j : cfg.Bank) : b.isColumnIn i j = false := by
  simp [MainMemoryBusPacket.isColumnIn, h]

theorem tracks_new : Tracks (new cfg E) (fun _ _ => []) where
  blocked := ⟨fun _ _ => rfl, fun _ _ _ hk => absurd hk List.not_mem_nil⟩
  fresh := List.nodup_nil
  column := fun _ hc => absurd hc List.not_mem_nil
  once := fun _ _ => List.Perm.nil

theorem Tracks.move (h : Tracks s t) (hmove : Move s t action s' t') : Tracks s' t' := by
  have hblocked := hmove.blocked h.blocked
  cases hmove with
  | entered kind b c cq' hfits hfresh =>
    refine ⟨hblocked, ?_, ?_, ?_⟩
    · rw [List.map_append, List.map_singleton, List.nodup_append]
      refine ⟨h.fresh, List.nodup_singleton _, ?_⟩
      intro x hx y hy heq
      rw [List.mem_singleton.mp hy] at heq
      exact hfresh (heq ▸ hx)
    · intro d hd
      rcases List.mem_append.mp hd with hd | hd
      · exact h.column d hd
      · rw [List.mem_singleton.mp hd]
        exact hfits.isColumn
    · intro i j
      have hc := isColumnIn_of_placed (k := ⟨c, false⟩) ⟨hfits, rfl, rfl⟩ i j
      simp only at hc
      rw [List.filter_append, List.filter_singleton, hc, setEntry_apply]
      by_cases hij : i = c.rank ∧ j = cfg.queueIndex c.bank
      · rw [if_pos hij, hij.1, hij.2]
        simpa [columns, ← List.append_assoc] using
          (h.once c.rank (cfg.queueIndex c.bank)).append_right [c]
      · rw [if_neg hij]
        simpa [hij] using h.once i j
  | quiet => exact ⟨hblocked, h.fresh, h.column, h.once⟩
  | updated => exact ⟨hblocked, h.fresh, h.column, h.once⟩
  | popped now b cq' t' hpopped =>
    refine ⟨hblocked, h.fresh, h.column, ?_⟩
    intro i j
    change (s.enqueued.filter _).Perm ((s.popped ++ [b]).filter _ ++ _)
    rw [List.filter_append, List.filter_singleton]
    rcases columns_of_popped h.blocked.placed hpopped with
      ⟨hb, hcolumns⟩ | ⟨rank, queue, bl, k, br, ht, rfl, rfl, hplaced, -, -⟩
    · rw [isColumnIn_of_not_column hb, hcolumns]
      simpa using h.once i j
    · rw [isColumnIn_of_placed hplaced, setEntry_apply]
      by_cases hij : i = rank ∧ j = queue
      · rw [if_pos hij, hij.1, hij.2]
        have hold := h.once rank queue
        rw [ht] at hold
        refine hold.trans ?_
        simp only [columns, List.map_append, List.map_cons, and_self, decide_true, cond_true,
          List.append_assoc, List.singleton_append]
        exact List.Perm.append_left _ List.perm_middle
      · rw [if_neg hij]
        simpa [hij] using h.once i j

/-- An ACTIVATE that an action takes out of its queue is popped, or its column command is. -/
theorem Tracks.activatesAccounted (h : Tracks s t) (hmove : Move s t action s' t') :
    ActivatesAccounted s s' := by
  have hblocked := hmove.blocked h.blocked
  intro i j a ha hactivate hgone
  rw [queue, h.blocked.queues] at ha
  rw [queue, hblocked.queues] at hgone
  cases hmove with
  | entered kind b c cq' hfits hfresh =>
    refine absurd ?_ hgone
    rw [setEntry_apply]
    split
    case isTrue hij =>
      rw [hij.1, hij.2] at ha
      rw [render_append]
      exact List.mem_append_left _ ha
    case isFalse => exact ha
  | quiet => exact absurd ha hgone
  | updated => exact absurd ha hgone
  | popped now b cq' t' hpopped =>
    have hlost : ∀ (rank : cfg.Rank) (queue : cfg.Bank) (bl br : List (Block cfg E))
        (k : Block cfg E) (back : List (Block cfg E)), t rank queue = bl ++ k :: br →
        t' = setEntry t rank queue (bl ++ back) → (∀ a ∈ render br, a ∈ render back) →
        k.Placed rank queue → a = k.activation := by
      intro rank queue bl br k back ht ht' hback hplaced
      rw [ht', setEntry_apply] at hgone
      split at hgone
      case isFalse => exact absurd ha hgone
      case isTrue hij =>
        rw [hij.1, hij.2, ht, render_append, render_cons] at ha
        rw [render_append] at hgone
        rcases List.mem_append.mp ha with ha | ha
        · exact absurd (List.mem_append_left _ ha) hgone
        · rcases List.mem_append.mp ha with ha | ha
          · rw [Block.commands] at ha
            have hnot : a ≠ k.column := by
              rintro rfl
              simp [MainMemoryBusPacket.isActivate_of_isColumn hplaced.fits.isColumn]
                at hactivate
            split at ha
            · exact absurd (List.mem_singleton.mp ha) hnot
            · rcases List.mem_cons.mp ha with ha | ha
              · exact ha
              · exact absurd (List.mem_singleton.mp ha) hnot
          · exact absurd (List.mem_append_right _ (hback a ha)) hgone
    cases hpopped with
    | refresh => exact absurd ha hgone
    | precharge => exact absurd ha hgone
    | activate rank queue bl k br ht =>
      have hplaced := h.blocked.placed rank queue k (by simp [ht])
      have hsame := hlost rank queue bl br k (k.opened :: br) ht rfl
        (fun a ha => by rw [render_cons]; exact List.mem_append_right _ ha) hplaced
      exact Or.inl (by rw [hsame])
    | column rank queue bl k br ht =>
      have hplaced := h.blocked.placed rank queue k (by simp [ht])
      exact Or.inr ⟨k.column, rfl, hplaced.fits.isColumn,
        hlost rank queue bl br k br ht rfl (fun a ha => ha) hplaced⟩

/-- The commands to a row are popped from the front, as long as every open block is the first
one of its bank and stays open. -/
structure Ordered (s : CommandHistory cfg E) (t : BlockTable cfg E) : Prop where
  order : ∀ rank bank row, s.enqueued.filter (fun b => b.goesTo rank bank row) =
    s.popped.filter (fun b => b.goesTo rank bank row) ++
      (columns (t rank (cfg.queueIndex bank))).filter (fun b => b.goesTo rank bank row)
  lone : cfg.rowBufferPolicy = .closePage → ∀ rank queue, LoneFirst (t rank queue)
  opened : cfg.rowBufferPolicy = .closePage → cfg.queuingStructure = .perRank →
    LoneOpen s.controller.bankStates t

theorem ordered_new : Ordered (new cfg E) (fun _ _ => []) where
  order := fun _ _ _ => rfl
  lone := fun _ _ _ => List.Pairwise.nil
  opened := fun _ _ _ _ _ hk => absurd hk List.not_mem_nil

theorem goesTo_iff {b : MainMemoryBusPacket cfg E} {rank : cfg.Rank} {bank : cfg.Bank} {row : ℤ} :
    b.goesTo rank bank row = true ↔
      b.isColumn = true ∧ b.rank = rank ∧ b.bank = bank ∧ b.row = row := by
  simp [MainMemoryBusPacket.goesTo, MainMemoryBusPacket.isFor, and_assoc]

theorem goesTo_of_not_column {b : MainMemoryBusPacket cfg E} (h : b.isColumn = false)
    (rank : cfg.Rank) (bank : cfg.Bank) (row : ℤ) : b.goesTo rank bank row = false := by
  simp [MainMemoryBusPacket.goesTo, h]

/-- No block before the one whose column command is popped goes to the same row. -/
theorem filter_before_popped (rank : cfg.Rank) {bl br : List (Block cfg E)}
    {k : Block cfg E} (hlone : cfg.rowBufferPolicy = .closePage → LoneFirst (bl ++ k :: br))
    (hclose : cfg.rowBufferPolicy = .closePage → k.activated = true)
    (hopen : cfg.rowBufferPolicy = .openPage →
      ∀ k' ∈ bl, k'.column.isFor k.column.bank k.column.row = false) :
    (columns bl).filter (fun b => b.goesTo rank k.column.bank k.column.row) = [] := by
  rw [List.filter_eq_nil_iff]
  intro c hc hgoes
  obtain ⟨k', hk', rfl⟩ := List.mem_map.mp hc
  obtain ⟨-, -, hbank, hrow⟩ := goesTo_iff.mp hgoes
  cases hpolicy : cfg.rowBufferPolicy with
  | openPage =>
    have hother := hopen hpolicy k' hk'
    simp [MainMemoryBusPacket.isFor, hbank, hrow] at hother
  | closePage =>
    have hfirst := hlone hpolicy
    rw [LoneFirst, List.pairwise_append] at hfirst
    exact hfirst.2.2 k' hk' k List.mem_cons_self (hclose hpolicy) hbank

theorem Ordered.move (ho : Ordered s t) (h : Tracks s t) (htime : s.InTime action)
    (hmove : Move s t action s' t') : Ordered s' t' := by
  cases hmove with
  | entered kind b c cq' hfits hfresh =>
    refine ⟨?_, ?_, ?_⟩
    · intro rank bank row
      have hold := ho.order rank bank row
      change (s.enqueued ++ [c]).filter _ = s.popped.filter _ ++ _
      rw [List.filter_append, hold, List.append_assoc, setEntry_apply]
      split
      case isTrue hij =>
        rw [columns, columns, List.map_append, List.filter_append, hij.1, hij.2]
        rfl
      case isFalse hij =>
        have hnot : c.goesTo rank bank row = false := by
          rw [Bool.eq_false_iff]
          intro hgoes
          obtain ⟨-, hrank, hbank, -⟩ := goesTo_iff.mp hgoes
          exact hij ⟨hrank.symm, by rw [hbank]⟩
        rw [List.filter_singleton, hnot]
        simp
    · intro hclose
      exact loneFirst_of_entered (ho.lone hclose) _ _
    · intro hclose hstructure
      exact loneOpen_of_entered (ho.opened hclose hstructure) _ _
  | quiet => exact ⟨ho.order, ho.lone, ho.opened⟩
  | updated event =>
    refine ⟨ho.order, ho.lone, ?_⟩
    intro hclose hstructure
    exact loneOpen_of_update (ho.opened hclose hstructure) (fun hrefresh j row hphase =>
      htime hclose hstructure event rfl hrefresh j (BankState.phase_eq hphase).1)
  | popped now b cq' t' hpopped =>
    refine ⟨?_, ?_, ?_⟩
    · intro rank bank row
      have hold := ho.order rank bank row
      change s.enqueued.filter _ = (s.popped ++ [b]).filter _ ++ _
      rw [hold, List.filter_append, List.append_assoc, List.filter_singleton]
      rcases columns_of_popped h.blocked.placed hpopped with
        ⟨hb, hcolumns⟩ | ⟨i, j, bl, k, br, ht, rfl, rfl, hplaced, hclose, hopen⟩
      · rw [goesTo_of_not_column hb, hcolumns]
        simp
      · rw [setEntry_apply]
        cases hgoes : k.column.goesTo rank bank row with
        | true =>
          obtain ⟨-, hrank, hbank, hrow⟩ := goesTo_iff.mp hgoes
          have hi : rank = i := hrank.symm.trans hplaced.rank
          have hj : cfg.queueIndex bank = j := by rw [← hbank, hplaced.queue]
          have hlone : cfg.rowBufferPolicy = .closePage → LoneFirst (bl ++ k :: br) :=
            fun hpolicy => ht ▸ ho.lone hpolicy i j
          have hbefore := filter_before_popped rank hlone hclose hopen
          rw [hbank, hrow] at hbefore
          rw [if_pos ⟨hi, hj⟩, hi, hj, ht]
          rw [hi] at hbefore hgoes
          rw [columns_append, columns_append, columns_cons, List.filter_append, List.filter_append,
            hbefore, List.filter_cons, hgoes]
          rfl
        | false =>
          split
          case isTrue hij =>
            rw [hij.1, hij.2, ht]
            rw [hij.1] at hgoes
            simp [columns, hgoes]
          case isFalse => simp
    · intro hclose
      exact loneFirst_of_popped hclose (ho.lone hclose) (ho.opened hclose) hpopped
    · intro hclose hstructure
      exact loneOpen_of_popped hclose h.blocked.placed (ho.lone hclose)
        (ho.opened hclose hstructure) hpopped

/-- The columns of the rendered blocks. -/
theorem filter_isColumn_render {blocks : List (Block cfg E)}
    (h : ∀ k ∈ blocks, k.column.isColumn = true) :
    (render blocks).filter (fun b => b.isColumn) = columns blocks := by
  induction blocks with
  | nil => rfl
  | cons k rest ih =>
    have hk := h k List.mem_cons_self
    rw [render_cons, List.filter_append, ih (fun k hk => h k (List.mem_cons_of_mem _ hk)),
      Block.commands]
    have hactivation : k.activation.isColumn = false := rfl
    split <;> simp [columns, hk, hactivation]

section Accounts

variable {b c d : MainMemoryBusPacket cfg E}

theorem Tracks.eq_of_testid (h : Tracks s t) (hc : c ∈ s.enqueued) (hd : d ∈ s.enqueued)
    (heq : c.testid = d.testid) : c = d :=
  List.inj_on_of_nodup_map h.fresh hc hd heq

theorem Tracks.popped_known (h : Tracks s t) (hb : b ∈ s.popped) (hcolumn : b.isColumn = true) :
    b ∈ s.enqueued := by
  have hin : b.isColumnIn b.rank (cfg.queueIndex b.bank) = true := by
    simp [MainMemoryBusPacket.isColumnIn, hcolumn]
  have hmem := (h.once b.rank (cfg.queueIndex b.bank)).mem_iff.mpr
    (List.mem_append_left _ (List.mem_filter.mpr ⟨hb, hin⟩))
  exact (List.mem_filter.mp hmem).1

theorem Tracks.queued_known {rank : cfg.Rank} {queue : cfg.Bank} (h : Tracks s t)
    (hb : b ∈ s.queue rank queue) (hcolumn : b.isColumn = true) :
    b ∈ s.enqueued ∧ b.isColumnIn rank queue = true := by
  rw [CommandHistory.queue, h.blocked.queues] at hb
  have hb' : b ∈ columns (t rank queue) := by
    rw [← filter_isColumn_render (fun k hk => h.blocked.isColumn hk)]
    exact List.mem_filter.mpr ⟨hb, hcolumn⟩
  have hmem := (h.once rank queue).mem_iff.mpr (List.mem_append_right _ hb')
  exact List.mem_filter.mp hmem

/-- A list of known column commands has as many copies of a transaction as its part for the
queue of the transaction. -/
theorem Tracks.copies_filter (h : Tracks s t) (hc : c ∈ s.enqueued)
    {l : List (MainMemoryBusPacket cfg E)}
    (hl : ∀ b ∈ l, b.isColumn = true → b ∈ s.enqueued) :
    MainMemoryBusPacket.copies c.testid
      (l.filter (fun b => b.isColumnIn c.rank (cfg.queueIndex c.bank))) =
    MainMemoryBusPacket.copies c.testid l := by
  rw [MainMemoryBusPacket.copies, MainMemoryBusPacket.copies, List.countP_filter]
  refine List.countP_congr (fun b hb => ?_)
  simp only [Bool.and_eq_true, decide_eq_true_eq]
  constructor
  · exact fun hand => hand.1
  · intro hand
    refine ⟨hand, ?_⟩
    rw [h.eq_of_testid (hl b hb hand.1) hc hand.2]
    simp [MainMemoryBusPacket.isColumnIn, h.column c hc]

theorem Tracks.copies_enqueued (h : Tracks s t) (hc : c ∈ s.enqueued) :
    MainMemoryBusPacket.copies c.testid s.enqueued = 1 := by
  obtain ⟨l₁, l₂, heq⟩ := List.append_of_mem hc
  have hnodup := h.fresh
  rw [heq, List.map_append, List.map_cons, List.nodup_append, List.nodup_cons] at hnodup
  have hnone : ∀ l : List (MainMemoryBusPacket cfg E),
      c.testid ∉ l.map (fun d => d.testid) → MainMemoryBusPacket.copies c.testid l = 0 := by
    intro l hl
    rw [MainMemoryBusPacket.copies, List.countP_eq_zero]
    intro d hd hand
    simp only [Bool.and_eq_true, decide_eq_true_eq] at hand
    exact hl (List.mem_map.mpr ⟨d, hd, hand.2⟩)
  have hleft := hnone l₁ (fun hmem => hnodup.2.2 _ hmem _ List.mem_cons_self rfl)
  have hright := hnone l₂ hnodup.2.1.1
  rw [MainMemoryBusPacket.copies] at hleft hright ⊢
  rw [heq, List.countP_append, List.countP_cons, hleft, hright]
  simp [h.column c hc]

/-- A column command is in its queue or popped, once. -/
theorem Tracks.copies_once (h : Tracks s t) (hc : c ∈ s.enqueued) :
    MainMemoryBusPacket.copies c.testid s.popped +
      MainMemoryBusPacket.copies c.testid (s.queue c.rank (cfg.queueIndex c.bank)) = 1 := by
  have hqueue : MainMemoryBusPacket.copies c.testid (s.queue c.rank (cfg.queueIndex c.bank)) =
      MainMemoryBusPacket.copies c.testid (columns (t c.rank (cfg.queueIndex c.bank))) := by
    rw [CommandHistory.queue, h.blocked.queues,
      ← filter_isColumn_render (fun k hk => h.blocked.isColumn hk), MainMemoryBusPacket.copies,
      MainMemoryBusPacket.copies, List.countP_filter]
    exact List.countP_congr (fun b _ => by simp [and_comm])
  rw [hqueue, ← h.copies_filter hc (fun b hb => h.popped_known hb), ← h.copies_enqueued hc,
    ← h.copies_filter hc (fun b hb _ => hb), MainMemoryBusPacket.copies,
    MainMemoryBusPacket.copies, ← List.countP_append]
  exact ((h.once c.rank (cfg.queueIndex c.bank)).countP_eq _).symm

end Accounts

theorem conforms_of_tracks (h : Tracks s t) (ho : Ordered s t) : s.Conforms where
  blocks rank queue :=
    ⟨t rank queue, h.blocked.queues rank queue, fun k hk => h.blocked.isColumn hk⟩
  once c hc := h.copies_once hc
  popped_known b hb hcolumn := h.popped_known hb hcolumn
  queued_known rank queue b hb hcolumn := h.queued_known hb hcolumn
  activates action s' hstep := by
    obtain ⟨t', hmove⟩ := move_of_step h.blocked hstep
    exact h.activatesAccounted hmove
  order rank bank row := by
    rw [ho.order]
    exact List.prefix_append _ _

/-- While the state updates are in time, the command queue keeps its promises. -/
theorem conforms_of_run
    (run : Run (Guarded (StepOf step) InTime) (new cfg E) labels s) : s.Conforms := by
  have hinv : ∃ t, Tracks s t ∧ Ordered s t := by
    refine run.invariant (I := fun s => ∃ t, Tracks s t ∧ Ordered s t)
      ⟨_, tracks_new, ordered_new⟩ ?_
    rintro s action s' ⟨t, h, ho⟩ ⟨htime, hstep⟩
    obtain ⟨t', hmove⟩ := move_of_step h.blocked hstep
    exact ⟨t', h.move hmove, ho.move h htime hmove⟩
  obtain ⟨t, h, ho⟩ := hinv
  exact conforms_of_tracks h ho

/-- Close page with one queue for a rank, and a REFRESH that is over before a precharge is. -/
def shortRefresh : MainMemoryConfig where
  rowBufferPolicy := .closePage
  schedulingPolicy := .rankThenBankRoundRobin
  queuingStructure := .perRank
  numRanks := 1
  numBanks := 2
  numRanks_pos := Nat.one_pos
  numBanks_pos := Nat.two_pos
  totalRowAccesses := 4
  cpuRamRatio := 1
  tCCD := 1
  tBL := 20
  tCL := 1
  tAL := 1
  tRP := 12
  tCMD := 1
  tRC := 1
  tRCD := 2
  tRAS := 1
  tRFC := 1
  tRTRS := 100
  tRRD := 1
  tFAW := 1
  tRTP := 1
  tWTR := 1
  tWR := 1
  refreshCycles := 15

def bank0 : shortRefresh.Bank := ⟨0, Nat.two_pos⟩

def bank1 : shortRefresh.Bank := ⟨1, Nat.one_lt_two⟩

def packetFor (bank : shortRefresh.Bank) (row : ℤ) (testid : ℕ) :
    MainMemoryBusPacket shortRefresh Unit :=
  ⟨row, 0, bank, shortRefresh.firstRank, 0, .null, none, testid⟩

/-- A read of bank 0, its precharge, a refresh meanwhile, and then bank 1 is activated. -/
def timelyRun : List (CommandAction shortRefresh Unit) :=
  [.enqueue .cacheRead (packetFor bank0 0 0), .pop 0, .pop 1,
    .stateUpdate ⟨12, shortRefresh.firstRank, bank0⟩, .needRefresh shortRefresh.firstRank, .pop 15,
    .stateUpdate ⟨15, shortRefresh.firstRank, bank0⟩,
    .enqueue .cacheWrite (packetFor bank1 7 1), .pop 16, .enqueue .cacheRead (packetFor bank1 7 2)]

/-- The precharge of bank 0 ends, and bank 1 is taken to be idle. -/
def staleRun : List (CommandAction shortRefresh Unit) :=
  timelyRun ++ [.stateUpdate ⟨23, shortRefresh.firstRank, bank0⟩, .pop 24, .pop 25]

instance (s : CommandHistory cfg E) (action : CommandAction cfg E) : Decidable (s.InTime action) :=
  match action with
  | .stateUpdate event =>
    decidable_of_iff (cfg.rowBufferPolicy = .closePage → cfg.queuingStructure = .perRank →
        (s.controller.bankStates event.rank event.bank).lastCommand = .refresh →
          ∀ bank, (s.controller.bankStates event.rank bank).currentBankState ≠ .rowActive)
      ⟨fun h hclose hrank _ heq => by cases heq; exact h hclose hrank,
        fun h hclose hrank => h hclose hrank event rfl⟩
  | .enqueue _ _ => isTrue (fun _ _ _ heq => by cases heq)
  | .needRefresh _ => isTrue (fun _ _ _ heq => by cases heq)
  | .pop _ => isTrue (fun _ _ _ heq => by cases heq)

theorem timelyRun_pops :
    (exec (fun s a => if InTime s a then step s a else none) (new shortRefresh Unit) timelyRun).map
      (fun s => s.popped.map (fun b => b.busPacketType)) =
    some [.activate, .readP, .refresh, .activate] := by
  decide +kernel

theorem conforms_timelyRun : ∃ s : CommandHistory shortRefresh Unit,
    s.popped.map (fun b => b.busPacketType) = [.activate, .readP, .refresh, .activate] ∧
      s.Conforms := by
  obtain ⟨s, hs, hpopped⟩ := Option.map_eq_some_iff.mp timelyRun_pops
  exact ⟨s, hpopped, conforms_of_run (guarded_run_of_exec hs)⟩

theorem staleRun_pops :
    (exec step (new shortRefresh Unit) staleRun).map (fun s =>
      ((s.popped.filter (fun b => b.goesTo shortRefresh.firstRank bank1 7)).map
          (fun b => b.testid),
        (s.enqueued.filter (fun b => b.goesTo shortRefresh.firstRank bank1 7)).map
          (fun b => b.testid))) =
    some ([2], [1, 2]) := by
  decide +kernel

/-- A state update that is older than a REFRESH lets a read overtake the write before it. -/
theorem read_overtakes_write :
    ∃ s, Run (StepOf step) (new shortRefresh Unit) staleRun s ∧ ¬ s.Conforms := by
  obtain ⟨s, hs, hids⟩ := Option.map_eq_some_iff.mp staleRun_pops
  refine ⟨s, run_of_exec hs, fun h => ?_⟩
  have hprefix := (h.order shortRefresh.firstRank bank1 7).map (fun b => b.testid)
  rw [(Prod.mk.inj hids).1, (Prod.mk.inj hids).2] at hprefix
  exact absurd hprefix (by decide)

end CommandHistory

end Tejas
