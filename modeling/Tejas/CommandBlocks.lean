import Tejas.DramController
import Mathlib.Data.List.Induction

/-!
# The command queues as lists of blocks

The commands of a transaction stand together in a queue: its ACTIVATE right before its
column command, or the column command alone once the row is open. A queue is the rendering
of a list of such blocks, and `pop` is a change of one block: it takes the ACTIVATE and
leaves the column command, or it takes the column command and whatever is left of the block.
-/

namespace Tejas
open QueueSearch

variable {cfg : MainMemoryConfig} {E : Type}

/-- The commands of one transaction that are still in the queue. -/
structure Block (cfg : MainMemoryConfig) (E : Type) where
  column : MainMemoryBusPacket cfg E
  activated : Bool

namespace Block

variable (k : Block cfg E)

def activation : MainMemoryBusPacket cfg E := k.column.withType .activate

def commands : List (MainMemoryBusPacket cfg E) :=
  if k.activated then [k.column] else [k.activation, k.column]

/-- What is left of the block once its ACTIVATE is popped. -/
def opened : Block cfg E := { k with activated := true }

/-- The block waits for a bank. -/
def isAt (bank : cfg.Bank) : Prop := k.column.bank = bank

@[simp] theorem activation_bank : k.activation.bank = k.column.bank := rfl

@[simp] theorem activation_rank : k.activation.rank = k.column.rank := rfl

@[simp] theorem activation_isActivate : k.activation.isActivate = true := by
  simp [activation, MainMemoryBusPacket.isActivate, MainMemoryBusPacket.withType]

@[simp] theorem activation_isFor (bank : cfg.Bank) (row : ℤ) :
    k.activation.isFor bank row = k.column.isFor bank row := rfl

end Block

/-- The commands of a list of blocks. -/
def render (blocks : List (Block cfg E)) : List (MainMemoryBusPacket cfg E) :=
  blocks.flatMap Block.commands

variable {blocks bl br : List (Block cfg E)} {k : Block cfg E}
  {before after : List (MainMemoryBusPacket cfg E)} {x b : MainMemoryBusPacket cfg E}

@[simp] theorem render_nil : render ([] : List (Block cfg E)) = [] := rfl

@[simp] theorem render_append : render (bl ++ br) = render bl ++ render br :=
  List.flatMap_append

theorem render_cons : render (k :: blocks) = k.commands ++ render blocks :=
  List.flatMap_cons

theorem Block.commands_ne_nil : k.commands ≠ [] := by
  rw [commands]
  split <;> simp

theorem render_eq_nil (h : render blocks = []) : blocks = [] := by
  cases blocks with
  | nil => rfl
  | cons k rest =>
    rw [render_cons, List.append_eq_nil_iff] at h
    exact absurd h.1 Block.commands_ne_nil

theorem column_mem_render (h : k ∈ blocks) : k.column ∈ render blocks := by
  refine List.mem_flatMap.mpr ⟨k, h, ?_⟩
  rw [Block.commands]
  split <;> simp

/-- The last command of a list of blocks is a column command. -/
theorem getLast?_render : (render blocks).getLast? = blocks.getLast?.map Block.column := by
  induction blocks using List.reverseRecOn with
  | nil => rfl
  | append_singleton rest k ih =>
    rw [render_append, render_cons, Block.commands]
    split <;> simp

/-- The three places in a list of blocks at which a command can stand. -/
inductive Cut : List (Block cfg E) → List (MainMemoryBusPacket cfg E) →
    MainMemoryBusPacket cfg E → List (MainMemoryBusPacket cfg E) → Prop
  | lone (bl : List (Block cfg E)) (k : Block cfg E) (br : List (Block cfg E))
      (hk : k.activated = true) :
    Cut (bl ++ k :: br) (render bl) k.column (render br)
  | activation (bl : List (Block cfg E)) (k : Block cfg E) (br : List (Block cfg E))
      (hk : k.activated = false) :
    Cut (bl ++ k :: br) (render bl) k.activation (k.column :: render br)
  | paired (bl : List (Block cfg E)) (k : Block cfg E) (br : List (Block cfg E))
      (hk : k.activated = false) :
    Cut (bl ++ k :: br) (render bl ++ [k.activation]) k.column (render br)

theorem cut_of_render (h : render blocks = before ++ x :: after) : Cut blocks before x after := by
  obtain ⟨bl, k, br, b, a, rfl, hk, rfl, rfl⟩ := flatMap_eq_append_cons h
  rw [Block.commands] at hk
  split at hk
  case isTrue hactive =>
    cases b with
    | nil =>
      cases hk
      simpa [render] using Cut.lone bl k br hactive
    | cons y b => simp at hk
  case isFalse hactive =>
    rw [Bool.not_eq_true] at hactive
    match b, hk with
    | [], hk =>
      cases hk
      simpa [render] using Cut.activation bl k br hactive
    | [y], hk =>
      cases hk
      simpa [render] using Cut.paired bl k br hactive
    | y :: z :: b, hk => simp at hk

namespace MainMemoryBusPacket

theorem isActivate_of_isColumn (h : b.isColumn = true) : b.isActivate = false := by
  simp only [isColumn, decide_eq_true_eq] at h
  rcases h with h | h | h | h <;> simp [isActivate, h]

theorem isFor_iff {bank : cfg.Bank} {row : ℤ} :
    b.isFor bank row = true ↔ b.bank = bank ∧ b.row = row := by
  simp [isFor]

end MainMemoryBusPacket

/-- The kind of a column command fits the row buffer policy. -/
def MainMemoryBusPacket.Fits (b : MainMemoryBusPacket cfg E) : Prop :=
  ∃ kind, b.busPacketType = requestTypeToBusPacketType cfg kind

theorem MainMemoryBusPacket.Fits.isColumn (h : b.Fits) : b.isColumn = true := by
  obtain ⟨kind, hkind⟩ := h
  rw [MainMemoryBusPacket.isColumn, hkind]
  cases kind <;> cases hpolicy : cfg.rowBufferPolicy <;>
    simp [requestTypeToBusPacketType, hpolicy]

/-- A block stands in the queue of its rank and bank. -/
structure Block.Placed (k : Block cfg E) (rank : cfg.Rank) (queue : cfg.Bank) : Prop where
  fits : k.column.Fits
  rank : k.column.rank = rank
  queue : cfg.queueIndex k.column.bank = queue

abbrev BlockTable (cfg : MainMemoryConfig) (E : Type) := cfg.Rank → cfg.Bank → List (Block cfg E)

/-- Store one entry of a table over ranks and banks. -/
def setEntry {α : Type} (t : cfg.Rank → cfg.Bank → α) (rank : cfg.Rank) (bank : cfg.Bank) (v : α) :
    cfg.Rank → cfg.Bank → α :=
  Function.update t rank (Function.update (t rank) bank v)

theorem setEntry_apply {α : Type} (t : cfg.Rank → cfg.Bank → α) (rank i : cfg.Rank)
    (bank j : cfg.Bank) (v : α) :
    setEntry t rank bank v i j = if i = rank ∧ j = bank then v else t i j := by
  simp only [setEntry, Function.update_apply]
  split
  case isTrue h =>
    subst h
    simp [Function.update_apply]
  case isFalse h => simp [h]

/-- The queues are the renderings of lists of blocks that stand where they belong. -/
structure Blocked (cq : CommandQueue cfg E) (t : BlockTable cfg E) : Prop where
  queues : ∀ rank queue, cq.queues rank queue = render (t rank queue)
  placed : ∀ rank queue, ∀ k ∈ t rank queue, k.Placed rank queue

namespace Blocked

variable {cq cq' : CommandQueue cfg E} {t : BlockTable cfg E} {rank : cfg.Rank} {bank : cfg.Bank}

theorem congr (h : Blocked cq t) (hq : cq'.queues = cq.queues) : Blocked cq' t :=
  ⟨fun rank queue => by rw [hq, h.queues], h.placed⟩

theorem getCommandQueue (h : Blocked cq t) :
    cq.getCommandQueue rank bank = render (t rank (cfg.queueIndex bank)) := h.queues _ _

/-- A queue is replaced together with its blocks. -/
theorem set (h : Blocked cq t) (hplaced : ∀ k ∈ blocks, k.Placed rank (cfg.queueIndex bank)) :
    Blocked (cq.setCommandQueue rank bank (render blocks))
      (setEntry t rank (cfg.queueIndex bank) blocks) := by
  constructor
  · intro i j
    change setEntry cq.queues _ _ _ _ _ = _
    rw [setEntry_apply, setEntry_apply]
    split
    · rfl
    · exact h.queues i j
  · intro i j k hk
    rw [setEntry_apply] at hk
    split at hk
    case isTrue hij =>
      obtain ⟨rfl, rfl⟩ := hij
      exact hplaced k hk
    case isFalse => exact h.placed i j k hk

theorem placed_of_eq (h : Blocked cq t) {queue : cfg.Bank} {blocks : List (Block cfg E)}
    (ht : t rank queue = blocks) : ∀ k ∈ blocks, k.Placed rank queue :=
  fun k hk => h.placed rank queue k (ht ▸ hk)

theorem placed_left (h : Blocked cq t) {queue : cfg.Bank} (ht : t rank queue = bl ++ k :: br) :
    k.Placed rank queue :=
  h.placed_of_eq ht k (List.mem_append_right _ List.mem_cons_self)

end Blocked

/-- The timing of its bank allows a column command. -/
def columnReady (bankState : BankState) (now : ℤ) (b : MainMemoryBusPacket cfg E) : Prop :=
  match b.busPacketType with
  | .write | .writeP => bankState.nextWrite ≤ now
  | _ => bankState.nextRead ≤ now

/-- What a popped command does to the blocks, and what its bank allows. -/
inductive Popped (bankStates : BankStates cfg) (now : ℤ) (t : BlockTable cfg E) :
    MainMemoryBusPacket cfg E → BlockTable cfg E → Prop
  | refresh (row column : ℤ) (rank : cfg.Rank)
      (hidle : ∀ bank, (bankStates rank bank).currentBankState ≠ .rowActive)
      (hready : ∀ bank, (bankStates rank bank).nextActivate ≤ now) :
    Popped bankStates now t (CommandQueue.refreshPacket row column rank) t
  | precharge (rank : cfg.Rank) (bank : cfg.Bank) (hpolicy : cfg.rowBufferPolicy = .openPage)
      (hactive : (bankStates rank bank).currentBankState = .rowActive)
      (hready : (bankStates rank bank).nextPrecharge ≤ now) :
    Popped bankStates now t (CommandQueue.prechargePacket rank bank) t
  | activate (rank : cfg.Rank) (queue : cfg.Bank) (bl : List (Block cfg E)) (k : Block cfg E)
      (br : List (Block cfg E)) (ht : t rank queue = bl ++ k :: br) (hk : k.activated = false)
      (hstate : (bankStates rank k.column.bank).currentBankState = .idle ∨
        (bankStates rank k.column.bank).currentBankState = .refreshing)
      (hready : (bankStates rank k.column.bank).nextActivate ≤ now)
      (hrank : cfg.rowBufferPolicy = .closePage → cfg.queuingStructure = .perRank →
        ∀ k' ∈ bl, k'.column.bank = k.column.bank → k'.activated = true)
      (hbank : cfg.rowBufferPolicy = .closePage → cfg.queuingStructure = .perRankPerBank →
        bl = []) :
    Popped bankStates now t k.activation (setEntry t rank queue (bl ++ k.opened :: br))
  | column (rank : cfg.Rank) (queue : cfg.Bank) (bl : List (Block cfg E)) (k : Block cfg E)
      (br : List (Block cfg E)) (ht : t rank queue = bl ++ k :: br)
      (hactive : (bankStates rank k.column.bank).currentBankState = .rowActive)
      (hrow : k.column.row = (bankStates rank k.column.bank).openRowAddress)
      (hready : columnReady (bankStates rank k.column.bank) now k.column)
      (hclose : cfg.rowBufferPolicy = .closePage → k.activated = true)
      (hopen : cfg.rowBufferPolicy = .openPage →
        ∀ k' ∈ bl, k'.column.isFor k.column.bank k.column.row = false) :
    Popped bankStates now t k.column (setEntry t rank queue (bl ++ br))

end Tejas
