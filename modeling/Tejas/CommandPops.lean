import Tejas.CommandBlocks

/-!
# Every pop changes one block

The refresh searches and the searches over the queues take a command out of the middle of a
queue. Each of them is followed here to the block that it changes, and to what the state of
its bank allows.
-/

namespace Tejas
open QueueSearch

variable {cfg : MainMemoryConfig} {E : Type} {bankStates : BankStates cfg} {now : ℤ}
  {t : BlockTable cfg E} {cq cq' : CommandQueue cfg E} {b : MainMemoryBusPacket cfg E}
  {k k' : Block cfg E} {bl br : List (Block cfg E)} {rank : cfg.Rank} {bank : cfg.Bank}

namespace Blocked

/-- The column command of a block is taken, with what is left of the block. -/
theorem take_column (h : Blocked cq t) (ht : t rank (cfg.queueIndex bank) = bl ++ k :: br) :
    Blocked (cq.setCommandQueue rank bank (render bl ++ render br))
      (setEntry t rank (cfg.queueIndex bank) (bl ++ br)) := by
  rw [← render_append]
  refine h.set (fun k' hk' => h.placed_of_eq ht k' ?_)
  exact List.mem_append.mpr ((List.mem_append.mp hk').imp_right (List.mem_cons_of_mem k))

/-- The ACTIVATE of a block is taken. -/
theorem take_activation (h : Blocked cq t) (ht : t rank (cfg.queueIndex bank) = bl ++ k :: br) :
    Blocked (cq.setCommandQueue rank bank (render bl ++ k.column :: render br))
      (setEntry t rank (cfg.queueIndex bank) (bl ++ k.opened :: br)) := by
  have hrender : render bl ++ k.column :: render br = render (bl ++ k.opened :: br) := by
    rw [render_append, render_cons]
    rfl
  rw [hrender]
  refine h.set (fun k' hk' => ?_)
  have hplaced := h.placed_of_eq ht
  rcases List.mem_append.mp hk' with hk' | hk'
  · exact hplaced k' (List.mem_append_left _ hk')
  · rcases List.mem_cons.mp hk' with rfl | hk'
    · have hk := hplaced k (by simp)
      exact ⟨hk.fits, hk.rank, hk.queue⟩
    · exact hplaced k' (by simp [hk'])

theorem isColumn (h : Blocked cq t) {queue : cfg.Bank} (hk : k ∈ t rank queue) :
    k.column.isColumn = true := (h.placed rank queue k hk).fits.isColumn

end Blocked

namespace CommandQueue

@[simp] theorem countDown_queues : cq.countDown.queues = cq.queues := rfl

@[simp] theorem setRowAccessCounter_queues (count : ℤ) :
    (cq.setRowAccessCounter rank bank count).queues = cq.queues := rfl

@[simp] theorem setNext_queues (p : cfg.Rank × cfg.Bank) : (cq.setNext p).queues = cq.queues := rfl

@[simp] theorem setNextPRE_queues (p : cfg.Rank × cfg.Bank) :
    (cq.setNextPRE p).queues = cq.queues := rfl

@[simp] theorem advance_queues : cq.advance.queues = cq.queues := by
  rw [advance]
  split <;> rfl

@[simp] theorem noteActivate_queues : (cq.noteActivate b).queues = cq.queues := by
  rw [noteActivate]
  split <;> rfl

theorem issuable_activation (h : cq.isIssuable bankStates now k.activation = true) :
    ((bankStates k.column.rank k.column.bank).currentBankState = .idle ∨
      (bankStates k.column.rank k.column.bank).currentBankState = .refreshing) ∧
    (bankStates k.column.rank k.column.bank).nextActivate ≤ now := by
  have hstate := of_decide_eq_true h
  exact ⟨hstate.1, hstate.2.1⟩

/-- An ACTIVATE is issuable by the state of its bank alone. -/
theorem issuable_activation_congr (hrank : k'.column.rank = k.column.rank)
    (hbank : k'.column.bank = k.column.bank) :
    cq.isIssuable bankStates now k'.activation = cq.isIssuable bankStates now k.activation := by
  simp only [isIssuable, Block.activation, MainMemoryBusPacket.withType, hrank, hbank]
  exact decide_eq_decide.mpr Iff.rfl

theorem issuable_column (hcolumn : b.isColumn = true)
    (h : cq.isIssuable bankStates now b = true) :
    (bankStates b.rank b.bank).currentBankState = .rowActive ∧
    b.row = (bankStates b.rank b.bank).openRowAddress ∧
    columnReady (bankStates b.rank b.bank) now b := by
  simp only [MainMemoryBusPacket.isColumn, decide_eq_true_eq] at hcolumn
  rcases hcolumn with hb | hb | hb | hb
  all_goals
    rw [isIssuable] at h
    simp only [hb, decide_eq_true_eq] at h
    exact ⟨h.1, h.2.2.1, by simpa only [columnReady, hb] using h.2.1⟩

/-- A chosen command changes one block. -/
def Sound (bankStates : BankStates cfg) (now : ℤ) (t : BlockTable cfg E)
    (b : MainMemoryBusPacket cfg E) (cq' : CommandQueue cfg E) : Prop :=
  ∃ t', Popped bankStates now t b t' ∧ Blocked cq' t'

theorem Sound.congr {cq'' : CommandQueue cfg E} (h : Sound bankStates now t b cq')
    (hq : cq''.queues = cq'.queues) : Sound bankStates now t b cq'' := by
  obtain ⟨t', hpop, hb⟩ := h
  exact ⟨t', hpop, hb.congr hq⟩

theorem sound_column (hb : Blocked cq t) (ht : t rank (cfg.queueIndex bank) = bl ++ k :: br)
    (hissue : cq.isIssuable bankStates now k.column = true)
    (hclose : cfg.rowBufferPolicy = .closePage → k.activated = true)
    (hopen : cfg.rowBufferPolicy = .openPage →
      ∀ k' ∈ bl, k'.column.isFor k.column.bank k.column.row = false) :
    Sound bankStates now t k.column (cq.setCommandQueue rank bank (render bl ++ render br)) := by
  have hplaced := hb.placed_left ht
  obtain ⟨hactive, hrow, hready⟩ := issuable_column hplaced.fits.isColumn hissue
  rw [hplaced.rank] at hactive hrow hready
  exact ⟨_, .column rank _ bl k br ht hactive hrow hready hclose hopen, hb.take_column ht⟩

theorem sound_activation (hb : Blocked cq t) (ht : t rank (cfg.queueIndex bank) = bl ++ k :: br)
    (hk : k.activated = false) (hissue : cq.isIssuable bankStates now k.activation = true)
    (hrank : cfg.rowBufferPolicy = .closePage → cfg.queuingStructure = .perRank →
      ∀ k' ∈ bl, k'.column.bank = k.column.bank → k'.activated = true)
    (hbank : cfg.rowBufferPolicy = .closePage → cfg.queuingStructure = .perRankPerBank →
      bl = []) :
    Sound bankStates now t k.activation
      (cq.setCommandQueue rank bank (render bl ++ k.column :: render br)) := by
  have hplaced := hb.placed_left ht
  obtain ⟨hstate, hready⟩ := issuable_activation hissue
  rw [hplaced.rank] at hstate hready
  exact ⟨_, .activate rank _ bl k br ht hk hstate hready hrank hbank, hb.take_activation ht⟩

theorem sound_sendRefresh {row column : ℤ} (hb : Blocked cq t)
    (hnone : (List.finRange cfg.numBanks).find?
      (fun bank => delaysRefresh (bankStates rank bank) now) = none)
    (h : cq.sendRefresh bankStates row column rank = some (b, cq')) :
    Sound bankStates now t b cq' := by
  have hready : ∀ bank, delaysRefresh (bankStates rank bank) now = false := by
    intro bank
    simpa using List.find?_eq_none.mp hnone bank (List.mem_finRange bank)
  rw [sendRefresh] at h
  split at h
  · cases h
  · cases h
    refine ⟨t, .refresh row column rank ?_ ?_, hb.congr rfl⟩
    · intro bank hactive
      simpa [delaysRefresh, hactive] using hready bank
    · intro bank
      have := hready bank
      simp only [delaysRefresh, decide_eq_false_iff_not, not_or, not_lt] at this
      exact this.2

theorem sound_closeRow (hb : Blocked cq t) (hpolicy : cfg.rowBufferPolicy = .openPage)
    (hactive : (bankStates rank bank).currentBankState = .rowActive)
    (h : cq.closeRow bankStates now rank bank = some (b, cq')) : Sound bankStates now t b cq' := by
  rw [closeRow] at h
  split at h
  case isTrue hready =>
    cases h
    exact ⟨t, .precharge rank bank hpolicy hactive hready, hb.congr rfl⟩
  case isFalse => cases h

/-- The first command to the open row of a bank, if it is no ACTIVATE, stands alone, and no
earlier command goes to that row. -/
theorem firstToOpenRow_column {before after : List (MainMemoryBusPacket cfg E)}
    (hb : Blocked cq t)
    (h : cq.firstToOpenRow bankStates rank bank = some (before, b, after))
    (hb' : b.isActivate = false) :
    ∃ bl k br, t rank (cfg.queueIndex bank) = bl ++ k :: br ∧ k.activated = true ∧
      b = k.column ∧ before = render bl ∧ after = render br ∧
      ∀ k' ∈ bl, k'.column.isFor k.column.bank k.column.row = false := by
  obtain ⟨hqueue, hfor, hearlier⟩ := firstSplit_nil_eq_some h
  rw [hb.getCommandQueue] at hqueue
  obtain ⟨hbank, hrow⟩ := MainMemoryBusPacket.isFor_iff.mp hfor
  rw [← hrow] at hearlier
  generalize ht : t rank (cfg.queueIndex bank) = blocks at hqueue
  cases cut_of_render hqueue with
  | lone bl k br hk =>
    refine ⟨bl, k, br, rfl, hk, rfl, rfl, rfl, ?_⟩
    intro k' hk'
    obtain ⟨b₁, b₂, hsplit⟩ := List.append_of_mem (column_mem_render hk')
    rw [hbank]
    exact hearlier b₁ _ b₂ hsplit
  | activation bl k br hk => simp at hb'
  | paired bl k br hk =>
    have := hearlier (render bl) k.activation [] rfl
    rw [k.activation_isFor, ← hbank] at this
    simp [MainMemoryBusPacket.isFor] at this

theorem sound_firstToOpenRow {before after : List (MainMemoryBusPacket cfg E)}
    (hb : Blocked cq t) (h : cq.firstToOpenRow bankStates rank bank = some (before, b, after))
    (hb' : b.isActivate = false) (hissue : cq.isIssuable bankStates now b = true) :
    Sound bankStates now t b (cq.setCommandQueue rank bank (before ++ after)) := by
  obtain ⟨bl, k, br, ht, hk, rfl, rfl, rfl, hopen⟩ := firstToOpenRow_column hb h hb'
  exact sound_column hb ht hissue (fun _ => hk) (fun _ => hopen)

theorem sound_closePageRefresh (hb : Blocked cq t)
    (h : cq.closePageRefresh bankStates now = some (b, cq')) : Sound bankStates now t b cq' := by
  rw [closePageRefresh] at h
  split at h
  case h_2 => cases h
  case h_1 rank _ _ =>
    split at h
    case h_1 hnone => exact sound_sendRefresh hb hnone h
    case h_2 bank _ =>
      split at h
      case isFalse => cases h
      case isTrue =>
        split at h
        case h_1 => cases h
        case h_2 hfirst =>
          split at h
          case isFalse => cases h
          case isTrue hissue =>
            cases h
            exact sound_firstToOpenRow hb hfirst hissue.1 hissue.2

theorem sound_openPageRefresh (hb : Blocked cq t) (hpolicy : cfg.rowBufferPolicy = .openPage)
    (h : cq.openPageRefresh bankStates now = some (b, cq')) : Sound bankStates now t b cq' := by
  rw [openPageRefresh] at h
  split at h
  case h_2 => cases h
  case h_1 rank _ _ =>
    split at h
    case h_1 hnone => exact sound_sendRefresh hb hnone h
    case h_2 bank _ =>
      split at h
      case isFalse => cases h
      case isTrue hactive =>
        split at h
        case h_1 => exact sound_closeRow hb hpolicy hactive h
        case h_2 hfirst =>
          split at h
          case isTrue => exact sound_closeRow hb hpolicy hactive h
          case isFalse hactivate =>
            split at h
            case isFalse => cases h
            case isTrue hissue =>
              cases h
              exact sound_firstToOpenRow hb hfirst (by simpa using hactivate) hissue

/-- Blocks end with a column command. -/
theorem not_isActivate_getLast? (hcolumn : ∀ k' ∈ bl, k'.column.isColumn = true) :
    ∀ prev ∈ (render bl).getLast?, prev.isActivate = false := by
  rw [getLast?_render]
  intro prev hprev
  obtain ⟨k', hk', rfl⟩ := Option.map_eq_some_iff.mp hprev
  exact MainMemoryBusPacket.isActivate_of_isColumn (hcolumn k' (List.mem_of_getLast? hk'))

/-- The last command before an ACTIVATE is no ACTIVATE. -/
theorem pairedWithActivate_render (hcolumn : ∀ k' ∈ bl, k'.column.isColumn = true) :
    pairedWithActivate (render bl) b = false := by
  have hlast := not_isActivate_getLast? hcolumn
  rw [pairedWithActivate]
  cases hprev : (render bl).getLast? with
  | none => rfl
  | some prev => simp [hlast prev hprev]

theorem sound_closePageAttempt {p : cfg.Rank × cfg.Bank} (hb : Blocked cq t)
    (hpolicy : cfg.rowBufferPolicy = .closePage)
    (h : cq.closePageAttempt bankStates now p = some (b, cq')) :
    Sound bankStates now t b cq' := by
  rw [closePageAttempt] at h
  split at h
  case isTrue => cases h
  case isFalse =>
    split at h
    case h_1 hstructure =>
      split at h
      case h_1 => cases h
      case h_2 before packet after hfirst =>
        cases h
        obtain ⟨hqueue, hok, hearlier⟩ := firstSplit_nil_eq_some hfirst
        rw [hb.getCommandQueue] at hqueue
        have hcolumn : ∀ k' ∈ t p.1 (cfg.queueIndex p.2), k'.column.isColumn = true :=
          fun k' hk' => hb.isColumn hk'
        rw [Bool.and_eq_true, Bool.not_eq_true'] at hok
        generalize ht : t p.1 (cfg.queueIndex p.2) = blocks at hqueue hcolumn
        cases cut_of_render hqueue with
        | lone bl k br hk =>
          exact sound_column hb ht hok.1 (fun _ => hk) (by simp [hpolicy])
        | activation bl k br hk =>
          refine sound_activation hb ht hk hok.1 (fun _ _ => ?_) (by simp [hstructure])
          intro k' hk' hbank
          by_contra hpaired
          rw [Bool.not_eq_true] at hpaired
          obtain ⟨b₁, b₂, rfl⟩ := List.append_of_mem hk'
          have hplaced := hb.placed_of_eq ht
          have hmiss := hearlier (render b₁) k'.activation (k'.column :: render b₂)
            (by simp [render_cons, Block.commands, hpaired])
          have hrank : k'.column.rank = k.column.rank := by
            rw [(hplaced k' (by simp)).rank, (hplaced k (by simp)).rank]
          rw [issuable_activation_congr hrank hbank, hok.1,
            pairedWithActivate_render (fun k' hk' => hcolumn k' (by simp [hk']))] at hmiss
          simp at hmiss
        | paired bl k br hk =>
          have hpaired := hok.2
          rw [pairedWithActivate, List.getLast?_concat] at hpaired
          simp [Block.activation, MainMemoryBusPacket.withType,
            MainMemoryBusPacket.isActivate] at hpaired
    case h_2 hstructure =>
      split at h
      case h_1 => cases h
      case h_2 packet rest hqueue =>
        split at h
        case isFalse => cases h
        case isTrue hissue =>
          cases h
          rw [hb.getCommandQueue] at hqueue
          generalize ht : t p.1 (cfg.queueIndex p.2) = blocks at hqueue
          generalize hbefore : ([] : List (MainMemoryBusPacket cfg E)) = before
          have hcut : Cut blocks before b rest := cut_of_render (by rw [hqueue, ← hbefore]; rfl)
          cases hcut with
          | lone bl k br hk =>
            have hsound : Sound bankStates now t k.column
                (cq.setCommandQueue p.1 p.2 (render bl ++ render br)) :=
              sound_column hb ht hissue (fun _ => hk) (by simp [hpolicy])
            rwa [← hbefore] at hsound
          | activation bl k br hk =>
            have hbl : bl = [] := render_eq_nil hbefore.symm
            have hsound : Sound bankStates now t k.activation
                (cq.setCommandQueue p.1 p.2 (render bl ++ k.column :: render br)) :=
              sound_activation hb ht hk hissue (by simp [hstructure]) (fun _ _ => hbl)
            rwa [← hbefore] at hsound
          | paired bl k br hk => simp at hbefore

theorem sound_openPageAttempt {p : cfg.Rank × cfg.Bank} (hb : Blocked cq t)
    (hpolicy : cfg.rowBufferPolicy = .openPage)
    (h : cq.openPageAttempt bankStates now p = some (b, cq')) :
    Sound bankStates now t b cq' := by
  rw [openPageAttempt] at h
  split at h
  case isTrue => cases h
  case isFalse =>
    split at h
    case h_1 => cases h
    case h_2 before packet after hfirst =>
      obtain ⟨hqueue, hok, -⟩ := firstSplit_nil_eq_some hfirst
      rw [hb.getCommandQueue] at hqueue
      have hcolumn : ∀ k' ∈ t p.1 (cfg.queueIndex p.2), k'.column.isColumn = true :=
        fun k' hk' => hb.isColumn hk'
      rw [Bool.and_eq_true, Bool.not_eq_true'] at hok
      obtain ⟨hissue, hfree⟩ := hok
      generalize ht : t p.1 (cfg.queueIndex p.2) = blocks at hqueue hcolumn
      have hindependent : ∀ k' : Block cfg E, k'.column.isColumn = true → k'.column ∈ before →
          k'.column.isFor packet.bank packet.row = false := by
        intro k' hk' hmem
        rw [dependencyFound, List.any_eq_false] at hfree
        simpa [MainMemoryBusPacket.isActivate_of_isColumn hk'] using hfree k'.column hmem
      have hlast : ∀ bl : List (Block cfg E), (∀ k' ∈ bl, k'.column.isColumn = true) →
          (render bl).getLast?.any (fun prev => prev.isActivate) = false := by
        intro bl hbl
        rw [Option.any_eq_false]
        exact fun prev hprev => by simp [not_isActivate_getLast? hbl prev hprev]
      cases cut_of_render hqueue with
      | lone bl k br hk =>
        have hbl : ∀ k' ∈ bl, k'.column.isColumn = true :=
          fun k' hk' => hcolumn k' (List.mem_append_left _ hk')
        rw [hlast bl hbl] at h
        cases h
        exact sound_column hb ht hissue (by simp [hpolicy])
          (fun _ k' hk' => hindependent k' (hbl k' hk') (column_mem_render hk'))
      | activation bl k br hk =>
        have hbl : ∀ k' ∈ bl, k'.column.isColumn = true :=
          fun k' hk' => hcolumn k' (List.mem_append_left _ hk')
        rw [hlast bl hbl] at h
        cases h
        exact sound_activation hb ht hk hissue (by simp [hpolicy]) (by simp [hpolicy])
      | paired bl k br hk =>
        have hbl : ∀ k' ∈ bl, k'.column.isColumn = true :=
          fun k' hk' => hcolumn k' (List.mem_append_left _ hk')
        rw [List.getLast?_concat, List.dropLast_concat] at h
        cases h
        have hsound : Sound bankStates now t k.column
            (cq.setCommandQueue p.1 p.2 (render bl ++ render br)) :=
          sound_column hb ht hissue (by simp [hpolicy])
            (fun _ k' hk' => hindependent k' (hbl k' hk')
              (List.mem_append_left _ (column_mem_render hk')))
        exact hsound.congr rfl

theorem sound_prechargeAttempt {p : cfg.Rank × cfg.Bank} (hb : Blocked cq t)
    (hpolicy : cfg.rowBufferPolicy = .openPage)
    (h : cq.prechargeAttempt bankStates now p = some (b, cq')) :
    Sound bankStates now t b cq' := by
  rw [prechargeAttempt] at h
  split at h
  case isTrue hactive => exact sound_closeRow hb hpolicy hactive.1 h
  case isFalse => cases h

/-- A pop takes a command out of one block, or makes a command of its own. -/
theorem sound_pop (hb : Blocked cq t) (h : cq.pop bankStates now = (some b, cq')) :
    Sound bankStates now t b cq' := by
  have hdown : Blocked cq.countDown t := hb.congr rfl
  rw [pop] at h
  split at h
  case h_1 hpolicy =>
    rw [popClosePage] at h
    split at h
    case h_1 chosen hrefresh =>
      cases h
      exact (sound_closePageRefresh hdown hrefresh).congr (by simp)
    case h_2 =>
      split at h
      case h_1 busPacket cq'' p hsearch =>
        cases h
        exact (sound_closePageAttempt hdown hpolicy (attempt_of_roundRobin hsearch)).congr
          (by simp)
      case h_2 => cases h
  case h_2 hpolicy =>
    rw [popOpenPage] at h
    split at h
    case h_1 chosen hrefresh =>
      cases h
      exact (sound_openPageRefresh hdown hpolicy hrefresh).congr (by simp)
    case h_2 =>
      split at h
      case h_1 busPacket cq'' p hsearch =>
        cases h
        exact (sound_openPageAttempt hdown hpolicy (attempt_of_roundRobin hsearch)).congr
          (by simp)
      case h_2 =>
        split at h
        case h_1 busPacket cq'' q hsearch =>
          cases h
          exact (sound_prechargeAttempt hdown hpolicy (attempt_of_roundRobin hsearch)).congr
            (by simp)
        case h_2 => cases h

/-- A pop that finds nothing leaves the queues alone. -/
theorem queues_of_pop_none (h : cq.pop bankStates now = (none, cq')) : cq'.queues = cq.queues := by
  rw [pop] at h
  split at h
  · rw [popClosePage] at h
    split at h
    · cases h
    · split at h
      · cases h
      · cases h
        rfl
  · rw [popOpenPage] at h
    split at h
    · cases h
    · split at h
      · cases h
      · split at h
        · cases h
        · cases h
          rfl

theorem enqueue_eq_some (h : cq.enqueue b = some cq') :
    cq' = cq.setCommandQueue b.rank b.bank (cq.getCommandQueue b.rank b.bank ++ [b]) := by
  rw [enqueue] at h
  split at h
  · cases h
  · exact (Option.some.inj h).symm

theorem getCommandQueue_setCommandQueue {queue : List (MainMemoryBusPacket cfg E)} :
    (cq.setCommandQueue rank bank queue).getCommandQueue rank bank = queue := by
  simp [getCommandQueue, setCommandQueue]

theorem setCommandQueue_setCommandQueue {queue queue' : List (MainMemoryBusPacket cfg E)} :
    (cq.setCommandQueue rank bank queue).setCommandQueue rank bank queue' =
      cq.setCommandQueue rank bank queue' := by
  simp [setCommandQueue]

end CommandQueue

namespace BankController

variable {s s' : BankController cfg E}

/-- A pair of commands is a new block at the end of its queue. -/
theorem enqueuePair_eq_some (hb : Blocked s.commandQueue t) (hfits : b.Fits)
    (h : s.enqueuePair b = some s') :
    ∃ cq', s' = { s with commandQueue := cq' } ∧
      Blocked cq' (setEntry t b.rank (cfg.queueIndex b.bank)
        (t b.rank (cfg.queueIndex b.bank) ++ [⟨b, false⟩])) := by
  obtain ⟨cq', hcq, rfl⟩ := Option.map_eq_some_iff.mp h
  obtain ⟨cq₁, hfirst, hsecond⟩ := Option.bind_eq_some_iff.mp hcq
  refine ⟨cq', rfl, ?_⟩
  have hrank : (b.withType .activate).rank = b.rank := rfl
  have hbank : (b.withType .activate).bank = b.bank := rfl
  rw [CommandQueue.enqueue_eq_some hsecond, CommandQueue.enqueue_eq_some hfirst, hrank, hbank,
    CommandQueue.getCommandQueue_setCommandQueue, CommandQueue.setCommandQueue_setCommandQueue,
    hb.getCommandQueue]
  have hrender : render (t b.rank (cfg.queueIndex b.bank)) ++ [b.withType .activate] ++ [b] =
      render (t b.rank (cfg.queueIndex b.bank) ++ [⟨b, false⟩]) := by
    rw [render_append, render_cons, List.append_assoc]
    rfl
  rw [hrender]
  refine hb.set (fun k hk => ?_)
  rcases List.mem_append.mp hk with hk | hk
  · exact hb.placed _ _ k hk
  · rw [List.mem_singleton.mp hk]
    exact ⟨hfits, rfl, rfl⟩

/-- A pop leaves the controller alone, or takes a command and updates the bank states. -/
theorem popCommand_cases (now : ℤ) (hb : Blocked s.commandQueue t) :
    (∃ cq', s.popCommand now = (none, { s with commandQueue := cq' }) ∧
      cq'.queues = s.commandQueue.queues) ∨
    ∃ b cq' t', s.popCommand now =
        (some b, ⟨s.bankStates.after now b, cq', s.stateUpdates ++ scheduledUpdate now b⟩) ∧
      Popped s.bankStates now t b t' ∧ Blocked cq' t' := by
  rw [popCommand]
  split
  case h_1 cq' hpop => exact Or.inl ⟨cq', rfl, CommandQueue.queues_of_pop_none hpop⟩
  case h_2 b cq' hpop =>
    obtain ⟨t', hpopped, hb'⟩ := CommandQueue.sound_pop hb hpop
    exact Or.inr ⟨b, cq', t', rfl, hpopped, hb'⟩

end BankController

end Tejas
