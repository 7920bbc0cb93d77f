import Tejas.DramRanks

/-!
# State updates at their nominal time

A state update acts by the last command of its bank when it fires. When every update fires at
its nominal time, that is the command it belongs to: a bank is activated or refreshed again
only later. The one exception is the precharge of a bank that was read with close page. The
bank may be refreshed before its update fires; the update then finds the REFRESH, but before
the refresh is over as long as a precharge does not take longer than a refresh.
-/

namespace Tejas

variable {cfg : MainMemoryConfig} {E : Type} {bankStates : BankStates cfg} {now clock : ℤ}
  {b : MainMemoryBusPacket cfg E} {event : StateUpdateEvent cfg}
  {updates : List (StateUpdateEvent cfg)} {rank i : cfg.Rank} {bank j : cfg.Bank}

namespace BankStates

@[simp] theorem nextActivate_delayColumns {otherRead otherWrite ownRead ownWrite : ℤ} :
    (bankStates.delayColumns rank otherRead otherWrite ownRead ownWrite i j).nextActivate =
      (bankStates i j).nextActivate := by
  simp only [delayColumns]
  split
  · split <;> rfl
  · rfl

@[simp] theorem nextActivate_blockColumns :
    (bankStates.blockColumns rank bank i j).nextActivate = (bankStates i j).nextActivate := by
  rw [blockColumns, setBank]
  split <;> rfl

/-- A change of one bank that does not bring its next activate forward. -/
theorem nextActivate_le_setBank {change : BankState → BankState}
    (h : ∀ s, s.nextActivate ≤ (change s).nextActivate) :
    (bankStates i j).nextActivate ≤ (bankStates.setBank rank bank change i j).nextActivate := by
  rw [setBank]
  split
  · exact h _
  · exact Int.le_refl _

/-- No command but REFRESH brings an activate forward. -/
theorem nextActivate_le_after (hb : b.busPacketType ≠ .refresh) :
    (bankStates i j).nextActivate ≤ (bankStates.after now b i j).nextActivate := by
  cases htype : b.busPacketType with
  | refresh => exact absurd htype hb
  | read =>
    simp only [after, htype, afterRead, nextActivate_delayColumns]
    exact nextActivate_le_setBank (fun s => Int.le_refl _)
  | readP =>
    simp only [after, htype, afterReadP, nextActivate_blockColumns, nextActivate_delayColumns]
    exact nextActivate_le_setBank (fun s => Int.le_max_right _ _)
  | write =>
    simp only [after, htype, afterWrite, nextActivate_delayColumns]
    exact nextActivate_le_setBank (fun s => Int.le_refl _)
  | writeP =>
    simp only [after, htype, afterWriteP, nextActivate_blockColumns, nextActivate_delayColumns]
    exact nextActivate_le_setBank (fun s => Int.le_max_right _ _)
  | activate =>
    simp only [after, htype, afterActivate]
    split
    · exact Int.le_refl _
    · split
      case isTrue hj => simp [hj]
      case isFalse => exact Int.le_max_right _ _
  | precharge =>
    simp only [after, htype, afterPrecharge]
    exact nextActivate_le_setBank (fun s => Int.le_max_right _ _)
  | data | null =>
    simp only [after, htype]
    exact Int.le_refl _

end BankStates

/-- A command that is no REFRESH leaves the phases of the other banks alone. -/
theorem Issued.phase_after (h : Issued bankStates now b) (hb : b.busPacketType ≠ .refresh)
    (hij : ¬ (i = b.rank ∧ j = b.bank)) :
    (bankStates.after now b i j).phase = (bankStates i j).phase := by
  cases h with
  | refresh hrefresh => exact absurd hrefresh hb
  | precharge htype => rw [BankStates.phase_after_precharge htype, if_neg hij]
  | activate htype => rw [BankStates.phase_after_activate htype, if_neg hij]
  | column hfits => rw [BankStates.phase_after_column hfits.isColumn, if_neg hij]

/-- What a bank is doing while a state update for it is on its way. -/
inductive UpdatePhase (bankStates : BankStates cfg) (clock : ℤ) (event : StateUpdateEvent cfg) :
    Prop
  | closing (hpolicy : cfg.rowBufferPolicy = .closePage)
      (hactive : (bankStates event.rank event.bank).currentBankState = .rowActive)
      (hlast : (bankStates event.rank event.bank).lastCommand = .readP ∨
        (bankStates event.rank event.bank).lastCommand = .writeP)
  | precharging (hstate : (bankStates event.rank event.bank).currentBankState = .precharging)
      (hlast : (bankStates event.rank event.bank).lastCommand = .precharge)
      (hdue : clock ≤ event.eventTime) (hsoon : event.eventTime < clock + cfg.tRP)
      (hopen : cfg.rowBufferPolicy = .openPage →
        event.eventTime < (bankStates event.rank event.bank).nextActivate)
  | refreshed (hlast : ∀ j, (bankStates event.rank j).lastCommand = .refresh)
      (hidle : ∀ j, (bankStates event.rank j).currentBankState ≠ .rowActive)
      (hdue : clock ≤ event.eventTime)
      (hready : ∀ j, event.eventTime < (bankStates event.rank j).nextActivate)

/-- Every update on its way is for a bank in one of these phases, and two for one bank are on
their way only while it is refreshed. -/
structure Timely (bankStates : BankStates cfg) (clock : ℤ)
    (updates : List (StateUpdateEvent cfg)) : Prop where
  phase : ∀ event ∈ updates, UpdatePhase bankStates clock event
  single : updates.Pairwise (fun event event' => event'.rank = event.rank →
    event'.bank = event.bank → (bankStates event.rank event.bank).lastCommand = .refresh)

namespace UpdatePhase

theorem not_open (h : UpdatePhase bankStates clock event) :
    (bankStates event.rank event.bank).isOpen = false := by
  cases h with
  | closing hpolicy hactive hlast =>
    rcases hlast with hlast | hlast <;> simp [BankState.isOpen, hlast]
  | precharging hstate => exact isOpen_of_ne (by simp [hstate])
  | refreshed hlast hidle => exact isOpen_of_ne (hidle _)

/-- Nothing that matters to the update changes. -/
theorem congr {bankStates' : BankStates cfg} (h : UpdatePhase bankStates clock event)
    (hphase : (bankStates' event.rank event.bank).phase =
      (bankStates event.rank event.bank).phase)
    (hactivate : ∀ j, (bankStates event.rank j).nextActivate ≤
      (bankStates' event.rank j).nextActivate)
    (hrank : (∀ j, (bankStates event.rank j).lastCommand = .refresh) →
      ∀ j, (bankStates' event.rank j).phase = (bankStates event.rank j).phase) :
    UpdatePhase bankStates' clock event := by
  obtain ⟨hstate', hlast', -⟩ := BankState.phase_eq hphase
  cases h with
  | closing hpolicy hactive hlast =>
    exact .closing hpolicy (hstate'.trans hactive) (by rwa [hlast'])
  | precharging hstate hlast hdue hsoon hopen =>
    exact .precharging (hstate'.trans hstate) (hlast'.trans hlast) hdue hsoon
      (fun hpolicy => Int.lt_of_lt_of_le (hopen hpolicy) (hactivate _))
  | refreshed hlast hidle hdue hready =>
    refine .refreshed (fun j => ?_) (fun j => ?_) hdue
      (fun j => Int.lt_of_lt_of_le (hready j) (hactivate j))
    · obtain ⟨-, hsame, -⟩ := BankState.phase_eq (hrank hlast j)
      exact hsame.trans (hlast j)
    · obtain ⟨hsame, -, -⟩ := BankState.phase_eq (hrank hlast j)
      exact hsame ▸ hidle j

end UpdatePhase

namespace Timely

theorem new : Timely bankStates clock [] :=
  ⟨fun _ hmem => absurd hmem List.not_mem_nil, List.Pairwise.nil⟩

/-- Time moves on once every update that is due has fired. -/
theorem tick (h : Timely bankStates clock updates)
    (hfired : ∀ event ∈ updates, clock < event.eventTime) :
    Timely bankStates (clock + 1) updates := by
  refine ⟨fun event hmem => ?_, h.single⟩
  have htime := hfired event hmem
  cases h.phase event hmem with
  | closing hpolicy hactive hlast => exact .closing hpolicy hactive hlast
  | precharging hstate hlast hdue hsoon hopen =>
    exact .precharging hstate hlast (by omega) (by omega) hopen
  | refreshed hlast hidle hdue hready => exact .refreshed hlast hidle (by omega) hready

/-- An update that finds a REFRESH finds no open row in its rank. -/
theorem keepsRows (h : Timely bankStates clock updates) (hmem : event ∈ updates)
    (hlast : (bankStates event.rank event.bank).lastCommand = .refresh) (j : cfg.Bank) :
    (bankStates event.rank j).isOpen = false := by
  cases h.phase event hmem with
  | closing hpolicy hactive hlast' => simp [hlast] at hlast'
  | precharging hstate hlast' => simp [hlast] at hlast'
  | refreshed hlast' hidle => exact isOpen_of_ne (hidle j)

/-- An update is sent for a bank of which no other update is on its way, or for one that is
refreshed. -/
theorem snoc (h : Timely bankStates clock updates) (hnew : UpdatePhase bankStates clock event)
    (hother : ∀ event' ∈ updates, event'.rank = event.rank → event'.bank = event.bank →
      (bankStates event.rank event.bank).lastCommand = .refresh) :
    Timely bankStates clock (updates ++ [event]) := by
  constructor
  · intro event' hmem
    rcases List.mem_append.mp hmem with hmem | hmem
    · exact h.phase event' hmem
    · rw [List.mem_singleton.mp hmem]
      exact hnew
  · rw [List.pairwise_append]
    refine ⟨h.single, List.pairwise_singleton _ _, ?_⟩
    intro event' hmem event'' hmem' hrank hbank
    rw [List.mem_singleton.mp hmem'] at hrank hbank
    rw [← hrank, ← hbank]
    exact hother event' hmem hrank.symm hbank.symm

/-- A command for a bank without updates, in a rank that is not refreshed, leaves the updates
of the others in time. -/
theorem touch (h : Timely bankStates clock updates) (hissued : Issued bankStates clock b)
    (hb : b.busPacketType ≠ .refresh)
    (hfree : ∀ event ∈ updates, ¬ (event.rank = b.rank ∧ event.bank = b.bank))
    (hrank : ∀ event ∈ updates, (∀ j, (bankStates event.rank j).lastCommand = .refresh) →
      event.rank ≠ b.rank) :
    Timely (bankStates.after clock b) clock updates := by
  have hphase : ∀ event ∈ updates, (bankStates.after clock b event.rank event.bank).phase =
      (bankStates event.rank event.bank).phase :=
    fun event hmem => hissued.phase_after hb (hfree event hmem)
  constructor
  · intro event hmem
    refine (h.phase event hmem).congr (hphase event hmem)
      (fun j => BankStates.nextActivate_le_after hb) (fun hrefresh j => ?_)
    exact hissued.phase_after hb (fun hij => hrank event hmem hrefresh hij.1)
  · refine h.single.imp_of_mem ?_
    intro event event' hmem _ hrefresh hsame hsame'
    obtain ⟨-, hlast, -⟩ := BankState.phase_eq (hphase event hmem)
    exact hlast.trans (hrefresh hsame hsame')

/-- Commands for an open bank meet no update of that bank, and no refresh of its rank. -/
theorem touch_open (h : Timely bankStates clock updates) (hissued : Issued bankStates clock b)
    (hb : b.busPacketType ≠ .refresh) (hopen : (bankStates b.rank b.bank).isOpen = true) :
    Timely (bankStates.after clock b) clock updates ∧
      ∀ event ∈ updates, ¬ (event.rank = b.rank ∧ event.bank = b.bank) := by
  have hfree : ∀ event ∈ updates, ¬ (event.rank = b.rank ∧ event.bank = b.bank) := by
    rintro event hmem ⟨hrank, hbank⟩
    have hclosed := (h.phase event hmem).not_open
    rw [hrank, hbank, hopen] at hclosed
    cases hclosed
  refine ⟨h.touch hissued hb hfree (fun event hmem hrefresh hrank => ?_), hfree⟩
  have hlast := hrefresh b.bank
  rw [hrank] at hlast
  simp [BankState.isOpen, hlast] at hopen

/-- Popping a command keeps the updates in time: those of a precharge with open page are over
before the next REFRESH, the others before that REFRESH is over. -/
theorem issued (h : Timely bankStates clock updates) (hissued : Issued bankStates clock b)
    (htRP : 0 < cfg.tRP) (htRFC : 0 < cfg.tRFC)
    (hcfg : cfg.rowBufferPolicy = .openPage ∨ cfg.tRP ≤ cfg.tRFC) :
    Timely (bankStates.after clock b) clock (updates ++ scheduledUpdate clock b) := by
  have hcases := hissued
  cases hcases with
  | refresh hb hidle hready =>
    have hown : ∀ j, (bankStates.after clock b b.rank j).lastCommand = .refresh ∧
        (bankStates.after clock b b.rank j).currentBankState ≠ .rowActive ∧
        (bankStates.after clock b b.rank j).nextActivate = clock + cfg.tRFC := by
      intro j
      simp [BankStates.after, hb, BankStates.afterRefresh]
    have hothers : ∀ i, i ≠ b.rank → ∀ j, bankStates.after clock b i j = bankStates i j := by
      intro i hi j
      simp [BankStates.after, hb, BankStates.afterRefresh, hi]
    have hrefreshed : ∀ event : StateUpdateEvent cfg, event.rank = b.rank →
        clock ≤ event.eventTime → event.eventTime < clock + cfg.tRFC →
        UpdatePhase (bankStates.after clock b) clock event := by
      intro event hrank hdue hsoon
      refine .refreshed (fun j => ?_) (fun j => ?_) hdue (fun j => ?_)
      · rw [hrank]
        exact (hown j).1
      · rw [hrank]
        exact (hown j).2.1
      · rw [hrank, (hown j).2.2]
        exact hsoon
    have hkept : Timely (bankStates.after clock b) clock updates := by
      constructor
      · intro event hmem
        by_cases hrank : event.rank = b.rank
        · cases h.phase event hmem with
          | closing hpolicy hactive =>
            rw [hrank] at hactive
            exact absurd hactive (hidle _)
          | precharging hstate hlast hdue hsoon hopen =>
            refine hrefreshed event hrank hdue ?_
            rcases hcfg with hpolicy | hle
            · have hlate := hopen hpolicy
              have hnow := hready event.bank
              rw [hrank] at hlate
              omega
            · omega
          | refreshed hlast hidle' hdue hready' =>
            have hlate := hready' event.bank
            have hnow := hready event.bank
            rw [hrank] at hlate
            omega
        · have hsame := hothers event.rank hrank
          refine (h.phase event hmem).congr ?_ (fun j => ?_) (fun _ j => ?_) <;> rw [hsame]
      · refine h.single.imp ?_
        intro event event' hrefresh hrank' hbank'
        by_cases hrank : event.rank = b.rank
        · rw [hrank]
          exact (hown _).1
        · rw [hothers _ hrank]
          exact hrefresh hrank' hbank'
    have hscheduled : scheduledUpdate clock b = [⟨clock + cfg.tRFC - 1, b.rank, b.bank⟩] := by
      simp [scheduledUpdate, hb]
    rw [hscheduled]
    refine hkept.snoc (hrefreshed _ rfl ?_ ?_) (fun _ _ _ _ => (hown b.bank).1)
    · dsimp only
      omega
    · dsimp only
      omega
  | precharge hb hpolicy hopen hready =>
    have hne : b.busPacketType ≠ .refresh := by simp [hb]
    obtain ⟨hkept, hfree⟩ := h.touch_open hissued hne hopen
    have hscheduled : scheduledUpdate clock b = [⟨clock + cfg.tRP - 1, b.rank, b.bank⟩] := by
      simp [scheduledUpdate, hb]
    rw [hscheduled]
    have hbank : (bankStates.after clock b b.rank b.bank).currentBankState = .precharging ∧
        (bankStates.after clock b b.rank b.bank).lastCommand = .precharge ∧
        clock + cfg.tRP ≤ (bankStates.after clock b b.rank b.bank).nextActivate := by
      simp [BankStates.after, hb, BankStates.afterPrecharge, BankStates.setBank]
    refine hkept.snoc (.precharging hbank.1 hbank.2.1 ?_ ?_ (fun _ => ?_))
      (fun event hmem hrank hbank => absurd ⟨hrank, hbank⟩ (hfree event hmem))
    · dsimp only
      omega
    · dsimp only
      omega
    · have hactivate := hbank.2.2
      dsimp only
      omega
  | activate hb hstate hready =>
    have hne : b.busPacketType ≠ .refresh := by simp [hb]
    have hscheduled : scheduledUpdate clock b = [] := by simp [scheduledUpdate, hb]
    rw [hscheduled, List.append_nil]
    -- a bank whose refresh is over at this time has no update on its way
    have hlate : ∀ event ∈ updates, event.rank = b.rank →
        ¬ (clock ≤ event.eventTime ∧
          ∀ j, event.eventTime < (bankStates event.rank j).nextActivate) := by
      rintro event hmem hrank ⟨hdue, htimes⟩
      have htime := htimes b.bank
      rw [hrank] at htime
      omega
    refine h.touch hissued hne ?_ ?_
    · rintro event hmem ⟨hrank, hbank⟩
      rw [← hrank, ← hbank] at hstate
      cases h.phase event hmem with
      | closing hpolicy hactive => simp [hactive] at hstate
      | precharging hstate' => simp [hstate'] at hstate
      | refreshed hlast hidle hdue htimes => exact hlate event hmem hrank ⟨hdue, htimes⟩
    · intro event hmem hrefresh hrank
      cases h.phase event hmem with
      | closing hpolicy hactive hlast => simp [hrefresh event.bank] at hlast
      | precharging hstate' hlast => simp [hrefresh event.bank] at hlast
      | refreshed hlast hidle hdue htimes => exact hlate event hmem hrank ⟨hdue, htimes⟩
  | column hfits hopen hrow hready =>
    have hne : b.busPacketType ≠ .refresh := by
      have hcolumn := hfits.isColumn
      intro hb
      simp [MainMemoryBusPacket.isColumn, hb] at hcolumn
    obtain ⟨hkept, hfree⟩ := h.touch_open hissued hne hopen
    have hphase : (bankStates.after clock b b.rank b.bank).phase = _ :=
      BankStates.phase_after_column hfits.isColumn
    rw [if_pos ⟨rfl, rfl⟩] at hphase
    obtain ⟨hstate, hlast, -⟩ := BankState.phase_eq hphase
    have hactive : (bankStates b.rank b.bank).currentBankState = .rowActive := by
      simp only [BankState.isOpen, decide_eq_true_eq] at hopen
      exact hopen.1
    have hclosing : ∀ time : ℤ, b.busPacketType = .readP ∨ b.busPacketType = .writeP →
        Timely (bankStates.after clock b) clock (updates ++ [⟨time, b.rank, b.bank⟩]) := by
      intro time hb
      have hpolicy : cfg.rowBufferPolicy = .closePage := by
        obtain ⟨kind, hkind⟩ := hfits
        cases hpolicy : cfg.rowBufferPolicy with
        | closePage => rfl
        | openPage => cases kind <;> simp [hkind, requestTypeToBusPacketType, hpolicy] at hb
      refine hkept.snoc (.closing hpolicy (hstate.trans hactive) ?_)
        (fun event hmem hrank hbank => absurd ⟨hrank, hbank⟩ (hfree event hmem))
      rw [hlast]
      exact hb
    cases hb : b.busPacketType with
    | readP =>
      simp only [scheduledUpdate, hb]
      exact hclosing _ (Or.inl hb)
    | writeP =>
      simp only [scheduledUpdate, hb]
      exact hclosing _ (Or.inr hb)
    | read | write | activate | data | null =>
      simpa only [scheduledUpdate, hb, List.append_nil] using hkept
    | refresh => exact absurd hb hne
    | precharge =>
      have hcolumn := hfits.isColumn
      simp [MainMemoryBusPacket.isColumn, hb] at hcolumn

/-- A bank without updates, in a rank that is not refreshed, changes its state. -/
theorem setBank (h : Timely bankStates clock updates) {change : BankState → BankState}
    (hfree : ∀ event ∈ updates, ¬ (event.rank = rank ∧ event.bank = bank))
    (hlast : (bankStates rank bank).lastCommand ≠ .refresh)
    (hactivate : ∀ s, (change s).nextActivate = s.nextActivate) :
    Timely (bankStates.setBank rank bank change) clock updates := by
  have hother : ∀ i j, ¬ (i = rank ∧ j = bank) →
      bankStates.setBank rank bank change i j = bankStates i j := by
    intro i j hij
    rw [BankStates.setBank, if_neg hij]
  constructor
  · intro event hmem
    refine (h.phase event hmem).congr ?_ (fun j => ?_) (fun hrefresh j => ?_)
    · rw [hother _ _ (hfree event hmem)]
    · exact BankStates.nextActivate_le_setBank (fun s => Int.le_of_eq (hactivate s).symm)
    · rw [hother]
      rintro ⟨hrank, -⟩
      rw [← hrank] at hlast
      exact hlast (hrefresh bank)
  · refine h.single.imp_of_mem ?_
    intro event event' hmem _ hrefresh hsame hsame'
    rw [hother _ _ (hfree event hmem)]
    exact hrefresh hsame hsame'

/-- A state update that fires at its time keeps the others in time. -/
theorem fired (h : Timely bankStates clock updates) (hmem : event ∈ updates)
    (hnow : event.eventTime = clock) (htRP : 0 < cfg.tRP) :
    Timely (bankStates.afterUpdate event.rank event.bank) clock
      (updates.erase event ++ followingUpdate bankStates event) := by
  have hsymm : Std.Symm (fun event event' : StateUpdateEvent cfg => event'.rank = event.rank →
      event'.bank = event.bank → (bankStates event.rank event.bank).lastCommand = .refresh) := by
    constructor
    intro event event' hrefresh hrank hbank
    rw [← hrank, ← hbank]
    exact hrefresh hrank.symm hbank.symm
  have hcons := h.single.perm (List.perm_cons_erase hmem) (fun {_ _} => hsymm.symm _ _)
  rw [List.pairwise_cons] at hcons
  have hrest : Timely bankStates clock (updates.erase event) :=
    ⟨fun event' hmem' => h.phase event' (List.mem_of_mem_erase hmem'), hcons.2⟩
  have hfree : (bankStates event.rank event.bank).lastCommand ≠ .refresh →
      ∀ event' ∈ updates.erase event,
        ¬ (event'.rank = event.rank ∧ event'.bank = event.bank) :=
    fun hlast event' hmem' hsame => hlast (hcons.1 event' hmem' hsame.1 hsame.2)
  cases h.phase event hmem with
  | closing hpolicy hactive hlast =>
    have hlast' : (bankStates event.rank event.bank).lastCommand ≠ .refresh := by
      rcases hlast with hlast | hlast <;> simp [hlast]
    have hupdate : bankStates.afterUpdate event.rank event.bank =
        bankStates.setBank event.rank event.bank (fun bankState =>
          { bankState with currentBankState := .precharging, lastCommand := .precharge }) := by
      rcases hlast with hlast | hlast <;> simp [BankStates.afterUpdate, hlast]
    have hfollowing : followingUpdate bankStates event =
        [⟨event.eventTime + cfg.tRP - 1, event.rank, event.bank⟩] := by
      rcases hlast with hlast | hlast <;> simp [followingUpdate, hlast]
    rw [hupdate, hfollowing]
    refine snoc (hrest.setBank (hfree hlast') hlast' (fun s => rfl)) (.precharging ?_ ?_ ?_ ?_ ?_)
      (fun event' hmem' hrank hbank => absurd ⟨hrank, hbank⟩ (hfree hlast' event' hmem'))
    · simp [BankStates.setBank]
    · simp [BankStates.setBank]
    · dsimp only
      omega
    · dsimp only
      omega
    · intro hopen
      rw [hpolicy] at hopen
      cases hopen
  | precharging hstate hlast =>
    have hlast' : (bankStates event.rank event.bank).lastCommand ≠ .refresh := by simp [hlast]
    have hfollowing : followingUpdate bankStates event = [] := by simp [followingUpdate, hlast]
    simp only [BankStates.afterUpdate, hlast]
    rw [hfollowing, List.append_nil]
    exact hrest.setBank (hfree hlast') hlast' (fun s => rfl)
  | refreshed hlast hidle =>
    have hfollowing : followingUpdate bankStates event = [] := by
      simp [followingUpdate, hlast event.bank]
    rw [hfollowing, List.append_nil]
    simp only [BankStates.afterUpdate, hlast event.bank]
    constructor
    · intro event' hmem'
      by_cases hrank : event'.rank = event.rank
      · cases hrest.phase event' hmem' with
        | closing hpolicy hactive hlast' =>
          rw [hrank, hlast] at hlast'
          simp at hlast'
        | precharging hstate hlast' =>
          rw [hrank, hlast] at hlast'
          simp at hlast'
        | refreshed hlast' hidle' hdue hready =>
          refine .refreshed (fun j => ?_) (fun j => ?_) hdue (fun j => ?_)
          · simp [hrank, hlast]
          · simp [hrank]
          · have htime := hready j
            simpa [hrank] using hrank ▸ htime
      · refine (hrest.phase event' hmem').congr ?_ (fun j => ?_) (fun _ j => ?_) <;>
          simp [hrank]
    · refine hrest.single.imp ?_
      intro event' event'' hrefresh hrank hbank
      have hsame := hrefresh hrank hbank
      split
      · exact hsame
      · exact hsame

end Timely

end Tejas
