import Tejas.ColumnOrder

/-!
# The ranks and the controller

A rank keeps bank states of its own, and ends the simulation at a command that they do not
allow. The controller changes its states when it pops a command, the rank when the command
arrives. A bank of the rank has an open row when the controller's bank is active and its last
command leaves the row open; the times that the rank waits for are then not later than those
of the controller, and a command that the controller pops is one that the rank allows.
-/

namespace Tejas

variable {cfg : MainMemoryConfig} {E : Type}

namespace Rank

/-- A column command delays those after it in every bank. -/
def delayColumns (read write : ℤ) (bankStates : cfg.Bank → BankState) : cfg.Bank → BankState :=
  fun j =>
    { bankStates j with
      nextRead := max (bankStates j).nextRead read
      nextWrite := max (bankStates j).nextWrite write }

/-- The states of the banks after a command or the data of a write. `none` is the exit for
what is not allowed. -/
def handleEvent (currentTime : ℤ) (b : MainMemoryBusPacket cfg E)
    (bankStates : cfg.Bank → BankState) : Option (cfg.Bank → BankState) :=
  let bankState := bankStates b.bank
  match b.busPacketType with
  | .read =>
    if bankState.currentBankState = .rowActive ∧ bankState.nextRead ≤ currentTime ∧
        b.row = bankState.openRowAddress then
      some (delayColumns (currentTime + max cfg.tCCD (cfg.tBL.tdiv 2))
        (currentTime + cfg.readToWriteDelay) (Function.update bankStates b.bank
          { bankState with
            nextPrecharge := max bankState.nextPrecharge (currentTime + cfg.readToPreDelay) }))
    else none
  | .readP =>
    if bankState.currentBankState = .rowActive ∧ bankState.nextRead ≤ currentTime ∧
        b.row = bankState.openRowAddress then
      some (delayColumns (currentTime + max cfg.tCCD (cfg.tBL.tdiv 2))
        (currentTime + cfg.readToWriteDelay) (Function.update bankStates b.bank
          { bankState with
            currentBankState := .idle
            nextActivate := max bankState.nextActivate (currentTime + cfg.readAutopreDelay) }))
    else none
  | .write =>
    if bankState.currentBankState = .rowActive ∧ bankState.nextWrite ≤ currentTime ∧
        b.row = bankState.openRowAddress then
      some (delayColumns (currentTime + cfg.writeToReadDelayB)
        (currentTime + max (cfg.tBL.tdiv 2) cfg.tCCD) (Function.update bankStates b.bank
          { bankState with
            nextPrecharge := max bankState.nextPrecharge (currentTime + cfg.writeToPreDelay) }))
    else none
  | .writeP =>
    if bankState.currentBankState = .rowActive ∧ bankState.nextWrite ≤ currentTime ∧
        b.row = bankState.openRowAddress then
      some (delayColumns (currentTime + cfg.writeToReadDelayB)
        (currentTime + max cfg.tCCD (cfg.tBL.tdiv 2)) (Function.update bankStates b.bank
          { bankState with
            currentBankState := .idle
            nextActivate := max bankState.nextActivate (currentTime + cfg.writeAutopreDelay) }))
    else none
  | .activate =>
    if bankState.currentBankState = .idle ∧ bankState.nextActivate ≤ currentTime then
      some (fun j =>
        if j = b.bank then
          { bankState with
            currentBankState := .rowActive
            nextActivate := currentTime + cfg.tRC
            openRowAddress := b.row
            nextWrite := currentTime + (cfg.tRCD - cfg.tAL)
            nextRead := currentTime + (cfg.tRCD - cfg.tAL)
            nextPrecharge := currentTime + cfg.tRAS }
        else
          { bankStates j with
            nextActivate := max (bankStates j).nextActivate (currentTime + cfg.tRRD) })
    else none
  | .precharge =>
    if bankState.currentBankState = .rowActive ∧ bankState.nextPrecharge ≤ currentTime then
      some (Function.update bankStates b.bank
        { bankState with
          currentBankState := .idle
          nextActivate := max bankState.nextActivate (currentTime + cfg.tRP) })
    else none
  | .refresh =>
    if ∀ j, (bankStates j).currentBankState = .idle then
      some (fun j => { bankStates j with nextActivate := currentTime + cfg.tRFC })
    else none
  | .data => some bankStates
  | .null => none

/-- The states of all ranks after a command has arrived at its rank. -/
def receive (ranks : BankStates cfg) (currentTime : ℤ) (b : MainMemoryBusPacket cfg E) :
    Option (BankStates cfg) :=
  (handleEvent currentTime b (ranks b.rank)).map (Function.update ranks b.rank)

end Rank

/-- The row of the bank is open, and its last command leaves it open. -/
def BankState.isOpen (s : BankState) : Bool :=
  s.currentBankState = .rowActive ∧
    (s.lastCommand = .activate ∨ s.lastCommand = .read ∨ s.lastCommand = .write)

/-- A bank of a rank agrees with the bank of the controller, whose times are earlier by the
time that a command takes. -/
structure BankAgrees (tCMD : ℤ) (c r : BankState) : Prop where
  state : r.currentBankState = if c.isOpen then .rowActive else .idle
  activate : r.nextActivate ≤ c.nextActivate + tCMD
  row : c.isOpen = true → r.openRowAddress = c.openRowAddress
  read : c.isOpen = true → r.nextRead ≤ c.nextRead + tCMD
  write : c.isOpen = true → r.nextWrite ≤ c.nextWrite + tCMD
  precharge : c.isOpen = true → r.nextPrecharge ≤ c.nextPrecharge + tCMD

/-- The ranks, once the commands on their way have arrived, agree with the controller. -/
def RanksAgree (bankStates ranks : BankStates cfg) : Prop :=
  ∀ i j, BankAgrees cfg.tCMD (bankStates i j) (ranks i j)

namespace BankAgrees

variable {tCMD : ℤ} {c c' r r' : BankState}

theorem of_closed (hc : c.isOpen = false) (hr : r.currentBankState = .idle)
    (hactivate : r.nextActivate ≤ c.nextActivate + tCMD) : BankAgrees tCMD c r := by
  constructor <;> simp [hc, hr, hactivate]

theorem idle (h : BankAgrees tCMD c r) (hc : c.isOpen = false) : r.currentBankState = .idle := by
  rw [h.state, hc]
  rfl

theorem rowActive (h : BankAgrees tCMD c r) (hc : c.isOpen = true) :
    r.currentBankState = .rowActive := by
  rw [h.state, if_pos hc]

/-- A READ or a WRITE delays the precharge of an open bank. -/
theorem accessed (h : BankAgrees tCMD c r) (hc : c.isOpen = true) {command : BusPacketType}
    (hcommand : command = .read ∨ command = .write) {time time' : ℤ} (htime : time' = time + tCMD) :
    BankAgrees tCMD
      { c with nextPrecharge := max time c.nextPrecharge, lastCommand := command }
      { r with nextPrecharge := max r.nextPrecharge time' } := by
  subst htime
  have hactive := hc
  simp only [BankState.isOpen, decide_eq_true_eq] at hactive
  constructor
  case state => simp [BankState.isOpen, hactive.1, h.rowActive hc, hcommand]
  case activate => exact h.activate
  case row => exact fun _ => h.row hc
  case read => exact fun _ => h.read hc
  case write => exact fun _ => h.write hc
  case precharge =>
    intro _
    have hprecharge := h.precharge hc
    dsimp only
    omega

/-- A command that closes the row delays the next activate. -/
theorem closed (h : BankAgrees tCMD c r) {c' : BankState} (hc' : c'.isOpen = false)
    {time time' : ℤ} (htime : time' = time + tCMD)
    (hactivate : c'.nextActivate = max time c.nextActivate) :
    BankAgrees tCMD c'
      { r with currentBankState := .idle, nextActivate := max r.nextActivate time' } := by
  subst htime
  refine of_closed hc' rfl ?_
  have hold := h.activate
  dsimp only
  omega

/-- A column command delays both banks by the same times. -/
theorem delay (h : BankAgrees tCMD c r) (read write : ℤ) :
    BankAgrees tCMD
      { c with nextRead := max read c.nextRead, nextWrite := max write c.nextWrite }
      { r with
        nextRead := max r.nextRead (read + tCMD)
        nextWrite := max r.nextWrite (write + tCMD) } := by
  refine ⟨h.state, h.activate, h.row, fun hc => ?_, fun hc => ?_, h.precharge⟩
  · have hread := h.read hc
    dsimp only
    omega
  · have hwrite := h.write hc
    dsimp only
    omega

/-- The controller may wait longer. -/
theorem delay_left (h : BankAgrees tCMD c r) (read write : ℤ) :
    BankAgrees tCMD
      { c with nextRead := max read c.nextRead, nextWrite := max write c.nextWrite } r := by
  refine ⟨h.state, h.activate, h.row, fun hc => ?_, fun hc => ?_, h.precharge⟩
  · have hread := h.read hc
    dsimp only
    omega
  · have hwrite := h.write hc
    dsimp only
    omega

end BankAgrees

namespace RanksAgree

variable {bankStates ranks : BankStates cfg} {rank : cfg.Rank} {bank : cfg.Bank}

/-- One bank changes on both sides. -/
theorem setBank (h : RanksAgree bankStates ranks) {change : BankState → BankState} {r : BankState}
    (hb : BankAgrees cfg.tCMD (change (bankStates rank bank)) r) :
    RanksAgree (bankStates.setBank rank bank change)
      (Function.update ranks rank (Function.update (ranks rank) bank r)) := by
  intro i j
  rw [BankStates.setBank]
  by_cases hi : i = rank
  · subst hi
    rw [Function.update_self]
    by_cases hj : j = bank
    · subst hj
      rw [if_pos ⟨rfl, rfl⟩, Function.update_self]
      exact hb
    · rw [if_neg (fun hand => hj hand.2), Function.update_of_ne hj]
      exact h i j
  · rw [if_neg (fun hand => hi hand.1), Function.update_of_ne hi]
    exact h i j

/-- One bank changes at the controller alone. -/
theorem setBank_left (h : RanksAgree bankStates ranks) {change : BankState → BankState}
    (hb : BankAgrees cfg.tCMD (change (bankStates rank bank)) (ranks rank bank)) :
    RanksAgree (bankStates.setBank rank bank change) ranks := by
  have hset := h.setBank hb
  rwa [Function.update_eq_self, Function.update_eq_self] at hset

/-- The banks of one rank are delayed on both sides, those of the others at the controller. -/
theorem delayColumns (h : RanksAgree bankStates ranks) (otherRead otherWrite ownRead ownWrite : ℤ)
    {read write : ℤ} (hread : read = ownRead + cfg.tCMD) (hwrite : write = ownWrite + cfg.tCMD) :
    RanksAgree (bankStates.delayColumns rank otherRead otherWrite ownRead ownWrite)
      (Function.update ranks rank (Rank.delayColumns read write (ranks rank))) := by
  subst hread hwrite
  intro i j
  by_cases hi : i = rank
  · subst hi
    have hdelay := (h i j).delay ownRead ownWrite
    simpa only [BankStates.delayColumns, Function.update_self, Rank.delayColumns, ne_eq,
      not_true_eq_false, if_false] using hdelay
  · rw [Function.update_of_ne hi]
    simp only [BankStates.delayColumns, ne_eq, hi, not_false_eq_true, if_true]
    split
    · exact (h i j).delay_left otherRead otherWrite
    · exact h i j

/-- A column command changes its bank on both sides, and delays the others. -/
theorem column (h : RanksAgree bankStates ranks) {change : BankState → BankState} {r : BankState}
    (hb : BankAgrees cfg.tCMD (change (bankStates rank bank)) r)
    (otherRead otherWrite ownRead ownWrite : ℤ) {read write : ℤ}
    (hread : read = ownRead + cfg.tCMD) (hwrite : write = ownWrite + cfg.tCMD) :
    RanksAgree
      ((bankStates.setBank rank bank change).delayColumns rank otherRead otherWrite ownRead
        ownWrite)
      (Function.update ranks rank
        (Rank.delayColumns read write (Function.update (ranks rank) bank r))) := by
  have hdelay : RanksAgree
      ((bankStates.setBank rank bank change).delayColumns rank otherRead otherWrite ownRead
        ownWrite)
      _ := (h.setBank hb).delayColumns otherRead otherWrite ownRead ownWrite hread hwrite
  rwa [Function.update_self, Function.update_idem] at hdelay

end RanksAgree

/-- The rank allows a command of which the bank states agree before it, and they agree after
it. -/
def Allowed (bankStates ranks : BankStates cfg) (now : ℤ) (b : MainMemoryBusPacket cfg E) : Prop :=
  ∃ ranks', Rank.receive ranks (now + cfg.tCMD) b = some ranks' ∧
    RanksAgree (bankStates.after now b) ranks'

section Commands

variable {bankStates ranks : BankStates cfg} {now : ℤ} {b : MainMemoryBusPacket cfg E}

theorem allowed_read (h : RanksAgree bankStates ranks) (hb : b.busPacketType = .read)
    (hopen : (bankStates b.rank b.bank).isOpen = true)
    (hrow : b.row = (bankStates b.rank b.bank).openRowAddress)
    (hready : (bankStates b.rank b.bank).nextRead ≤ now) : Allowed bankStates ranks now b := by
  have hbank := h b.rank b.bank
  have hread := hbank.read hopen
  rw [Allowed, Rank.receive, Rank.handleEvent, BankStates.after]
  simp only [hb]
  rw [if_pos ⟨hbank.rowActive hopen, by omega, hrow.trans (hbank.row hopen).symm⟩]
  exact ⟨_, rfl, h.column (hbank.accessed hopen (Or.inl rfl) (by omega)) _ _ _ _ (by omega)
    (by omega)⟩

theorem allowed_write (h : RanksAgree bankStates ranks) (hb : b.busPacketType = .write)
    (hopen : (bankStates b.rank b.bank).isOpen = true)
    (hrow : b.row = (bankStates b.rank b.bank).openRowAddress)
    (hready : (bankStates b.rank b.bank).nextWrite ≤ now) : Allowed bankStates ranks now b := by
  have hbank := h b.rank b.bank
  have hwrite := hbank.write hopen
  rw [Allowed, Rank.receive, Rank.handleEvent, BankStates.after]
  simp only [hb]
  rw [if_pos ⟨hbank.rowActive hopen, by omega, hrow.trans (hbank.row hopen).symm⟩]
  exact ⟨_, rfl, h.column (hbank.accessed hopen (Or.inr rfl) (by omega)) _ _ _ _ (by omega)
    (by omega)⟩

/-- Reads and writes of a bank that is being closed may wait for anything. -/
theorem RanksAgree.blockColumns {rank : cfg.Rank} {bank : cfg.Bank}
    (h : RanksAgree bankStates ranks) (hclosed : (bankStates rank bank).isOpen = false) :
    RanksAgree (bankStates.blockColumns rank bank) ranks := by
  have hbank := h rank bank
  exact h.setBank_left (.of_closed hclosed (hbank.idle hclosed) hbank.activate)

theorem isOpen_delayColumns {rank i : cfg.Rank} {j : cfg.Bank}
    {otherRead otherWrite ownRead ownWrite : ℤ} :
    (bankStates.delayColumns rank otherRead otherWrite ownRead ownWrite i j).isOpen =
      (bankStates i j).isOpen := by
  simp only [BankStates.delayColumns]
  split
  · split <;> rfl
  · rfl

theorem allowed_readP (h : RanksAgree bankStates ranks) (hb : b.busPacketType = .readP)
    (hopen : (bankStates b.rank b.bank).isOpen = true)
    (hrow : b.row = (bankStates b.rank b.bank).openRowAddress)
    (hready : (bankStates b.rank b.bank).nextRead ≤ now) : Allowed bankStates ranks now b := by
  have hbank := h b.rank b.bank
  have hread := hbank.read hopen
  rw [Allowed, Rank.receive, Rank.handleEvent, BankStates.after]
  simp only [hb]
  rw [if_pos ⟨hbank.rowActive hopen, by omega, hrow.trans (hbank.row hopen).symm⟩]
  refine ⟨_, rfl, (h.column (hbank.closed ?_ ?_ rfl) _ _ _ _ (by omega) (by omega)).blockColumns ?_⟩
  · simp [BankState.isOpen]
  · omega
  · rw [isOpen_delayColumns, BankStates.setBank, if_pos ⟨rfl, rfl⟩]
    simp [BankState.isOpen]

theorem allowed_writeP (h : RanksAgree bankStates ranks) (hb : b.busPacketType = .writeP)
    (hopen : (bankStates b.rank b.bank).isOpen = true)
    (hrow : b.row = (bankStates b.rank b.bank).openRowAddress)
    (hready : (bankStates b.rank b.bank).nextWrite ≤ now) : Allowed bankStates ranks now b := by
  have hbank := h b.rank b.bank
  have hwrite := hbank.write hopen
  rw [Allowed, Rank.receive, Rank.handleEvent, BankStates.after]
  simp only [hb]
  rw [if_pos ⟨hbank.rowActive hopen, by omega, hrow.trans (hbank.row hopen).symm⟩]
  refine ⟨_, rfl, (h.column (hbank.closed ?_ ?_ rfl) _ _ _ _ (by omega) (by omega)).blockColumns ?_⟩
  · simp [BankState.isOpen]
  · omega
  · rw [isOpen_delayColumns, BankStates.setBank, if_pos ⟨rfl, rfl⟩]
    simp [BankState.isOpen]

theorem allowed_precharge (h : RanksAgree bankStates ranks) (hb : b.busPacketType = .precharge)
    (hopen : (bankStates b.rank b.bank).isOpen = true)
    (hready : (bankStates b.rank b.bank).nextPrecharge ≤ now) : Allowed bankStates ranks now b := by
  have hbank := h b.rank b.bank
  have hprecharge := hbank.precharge hopen
  rw [Allowed, Rank.receive, Rank.handleEvent, BankStates.after]
  simp only [hb]
  rw [if_pos ⟨hbank.rowActive hopen, by omega⟩]
  refine ⟨_, rfl, h.setBank (hbank.closed ?_ ?_ rfl)⟩
  · simp [BankState.isOpen]
  · omega

/-- A bank that may be activated has no open row, so the rank may plainly set its times. -/
theorem allowed_activate (h : RanksAgree bankStates ranks) (hb : b.busPacketType = .activate)
    (hclosed : (bankStates b.rank b.bank).isOpen = false)
    (hready : (bankStates b.rank b.bank).nextActivate ≤ now) : Allowed bankStates ranks now b := by
  have hbank := h b.rank b.bank
  have hactivate := hbank.activate
  rw [Allowed, Rank.receive, Rank.handleEvent, BankStates.after]
  simp only [hb]
  rw [if_pos ⟨hbank.idle hclosed, by omega⟩]
  refine ⟨_, rfl, fun i j => ?_⟩
  simp only [BankStates.afterActivate]
  by_cases hi : i = b.rank
  · subst hi
    rw [if_neg (by simp), Function.update_self]
    split
    case isTrue hj =>
      subst hj
      have hopen' : ∀ s : BankState, s.currentBankState = .rowActive → s.lastCommand = .activate →
          s.isOpen = true := fun s hs hlast => by simp [BankState.isOpen, hs, hlast]
      constructor
      case state => rw [hopen' _ rfl rfl, if_pos rfl]
      case row => exact fun _ => rfl
      all_goals
        intros
        dsimp only
        omega
    case isFalse =>
      have hother := h b.rank j
      refine ⟨hother.state, ?_, hother.row, hother.read, hother.write, hother.precharge⟩
      have := hother.activate
      dsimp only
      omega
  · rw [if_pos hi, Function.update_of_ne hi]
    exact h i j

theorem allowed_refresh (h : RanksAgree bankStates ranks) (hb : b.busPacketType = .refresh)
    (hclosed : ∀ j, (bankStates b.rank j).isOpen = false) : Allowed bankStates ranks now b := by
  rw [Allowed, Rank.receive, Rank.handleEvent, BankStates.after]
  simp only [hb]
  rw [if_pos (fun j => (h b.rank j).idle (hclosed j))]
  refine ⟨_, rfl, fun i j => ?_⟩
  simp only [BankStates.afterRefresh]
  by_cases hi : i = b.rank
  · subst hi
    rw [if_pos rfl, Function.update_self]
    refine .of_closed (by simp [BankState.isOpen]) ((h b.rank j).idle (hclosed j)) ?_
    dsimp only
    omega
  · rw [if_neg hi, Function.update_of_ne hi]
    exact h i j

theorem isOpen_of_ne {s : BankState} (h : s.currentBankState ≠ .rowActive) : s.isOpen = false := by
  simp [BankState.isOpen, h]

theorem isOpen_of_phase {s : BankState} {row : ℤ} (h : s.phase = (.rowActive, .activate, row)) :
    s.isOpen = true := by
  obtain ⟨hstate, hlast, -⟩ := BankState.phase_eq h
  simp [BankState.isOpen, hstate, hlast]

/-- A column command for an open row is allowed. -/
theorem allowed_column (h : RanksAgree bankStates ranks) (hb : b.isColumn = true)
    (hopen : (bankStates b.rank b.bank).isOpen = true)
    (hrow : b.row = (bankStates b.rank b.bank).openRowAddress)
    (hready : columnReady (bankStates b.rank b.bank) now b) : Allowed bankStates ranks now b := by
  simp only [MainMemoryBusPacket.isColumn, decide_eq_true_eq] at hb
  rcases hb with hb | hb | hb | hb
  · simp only [columnReady, hb] at hready
    exact allowed_read h hb hopen hrow hready
  · simp only [columnReady, hb] at hready
    exact allowed_readP h hb hopen hrow hready
  · simp only [columnReady, hb] at hready
    exact allowed_write h hb hopen hrow hready
  · simp only [columnReady, hb] at hready
    exact allowed_writeP h hb hopen hrow hready

/-- With open page, an active bank is one with an open row. -/
def ActiveOpen (bankStates : BankStates cfg) : Prop :=
  ∀ i j, (bankStates i j).currentBankState = .rowActive → (bankStates i j).isOpen = true

/-- What the bank states say about a command that is popped. -/
inductive Issued (bankStates : BankStates cfg) (now : ℤ) (b : MainMemoryBusPacket cfg E) : Prop
  | refresh (hb : b.busPacketType = .refresh)
      (hidle : ∀ j, (bankStates b.rank j).currentBankState ≠ .rowActive)
      (hready : ∀ j, (bankStates b.rank j).nextActivate ≤ now)
  | precharge (hb : b.busPacketType = .precharge) (hpolicy : cfg.rowBufferPolicy = .openPage)
      (hopen : (bankStates b.rank b.bank).isOpen = true)
      (hready : (bankStates b.rank b.bank).nextPrecharge ≤ now)
  | activate (hb : b.busPacketType = .activate)
      (hstate : (bankStates b.rank b.bank).currentBankState = .idle ∨
        (bankStates b.rank b.bank).currentBankState = .refreshing)
      (hready : (bankStates b.rank b.bank).nextActivate ≤ now)
  | column (hfits : b.Fits) (hopen : (bankStates b.rank b.bank).isOpen = true)
      (hrow : b.row = (bankStates b.rank b.bank).openRowAddress)
      (hready : columnReady (bankStates b.rank b.bank) now b)

/-- With close page, the row of a column command is open because its ACTIVATE is popped. -/
theorem issued_of_popped {t t' : BlockTable cfg E} (hplaced : AllPlaced t)
    (hopen : cfg.rowBufferPolicy = .openPage → ActiveOpen bankStates)
    (hclose : cfg.rowBufferPolicy = .closePage → LoneOpen bankStates t)
    (hpopped : Popped bankStates now t b t') : Issued bankStates now b := by
  cases hpopped with
  | refresh row column rank hidle hready => exact .refresh rfl hidle hready
  | precharge rank bank hpolicy hactive hready =>
    exact .precharge rfl hpolicy (hopen hpolicy _ _ hactive) hready
  | activate rank queue bl k br ht hk hstate hready =>
    have hrank := (hplaced rank queue k (by simp [ht])).rank
    rw [← hrank] at hstate hready
    exact .activate rfl hstate hready
  | column rank queue bl k br ht hactive hrow hready hlone =>
    have hk := hplaced rank queue k (by simp [ht])
    rw [← hk.rank] at hactive hrow hready
    refine .column hk.fits ?_ hrow hready
    cases hpolicy : cfg.rowBufferPolicy with
    | openPage => exact hopen hpolicy _ _ hactive
    | closePage =>
      have hphase := hclose hpolicy rank queue k (by simp [ht]) (hlone hpolicy)
      rw [← hk.rank] at hphase
      exact isOpen_of_phase hphase

theorem Issued.allowed (h : Issued bankStates now b) (hagree : RanksAgree bankStates ranks) :
    Allowed bankStates ranks now b := by
  cases h with
  | refresh hb hidle hready => exact allowed_refresh hagree hb (fun j => isOpen_of_ne (hidle j))
  | precharge hb hpolicy hopen hready => exact allowed_precharge hagree hb hopen hready
  | activate hb hstate hready =>
    refine allowed_activate hagree hb (isOpen_of_ne (fun hactive => ?_)) hready
    rcases hstate with hstate | hstate <;> cases hactive.symm.trans hstate
  | column hfits hopen hrow hready => exact allowed_column hagree hfits.isColumn hopen hrow hready

/-- A state update changes no more than the states of banks, of the bank that it is for or of
the whole rank, and leaves no bank active that it changes. -/
theorem afterUpdate_cases (bankStates : BankStates cfg) (rank i : cfg.Rank) (bank j : cfg.Bank) :
    bankStates.afterUpdate rank bank i j = bankStates i j ∨
    i = rank ∧ (bankStates.afterUpdate rank bank i j).currentBankState ≠ .rowActive ∧
      (bankStates.afterUpdate rank bank i j).nextActivate = (bankStates i j).nextActivate ∧
      (j = bank ∧ (bankStates i j).isOpen = false ∨
        (bankStates rank bank).lastCommand = .refresh) := by
  have hset : ∀ change : BankState → BankState, (∀ s, (change s).currentBankState ≠ .rowActive) →
      (∀ s, (change s).nextActivate = s.nextActivate) →
      (bankStates rank bank).isOpen = false →
      bankStates.setBank rank bank change i j = bankStates i j ∨
      i = rank ∧ (bankStates.setBank rank bank change i j).currentBankState ≠ .rowActive ∧
        (bankStates.setBank rank bank change i j).nextActivate = (bankStates i j).nextActivate ∧
        (j = bank ∧ (bankStates i j).isOpen = false ∨
          (bankStates rank bank).lastCommand = .refresh) := by
    intro change hstate hactivate hclosed
    rw [BankStates.setBank]
    split
    case isTrue hij =>
      obtain ⟨rfl, rfl⟩ := hij
      exact Or.inr ⟨rfl, hstate _, hactivate _, Or.inl ⟨rfl, hclosed⟩⟩
    case isFalse => exact Or.inl rfl
  cases hlast : (bankStates rank bank).lastCommand with
  | readP | writeP | precharge =>
    simp only [hlast] at hset
    simp only [BankStates.afterUpdate, hlast]
    exact hset _ (fun s => by simp) (fun s => rfl) (by simp [BankState.isOpen, hlast])
  | refresh =>
    simp only [BankStates.afterUpdate, hlast]
    split
    case isTrue hi => simp [hi]
    case isFalse => exact Or.inl rfl
  | read | write | activate | data | null =>
    simp [BankStates.afterUpdate, hlast]

/-- A state update keeps the agreement, if it does not take a bank with an open row for one
that was refreshed. -/
theorem RanksAgree.afterUpdate {rank : cfg.Rank} {bank : cfg.Bank} (h : RanksAgree bankStates ranks)
    (hkeep : (bankStates rank bank).lastCommand = .refresh →
      ∀ j, (bankStates rank j).isOpen = false) :
    RanksAgree (bankStates.afterUpdate rank bank) ranks := by
  intro i j
  rcases afterUpdate_cases bankStates rank i bank j with
    hsame | ⟨rfl, hstate, hactivate, hwhy⟩
  · rw [hsame]
    exact h i j
  · have hclosed : (bankStates i j).isOpen = false := by
      rcases hwhy with ⟨-, hclosed⟩ | hrefresh
      · exact hclosed
      · exact hkeep hrefresh j
    refine .of_closed (isOpen_of_ne hstate) ((h i j).idle hclosed) ?_
    rw [hactivate]
    exact (h i j).activate

theorem isOpen_congr {s s' : BankState} (h : s'.phase = s.phase) : s'.isOpen = s.isOpen := by
  have hstate : s'.currentBankState = s.currentBankState := congrArg Prod.fst h
  have hlast : s'.lastCommand = s.lastCommand := congrArg (fun p => p.2.1) h
  rw [BankState.isOpen, BankState.isOpen, hstate, hlast]

/-- With open page every column command leaves its row open. -/
theorem Issued.activeOpen (h : Issued bankStates now b) (hpolicy : cfg.rowBufferPolicy = .openPage)
    (hopen : ActiveOpen bankStates) : ActiveOpen (bankStates.after now b) := by
  have hother : ∀ i j, (bankStates.after now b i j).phase = (bankStates i j).phase →
      (bankStates.after now b i j).currentBankState = .rowActive →
      (bankStates.after now b i j).isOpen = true := by
    intro i j hphase hactive
    rw [isOpen_congr hphase]
    exact hopen i j ((congrArg Prod.fst hphase).symm.trans hactive)
  intro i j hactive
  cases h with
  | refresh hb =>
    have hphase : (bankStates.after now b i j).phase = _ := BankStates.phase_after_refresh hb
    split at hphase
    case isTrue => cases (congrArg Prod.fst hphase).symm.trans hactive
    case isFalse => exact hother i j hphase hactive
  | precharge hb =>
    have hphase : (bankStates.after now b i j).phase = _ := BankStates.phase_after_precharge hb
    split at hphase
    case isTrue => cases (congrArg Prod.fst hphase).symm.trans hactive
    case isFalse => exact hother i j hphase hactive
  | activate hb =>
    have hphase : (bankStates.after now b i j).phase = _ := BankStates.phase_after_activate hb
    split at hphase
    case isTrue => exact isOpen_of_phase hphase
    case isFalse => exact hother i j hphase hactive
  | column hfits =>
    have hphase : (bankStates.after now b i j).phase = _ :=
      BankStates.phase_after_column hfits.isColumn
    split at hphase
    case isTrue =>
      obtain ⟨-, hlast, -⟩ := BankState.phase_eq hphase
      obtain ⟨kind, hkind⟩ := hfits
      rw [BankState.isOpen, hactive, hlast, hkind]
      cases kind <;> simp [requestTypeToBusPacketType, hpolicy]
    case isFalse => exact hother i j hphase hactive

theorem ActiveOpen.afterUpdate {rank : cfg.Rank} {bank : cfg.Bank} (h : ActiveOpen bankStates) :
    ActiveOpen (bankStates.afterUpdate rank bank) := by
  intro i j hactive
  rcases afterUpdate_cases bankStates rank i bank j with hsame | ⟨-, hstate, -⟩
  · rw [hsame] at hactive ⊢
    exact h i j hactive
  · exact absurd hactive hstate

end Commands

end Tejas
