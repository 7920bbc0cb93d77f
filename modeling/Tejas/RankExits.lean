import Tejas.DramRuns

/-!
# No command finds its rank unprepared

In runs in which every command arrives `tCMD` cycles after it is popped and every state update
fires at its nominal time, the commands on their way are allowed by their ranks one after the
other, and leave the ranks in agreement with the controller. With close page and a precharge
that takes longer than a refresh this needs that no state update takes an open row for a
refreshed bank.
-/

namespace Tejas
open LabelledRuns

variable {cfg : MainMemoryConfig} {E : Type}

/-- The ranks after the commands on their way have arrived, each at its time. -/
def Rank.receiveAll (ranks : BankStates cfg) : List (RamBusEvent cfg E) → Option (BankStates cfg)
  | [] => some ranks
  | event :: rest =>
    (Rank.receive ranks event.eventTime event.busPacket).bind (fun ranks' => receiveAll ranks' rest)

theorem Rank.receiveAll_append (ranks : BankStates cfg) (l l' : List (RamBusEvent cfg E)) :
    Rank.receiveAll ranks (l ++ l') =
      (Rank.receiveAll ranks l).bind (fun ranks' => Rank.receiveAll ranks' l') := by
  induction l generalizing ranks with
  | nil => rfl
  | cons event rest ih =>
    simp only [List.cons_append, receiveAll, ih]
    cases Rank.receive ranks event.eventTime event.busPacket <;> rfl

/-- The data of a write changes nothing. -/
theorem Rank.receive_data {ranks : BankStates cfg} {b : MainMemoryBusPacket cfg E}
    (hb : b.busPacketType = .data) (time : ℤ) : Rank.receive ranks time b = some ranks := by
  simp [Rank.receive, Rank.handleEvent, hb]

namespace Dram

variable (s : Dram cfg E)

abbrev bankStates : BankStates cfg := s.history.controller.bankStates

abbrev stateUpdates : List (StateUpdateEvent cfg) := s.history.controller.stateUpdates

/-- A command arrives exactly when it is due, a state update fires at its nominal time, and
time passes when nothing of that is due. -/
def Nominal (s : Dram cfg E) : DramAction cfg E → Prop
  | .tick => (∀ event ∈ s.stateUpdates, s.clock < event.eventTime) ∧
      ∀ event ∈ s.commands, s.clock < event.eventTime
  | .stateUpdate event => event.eventTime = s.clock
  | .command => ∀ event ∈ s.commands.head?, event.eventTime = s.clock
  | _ => True

/-- With close page and a precharge that takes longer than a refresh, a state update that
finds a REFRESH as the last command of its bank finds no open row in the rank. -/
def KeepsRows (action : DramAction cfg E) : Prop :=
  cfg.rowBufferPolicy = .closePage → cfg.tRFC < cfg.tRP →
    ∀ event, action = .stateUpdate event →
      (s.bankStates event.rank event.bank).lastCommand = .refresh →
        ∀ j, (s.bankStates event.rank j).isOpen = false

/-- The rank of the first command on its way allows it when it is due. -/
def RanksAllow : Prop :=
  ∀ event ∈ s.commands.head?, event.eventTime = s.clock →
    (Rank.receive s.ranks s.clock event.busPacket).isSome = true

/-- The controller, the commands on their way and the ranks fit together. -/
structure Accord (s : Dram cfg E) (t : BlockTable cfg E) : Prop where
  blocked : Blocked s.history.controller.commandQueue t
  fits : ∀ b ∈ s.pendingTransQueue, b.Fits
  lone : cfg.rowBufferPolicy = .closePage → ∀ rank queue, LoneFirst (t rank queue)
  opened : cfg.rowBufferPolicy = .closePage → LoneOpen s.bankStates t
  active : cfg.rowBufferPolicy = .openPage → ActiveOpen s.bankStates
  arrive : ∃ ranks, Rank.receiveAll s.ranks s.commands = some ranks ∧ RanksAgree s.bankStates ranks
  data : ∀ event ∈ s.writeData, event.busPacket.busPacketType = .data
  timely : cfg.rowBufferPolicy = .openPage ∨ cfg.tRP ≤ cfg.tRFC →
    Timely s.bankStates s.clock s.stateUpdates

variable {s} {s' : Dram cfg E} {t : BlockTable cfg E} {labels : List (DramAction cfg E)}

theorem accord_new (htCMD : 0 < cfg.tCMD) : Accord (new cfg E) (fun _ _ => []) where
  blocked := ⟨fun _ _ => rfl, fun _ _ _ hk => absurd hk List.not_mem_nil⟩
  fits := fun _ hb => absurd hb List.not_mem_nil
  lone := fun _ _ _ => List.Pairwise.nil
  opened := fun _ _ _ _ hk => absurd hk List.not_mem_nil
  active := fun _ _ _ hactive => by cases hactive
  arrive := by
    refine ⟨_, rfl, fun i j => .of_closed rfl rfl ?_⟩
    change (0 : ℤ) ≤ 0 + cfg.tCMD
    omega
  data := fun _ hmem => absurd hmem List.not_mem_nil
  timely := fun _ => Timely.new

theorem Accord.ranksAllow (h : Accord s t) : s.RanksAllow := by
  obtain ⟨ranks, harrive, -⟩ := h.arrive
  intro event hhead htime
  obtain ⟨rest, hcommands⟩ := List.head?_eq_some_iff.mp hhead
  rw [hcommands, Rank.receiveAll, htime] at harrive
  obtain ⟨ranks', hreceive, -⟩ := Option.bind_eq_some_iff.mp harrive
  exact Option.isSome_of_eq_some hreceive

/-- Only what the ranks and the controller exchange matters. -/
theorem Accord.congr (h : Accord s t) (hhistory : s'.history.controller = s.history.controller)
    (hpending : ∀ b ∈ s'.pendingTransQueue, b.Fits) (hranks : s'.ranks = s.ranks)
    (hcommands : s'.commands = s.commands) (hclock : s'.clock = s.clock)
    (hdata : ∀ event ∈ s'.writeData, event ∈ s.writeData) : Accord s' t := by
  obtain ⟨hblocked, hfits, hlone, hopened, hactive, harrive, hdata', htimely⟩ := h
  constructor
  case fits => exact hpending
  case data => exact fun event hmem => hdata' event (hdata event hmem)
  case lone => exact hlone
  all_goals
    simp only [bankStates, stateUpdates, hhistory, hranks, hcommands, hclock]
    assumption

/-- A pair of commands enters a queue. -/
theorem Accord.enqueue (h : Accord s t) {b : MainMemoryBusPacket cfg E}
    {controller : BankController cfg E} (hb : b ∈ s.pendingTransQueue)
    (hpair : s.history.controller.enqueuePair b = some controller) :
    ∃ t', Accord
      { s with
        pendingTransQueue := s.pendingTransQueue.tail
        history :=
          { s.history with
            controller := controller
            enqueued := s.history.enqueued ++ [b] } } t' := by
  obtain ⟨cq', rfl, hblocked⟩ :=
    BankController.enqueuePair_eq_some h.blocked (h.fits b hb) hpair
  refine ⟨setEntry t b.rank (cfg.queueIndex b.bank)
    (t b.rank (cfg.queueIndex b.bank) ++ [⟨b, false⟩]), ?_⟩
  constructor
  case blocked => exact hblocked
  case fits => exact fun b' hmem => h.fits b' (List.mem_of_mem_tail hmem)
  case lone => exact fun hclose => loneFirst_of_entered (h.lone hclose) _ _
  case opened => exact fun hclose => loneOpen_of_entered (h.opened hclose) _ _
  case active => exact h.active
  case arrive => exact h.arrive
  case data => exact h.data
  case timely => exact h.timely

/-- A popped command is allowed once those before it have arrived. -/
theorem Accord.oneCycleOperation (h : Accord s t) (htRP : 0 < cfg.tRP) (htRFC : 0 < cfg.tRFC) :
    ∃ t', Accord s.oneCycleOperation t' := by
  rcases BankController.popCommand_cases s.clock h.blocked with
    ⟨cq', hpop, hqueues⟩ | ⟨b, cq', t', hpop, hpopped, hblocked⟩
  · refine ⟨t, ?_⟩
    rw [Dram.oneCycleOperation, hpop]
    obtain ⟨hblocked, hfits, hlone, hopened, hactive, harrive, hdata, htimely⟩ := h
    exact ⟨hblocked.congr hqueues, hfits, hlone, hopened, hactive, harrive, hdata, htimely⟩
  · have hissued := issued_of_popped h.blocked.placed h.active h.opened hpopped
    obtain ⟨ranks, harrive, hagree⟩ := h.arrive
    obtain ⟨ranks', hreceive, hagree'⟩ := hissued.allowed hagree
    refine ⟨t', ?_⟩
    rw [Dram.oneCycleOperation, hpop]
    constructor
    case blocked => exact hblocked
    case fits => exact h.fits
    case lone =>
      exact fun hclose => loneFirst_of_popped hclose (h.lone hclose) (fun _ => h.opened hclose)
        hpopped
    case opened =>
      exact fun hclose => loneOpen_of_popped hclose h.blocked.placed (h.lone hclose)
        (h.opened hclose) hpopped
    case active => exact fun hpolicy => hissued.activeOpen hpolicy (h.active hpolicy)
    case arrive =>
      refine ⟨ranks', ?_, hagree'⟩
      simp only [Rank.receiveAll_append, harrive, Option.bind_some, Rank.receiveAll, hreceive]
    case data =>
      intro event hmem
      rcases List.mem_append.mp hmem with hmem | hmem
      · exact h.data event hmem
      · split at hmem
        · rw [List.mem_singleton.mp hmem]
          rfl
        · cases hmem
    case timely => exact fun hcfg => (h.timely hcfg).issued hissued htRP htRFC hcfg

theorem Accord.stateUpdate (h : Accord s t) {event : StateUpdateEvent cfg}
    (hmem : event ∈ s.stateUpdates) (hnow : event.eventTime = s.clock) (htRP : 0 < cfg.tRP)
    (hkeep : s.KeepsRows (.stateUpdate event)) :
    Accord { s with
      history := { s.history with controller := s.history.controller.handleStateUpdate event } }
      t := by
  have hkeep' : (s.bankStates event.rank event.bank).lastCommand = .refresh →
      ∀ j, (s.bankStates event.rank j).isOpen = false := by
    intro hlast
    by_cases hcfg : cfg.rowBufferPolicy = .openPage ∨ cfg.tRP ≤ cfg.tRFC
    · exact (h.timely hcfg).keepsRows hmem hlast
    · rw [not_or, not_le] at hcfg
      have hclose : cfg.rowBufferPolicy = .closePage := by
        cases hpolicy : cfg.rowBufferPolicy with
        | closePage => rfl
        | openPage => exact absurd hpolicy hcfg.1
      exact hkeep hclose hcfg.2 event rfl hlast
  obtain ⟨ranks, harrive, hagree⟩ := h.arrive
  constructor
  case blocked => exact h.blocked
  case fits => exact h.fits
  case lone => exact h.lone
  case opened =>
    intro hclose
    refine loneOpen_of_update (h.opened hclose) (fun hlast j row hphase => ?_)
    have hclosed := hkeep' hlast j
    rw [isOpen_of_phase hphase] at hclosed
    cases hclosed
  case active => exact fun hpolicy => (h.active hpolicy).afterUpdate
  case arrive => exact ⟨ranks, harrive, hagree.afterUpdate hkeep'⟩
  case data => exact h.data
  case timely => exact fun hcfg => (h.timely hcfg).fired hmem hnow htRP

variable [DecidableEq E]

theorem Accord.move {action : DramAction cfg E} (h : Accord s t) (htRP : 0 < cfg.tRP)
    (htRFC : 0 < cfg.tRFC) (hnow : s.Nominal action) (hkeep : s.KeepsRows action)
    (hmove : Move s action s') : ∃ t', Accord s' t' := by
  cases hmove with
  | tick =>
    obtain ⟨blocked, fits, lone, opened, active, arrive, data, timely⟩ := h
    exact ⟨t, blocked, fits, lone, opened, active, arrive, data,
      fun hcfg => (timely hcfg).tick hnow.1⟩
  | request kind b =>
    refine ⟨t, h.congr rfl (fun b' hmem => ?_) rfl rfl rfl (fun event hmem => hmem)⟩
    rcases List.mem_append.mp hmem with hmem | hmem
    · exact h.fits b' hmem
    · rw [List.mem_singleton.mp hmem]
      exact ⟨kind, rfl⟩
  | full => exact ⟨t, h⟩
  | enqueue b controller hfind hpair => exact h.enqueue (List.mem_of_find?_eq_some hfind) hpair
  | needRefresh rank =>
    obtain ⟨blocked, fits, lone, opened, active, arrive, data, timely⟩ := h
    exact ⟨t, blocked.congr rfl, fits, lone, opened, active, arrive, data, timely⟩
  | oneCycleOperation => exact h.oneCycleOperation htRP htRFC
  | stateUpdate event hmem => exact ⟨t, h.stateUpdate hmem hnow htRP hkeep⟩
  | command event rest ranks hcommands hreceive =>
    -- the commands behind it arrive as they would have
    have htime : event.eventTime = s.clock := hnow event (by rw [hcommands]; rfl)
    obtain ⟨blocked, fits, lone, opened, active, ⟨ranks', harrive, hagree⟩, data, timely⟩ := h
    rw [hcommands, Rank.receiveAll, htime, hreceive] at harrive
    exact ⟨t, blocked, fits, lone, opened, active, ⟨ranks', harrive, hagree⟩, data, timely⟩
  | writeArrives event ranks hmem hreceive =>
    rw [Rank.receive_data (h.data event hmem)] at hreceive
    cases hreceive
    exact ⟨t, h.congr rfl h.fits rfl rfl rfl (fun event' hmem' => List.mem_of_mem_erase hmem')⟩
  | columnReadComplete event =>
    refine ⟨t, ?_⟩
    rw [handleColumnReadComplete]
    split <;> exact h.congr rfl h.fits rfl rfl rfl (fun event' hmem' => hmem')
  | rankResponse event => exact ⟨t, h.congr rfl h.fits rfl rfl rfl (fun event' hmem' => hmem')⟩

/-- Every command that is popped is one that its rank allows when it arrives. -/
theorem ranks_allow (htCMD : 0 < cfg.tCMD) (htRP : 0 < cfg.tRP) (htRFC : 0 < cfg.tRFC)
    (run : Run (Guarded (StepOf step) (fun s a => s.Nominal a ∧ s.KeepsRows a)) (new cfg E) labels
      s) : s.RanksAllow := by
  have hinv : ∃ t, Accord s t := by
    refine run.invariant (I := fun s => ∃ t, Accord s t) ⟨_, accord_new htCMD⟩ ?_
    rintro s action s' ⟨t, h⟩ ⟨⟨hnow, hkeep⟩, hstep⟩
    exact h.move htRP htRFC hnow hkeep (move_of_step hstep)
  obtain ⟨t, h⟩ := hinv
  exact h.ranksAllow

instance (s : Dram cfg E) (action : DramAction cfg E) : Decidable (s.Nominal action) :=
  match action with
  | .tick => inferInstanceAs (Decidable (_ ∧ _))
  | .stateUpdate event => inferInstanceAs (Decidable (event.eventTime = s.clock))
  | .command => inferInstanceAs (Decidable (∀ event ∈ s.commands.head?, event.eventTime = s.clock))
  | .request _ _ | .enqueueToCommandQ | .needRefresh _ | .oneCycleOperation | .writeArrives _
  | .columnReadComplete _ | .rankResponse _ => isTrue trivial

instance (s : Dram cfg E) (action : DramAction cfg E) : Decidable (s.KeepsRows action) :=
  match action with
  | .stateUpdate event =>
    decidable_of_iff (cfg.rowBufferPolicy = .closePage → cfg.tRFC < cfg.tRP →
        (s.bankStates event.rank event.bank).lastCommand = .refresh →
          ∀ j, (s.bankStates event.rank j).isOpen = false)
      ⟨fun h hclose htimes _ heq => by cases heq; exact h hclose htimes,
        fun h hclose htimes => h hclose htimes event rfl⟩
  | .tick | .request _ _ | .enqueueToCommandQ | .needRefresh _ | .oneCycleOperation | .command
  | .writeArrives _ | .columnReadComplete _ | .rankResponse _ =>
    isTrue (fun _ _ _ heq => by cases heq)

section ShortRefresh
open CommandHistory

/-- Memory cycles in which nothing else happens. -/
def idleCycles (n : ℕ) : List (DramAction shortRefresh Unit) :=
  (List.replicate n [.oneCycleOperation, .tick]).flatten

/-- A read of bank 0 and its precharge, which a refresh overtakes; bank 1 is then activated
for a write. Up to the cycle in which that ACTIVATE arrives. -/
def refreshedEarly : List (DramAction shortRefresh Unit) :=
  [.request .cacheRead (packetFor bank0 0 0), .enqueueToCommandQ, .tick, .oneCycleOperation, .tick,
    .oneCycleOperation, .command, .tick, .oneCycleOperation, .command, .tick] ++ idleCycles 9 ++
  [.oneCycleOperation, .stateUpdate ⟨13, shortRefresh.firstRank, bank0⟩, .tick] ++ idleCycles 2 ++
  [.needRefresh shortRefresh.firstRank, .oneCycleOperation,
    .stateUpdate ⟨16, shortRefresh.firstRank, bank0⟩, .request .cacheWrite (packetFor bank1 7 0),
    .enqueueToCommandQ, .tick, .oneCycleOperation, .command,
    .request .cacheRead (packetFor bank1 7 0), .enqueueToCommandQ, .tick]

/-- The state update of bank 0 fires, and bank 1 is activated again for a read. -/
def activatedTwice : List (DramAction shortRefresh Unit) :=
  refreshedEarly ++ [.oneCycleOperation, .command, .tick] ++ idleCycles 5 ++
  [.oneCycleOperation, .stateUpdate ⟨24, shortRefresh.firstRank, bank0⟩, .tick,
    .oneCycleOperation, .tick]

/-- The command that arrives in a state, and whether its rank allows it. -/
def arrival (s : Dram shortRefresh Unit) : Option (BusPacketType × Bool × Bool) :=
  s.commands.head?.map (fun event => (event.busPacket.busPacketType, event.eventTime = s.clock,
    (Rank.receive s.ranks s.clock event.busPacket).isSome))

theorem refreshedEarly_runs :
    (exec (fun s a => if s.Nominal a ∧ s.KeepsRows a then step s a else none)
      (new shortRefresh Unit) refreshedEarly).map
        (fun s => (arrival s).map (fun p => (p.1, p.2.1))) = some (some (.activate, true)) := by
  decide +kernel

theorem activatedTwice_exits :
    (exec (fun s a => if s.Nominal a then step s a else none) (new shortRefresh Unit)
      activatedTwice).map arrival = some (some (.activate, true, false)) := by
  decide +kernel

theorem ranks_allow_refreshedEarly : ∃ s : Dram shortRefresh Unit,
    (arrival s).map (fun p => (p.1, p.2.1)) = some (.activate, true) ∧ s.RanksAllow := by
  obtain ⟨s, hs, harrival⟩ := Option.map_eq_some_iff.mp refreshedEarly_runs
  exact ⟨s, harrival, ranks_allow (by decide) (by decide) (by decide) (guarded_run_of_exec hs)⟩

/-- The rank receives an ACTIVATE for a bank whose row is open. -/
theorem not_ranksAllow : ∃ s, Run (Guarded (StepOf step) (fun s a => s.Nominal a))
    (new shortRefresh Unit) activatedTwice s ∧ ¬ s.RanksAllow := by
  obtain ⟨s, hs, harrival⟩ := Option.map_eq_some_iff.mp activatedTwice_exits
  refine ⟨s, guarded_run_of_exec hs, fun hallow => ?_⟩
  obtain ⟨event, hhead, hevent⟩ := Option.map_eq_some_iff.mp harrival
  rw [Prod.mk.injEq, Prod.mk.injEq, decide_eq_true_eq] at hevent
  have hsome := hallow event hhead hevent.2.1
  rw [hevent.2.2] at hsome
  cases hsome

end ShortRefresh

end Dram

end Tejas
