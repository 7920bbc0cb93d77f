import Tejas.SwitchRoutes
import Tejas.RouterBuffers

/-!
# Messages through the switches

An event carries the element that handles it next and, in other fields, the element it is
meant for. `Router.handleEvent` reads the second, `Switch.handleEvent` the first: it asks
for the network interface of the switch itself, which has none.
-/

namespace Tejas

/-- What handles events: an element of a column (a core, a cache, a memory controller), or
a router or a switch of the network. -/
inductive SimulationElement where
  | element (column : ℕ)
  | network (e : NetworkElement)
  deriving DecidableEq, Repr

/-- `comInterface`, by its column. It is set for the elements that the topology file places,
never for routers and switches. -/
def SimulationElement.getComInterface : SimulationElement → Option ℕ
  | .element column => some column
  | .network _ => none

/-- The fields of `Event` that say who sends it and who handles it. -/
structure NocEvent where
  requestingElement : SimulationElement
  processingElement : SimulationElement
  actualRequestingElement : SimulationElement
  actualProcessingElement : SimulationElement
  deriving DecidableEq, Repr

namespace NocEvent

/-- `update` with two elements. -/
def update (event : NocEvent) (requestingElement processingElement : SimulationElement) :
    NocEvent :=
  { event with requestingElement := requestingElement, processingElement := processingElement }

/-- `sendMessage` of the interface of a column. -/
def sendMessage (column : ℕ) (event : NocEvent) : NocEvent :=
  { requestingElement := event.requestingElement
    processingElement := .network (.router column)
    actualRequestingElement := event.requestingElement
    actualProcessingElement := event.processingElement }

/-- The message that an element of one column sends to the element of another. -/
def message (source destination : ℕ) : NocEvent :=
  ⟨.element source, .element destination, .element source, .element destination⟩

end NocEvent

namespace SwitchNetwork

/-- All buffers of the routers are free. The branches for these networks do not ask. -/
def freeBuffers (cfg : RouterConfig) : ID → ℤ := fun _ => cfg.numberOfBuffers

/-- `handleEvent` of a router of the single row. `none` is an exception. -/
def routerHandleEvent (net : SwitchNetwork) (cfg : RouterConfig) (column : ℕ)
    (event : NocEvent) : Option NocEvent :=
  match event.actualProcessingElement.getComInterface with
  | none => none
  | some destination =>
    match Router.handleEvent cfg (freeBuffers cfg) ⟨⟨0, column⟩, ⟨0, destination⟩, false⟩ with
    | some (_, .toSwitch) =>
      (net.routerConnection column).map (fun next =>
        event.update (.network (.router column)) (.network next))
    | some (_, .delivered) =>
      some (event.update event.actualRequestingElement event.actualProcessingElement)
    | some (_, .queued _) => none
    | none => none

/-- `handleEvent` of a switch. -/
def switchHandleEvent (net : SwitchNetwork) (numColumns index : ℕ) (event : NocEvent) :
    Option NocEvent :=
  match event.processingElement.getComInterface with
  | none => none
  | some elementNumber =>
    (net.nextElement numColumns elementNumber index).map (fun next =>
      event.update (.network (.switch index)) (.network next))

/-- The element in whose port the event lies handles it. An event at an element of a column
has left the network. -/
def handleEvent (net : SwitchNetwork) (cfg : RouterConfig) (event : NocEvent) :
    Option NocEvent :=
  match event.processingElement with
  | .network (.router column) => net.routerHandleEvent cfg column event
  | .network (.switch index) => net.switchHandleEvent cfg.numberOfColumns index event
  | .element _ => some event

/-- The event after so many were handled, unless one of them ended in an exception. -/
def handled (net : SwitchNetwork) (cfg : RouterConfig) : ℕ → NocEvent → Option NocEvent
  | 0, event => some event
  | n + 1, event => (net.handleEvent cfg event).bind (net.handled cfg n)

/-- A message that the interface of the source takes reaches the port of the element it is
meant for. -/
def Delivers (net : SwitchNetwork) (cfg : RouterConfig) (source destination : ℕ) : Prop :=
  ∃ n event, net.handled cfg n ((NocEvent.message source destination).sendMessage source) =
    some event ∧ event.processingElement = .element destination

variable {net : SwitchNetwork} {cfg : RouterConfig} {s d k : ℕ}

/-- The router of the source passes the message to the switch it is connected to. -/
theorem routerHandleEvent_source {index : ℕ} (hdirect : cfg.topology.isDirect = false)
    (hne : s ≠ d) (hswitch : net.routerConnection s = some (.switch index)) :
    net.handleEvent cfg ((NocEvent.message s d).sendMessage s) = some
      (((NocEvent.message s d).sendMessage s).update (.network (.router s))
        (.network (.switch index))) := by
  have haway : (⟨0, s⟩ : ID) ≠ ⟨0, d⟩ := by
    intro heq
    exact hne (congrArg ID.y heq)
  have hrouter : Router.handleEvent cfg (freeBuffers cfg) ⟨⟨0, s⟩, ⟨0, d⟩, false⟩ =
      some (freeBuffers cfg, .toSwitch) := by
    unfold Router.handleEvent
    exact if_pos ⟨hdirect, haway⟩
  have hinterface :
      ((NocEvent.message s d).sendMessage s).actualProcessingElement.getComInterface = some d :=
    rfl
  unfold handleEvent
  dsimp only [NocEvent.sendMessage] at hinterface ⊢
  unfold routerHandleEvent
  rw [hinterface]
  dsimp only
  rw [hrouter]
  dsimp only
  rw [hswitch]
  rfl

/-- A switch has no network interface to ask for the destination. -/
theorem switchHandleEvent_exception {index : ℕ} {event : NocEvent}
    (hprocessing : event.processingElement = .network (.switch index)) :
    net.handleEvent cfg event = none := by
  unfold handleEvent
  rw [hprocessing]
  dsimp only
  unfold switchHandleEvent
  rw [hprocessing]
  rfl

/-- A message whose source is connected to a switch is handled once and never again. -/
theorem not_delivers {index : ℕ} (hdirect : cfg.topology.isDirect = false) (hne : s ≠ d)
    (hswitch : net.routerConnection s = some (.switch index)) : ¬ net.Delivers cfg s d := by
  intro h
  obtain ⟨n, event, hrun, hevent⟩ := h
  cases n with
  | zero =>
    cases hrun
    cases hevent
  | succ n =>
    rw [handled, routerHandleEvent_source hdirect hne hswitch] at hrun
    cases n with
    | zero =>
      cases hrun
      cases hevent
    | succ n =>
      rw [Option.bind_some, handled, switchHandleEvent_exception rfl] at hrun
      cases hrun

/-- **No message passes a switch.** In the omega and the butterfly network of any size no
message between different columns is delivered. -/
theorem never_delivered (k : ℕ) (hk : 1 ≤ k) (cfg : RouterConfig)
    (hcfg : cfg.numberOfColumns = 2 ^ k) (net : SwitchNetwork)
    (hnet : cfg.topology = .omega ∧ net = connectNOCElementsOmega cfg.numberOfColumns ∨
      cfg.topology = .butterfly ∧ net = connectNOCElementsButterfly cfg.numberOfColumns)
    (source destination : ℕ) (hsource : source < 2 ^ k) (hne : source ≠ destination) :
    ¬ net.Delivers cfg source destination := by
  rw [hcfg] at hnet
  rcases hnet with ⟨htopology, rfl⟩ | ⟨htopology, rfl⟩
  · exact not_delivers (by rw [htopology]; rfl) hne ((wired_omega hk).input source hsource)
  · exact not_delivers (by rw [htopology]; rfl) hne ((wired_butterfly hk).input source hsource)

/-- Four columns in an omega network. -/
theorem never_delivered_four :
    ¬ (connectNOCElementsOmega 4).Delivers ⟨.omega, .omega, none, 1, 4, 8⟩ 3 1 :=
  never_delivered 2 (by decide) ⟨.omega, .omega, none, 1, 4, 8⟩ rfl _ (Or.inl ⟨rfl, rfl⟩) 3 1
    (by decide) (by decide)

/-- With two columns the message from the first to the second ends at the only switch. -/
theorem first_switch_fails :
    ¬ (connectNOCElementsOmega 2).Delivers ⟨.omega, .omega, none, 1, 2, 8⟩ 0 1 := by
  have hswitch : (connectNOCElementsOmega 2).routerConnection 0 = some (.switch 0) := by decide
  exact not_delivers rfl (by decide) hswitch

end SwitchNetwork

end Tejas
