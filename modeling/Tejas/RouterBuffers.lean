import Mathlib.Data.List.Perm.Basic
import Tejas.NocRouting
import Tejas.LabelledRuns

/-!
# The buffers of the routers

`handleEvent` of `Router.java` with `AllocateBuffer` and `FreeBuffer` of `Switch.java`. A
message that enters at a router takes a buffer there, the sender takes the buffer at the
next router before it frees its own, and the last router frees one at the delivery.
Messages wait in the ports of the routers and are handled in any order. An exception ends
the simulation, so it is no step.
-/

namespace Tejas
open LabelledRuns

/-- The networks whose routers pass messages to each other. In the others a message
leaves its router for the switches. -/
def Topology.isDirect : Topology → Bool
  | .mesh => true
  | .torus => true
  | .bus => true
  | .ring => true
  | _ => false

/-- An event in the port of a router, or on the way to it. It was sent by a router when
the requesting element is one. -/
structure NocMessage where
  router : ID
  destination : ID
  fromRouter : Bool
  deriving DecidableEq, Repr

/-- What a router does with an event. -/
inductive RouterOutcome where
  | toSwitch
  | delivered
  | queued (message : NocMessage)
  deriving DecidableEq, Repr

namespace Router

/-- `AllocateBuffer` of the router at which a message enters. -/
def allocateBuffer (availBuff : ID → ℤ) (r : ID) : Option (ID → ℤ) :=
  if availBuff r > 2 then some (fun e => if e = r then availBuff e - 1 else availBuff e)
  else none

/-- `AllocateBuffer` with the direction in which the message comes. -/
def allocateBufferFrom (availBuff : ID → ℤ) (r : ID) (nextId : Direction) :
    Option (ID → ℤ) :=
  let taken := fun e => if e = r then availBuff e - 1 else availBuff e
  if availBuff r > 2 then some taken
  else if nextId = .up then if availBuff r > 1 then some taken else none
  else if nextId = .left then if availBuff r > 0 then some taken else none
  else none

def freeBuffer (availBuff : ID → ℤ) (r : ID) : ID → ℤ :=
  fun e => if e = r then availBuff e + 1 else availBuff e

/-- The branch of `handleEvent` for a message that a router has admitted. -/
def forward (cfg : RouterConfig) (availBuff : ID → ℤ) (message : NocMessage) :
    Option ((ID → ℤ) × RouterOutcome) :=
  match cfg.routeComputation availBuff message.router message.destination with
  | none => none
  | some nextID =>
    match cfg.neighbour message.router nextID with
    | none => none
    | some next =>
      match allocateBufferFrom availBuff next nextID with
      | some allocated =>
        some (freeBuffer allocated message.router,
          .queued { message with router := next, fromRouter := true })
      | none => some (availBuff, .queued { message with fromRouter := true })

/-- `handleEvent`. A message that enters is handled again as one of the router itself. -/
def handleEvent (cfg : RouterConfig) (availBuff : ID → ℤ) (message : NocMessage) :
    Option ((ID → ℤ) × RouterOutcome) :=
  if cfg.topology.isDirect = false ∧ message.router ≠ message.destination then
    some (availBuff, .toSwitch)
  else if message.router = message.destination then
    some (freeBuffer availBuff message.router, .delivered)
  else if message.fromRouter = false then
    match allocateBuffer availBuff message.router with
    | some allocated => forward cfg allocated { message with fromRouter := true }
    | none => some (availBuff, .queued message)
  else forward cfg availBuff message

end Router

/-- A network of routers that pass messages to each other. -/
structure RouterNetwork where
  cfg : RouterConfig
  direct : cfg.topology.isDirect = true

/-- The routers' free buffers and the messages in the network. -/
structure RouterState where
  availBuff : ID → ℤ
  messages : List NocMessage

/-- An element sends a message to an element of another router, or a router handles a
message. -/
inductive RouterAction where
  | inject (source destination : ID)
  | handle (i : ℕ)
  deriving DecidableEq, Repr

namespace RouterNetwork

def initial (net : RouterNetwork) : RouterState :=
  ⟨fun _ => net.cfg.numberOfBuffers, []⟩

/-- `sendEvent` hands a message to the network only when the other element has another
network interface. -/
def next (net : RouterNetwork) (s : RouterState) : RouterAction → Option RouterState
  | .inject source destination =>
    if source = destination then none
    else some { s with messages := s.messages ++ [⟨source, destination, false⟩] }
  | .handle i =>
    match s.messages[i]? with
    | none => none
    | some message =>
      match Router.handleEvent net.cfg s.availBuff message with
      | some (availBuff, .delivered) => some ⟨availBuff, s.messages.eraseIdx i⟩
      | some (availBuff, .queued left) => some ⟨availBuff, s.messages.eraseIdx i ++ [left]⟩
      | some (_, .toSwitch) => none
      | none => none

abbrev Step (net : RouterNetwork) := StepOf net.next

end RouterNetwork

/-! ### The messages that hold a buffer -/

/-- The message was admitted at the router, or is on the way there from another. -/
def NocMessage.holdsAt (r : ID) (message : NocMessage) : Bool :=
  message.fromRouter && decide (message.router = r)

/-- How many messages hold a buffer at the router. -/
def RouterState.holding (s : RouterState) (r : ID) : ℕ := s.messages.countP (NocMessage.holdsAt r)

/-- The message that an event leaves in the network. -/
def RouterOutcome.left : RouterOutcome → List NocMessage
  | .queued message => [message]
  | _ => []

/-- Every router accounts for its buffers, and a message that was not admitted is not yet
at its destination. -/
structure RouterState.Conserved (net : RouterNetwork) (s : RouterState) : Prop where
  nonneg : ∀ r, 0 ≤ s.availBuff r
  accounted : ∀ r, s.availBuff r + s.holding r = net.cfg.numberOfBuffers
  entering : ∀ message ∈ s.messages, message.fromRouter = false →
    message.router ≠ message.destination

namespace Router

variable {cfg : RouterConfig} {availBuff availBuff' : ID → ℤ} {message : NocMessage}
  {outcome : RouterOutcome} {r : ID} {nextId : Direction}

/-- Handling keeps what each router has free and what messages hold there in balance. -/
structure Balanced (availBuff : ID → ℤ) (message : NocMessage) (availBuff' : ID → ℤ)
    (outcome : RouterOutcome) : Prop where
  nonneg : (∀ r, 0 ≤ availBuff r) → ∀ r, 0 ≤ availBuff' r
  accounted : ∀ r, availBuff' r + outcome.left.countP (NocMessage.holdsAt r) =
    availBuff r + [message].countP (NocMessage.holdsAt r)
  entering : ∀ m ∈ outcome.left, m.fromRouter = false → m.router ≠ m.destination

/-- One buffer less at the router, which had one. -/
def Takes (availBuff : ID → ℤ) (r : ID) (availBuff' : ID → ℤ) : Prop :=
  0 < availBuff r ∧ ∀ e, availBuff' e = if e = r then availBuff e - 1 else availBuff e

theorem allocateBuffer_takes (h : allocateBuffer availBuff r = some availBuff') :
    Takes availBuff r availBuff' := by
  unfold allocateBuffer at h
  split at h
  · cases h
    exact ⟨by omega, fun _ => rfl⟩
  · cases h

theorem allocateBufferFrom_takes
    (h : allocateBufferFrom availBuff r nextId = some availBuff') :
    Takes availBuff r availBuff' := by
  unfold allocateBufferFrom at h
  dsimp only at h
  split at h
  · cases h
    exact ⟨by omega, fun _ => rfl⟩
  · split at h
    · split at h
      · cases h
        exact ⟨by omega, fun _ => rfl⟩
      · cases h
    · split at h
      · split at h
        · cases h
          exact ⟨by omega, fun _ => rfl⟩
        · cases h
      · cases h

theorem Takes.nonneg (h : Takes availBuff r availBuff') (hnonneg : ∀ e, 0 ≤ availBuff e) (e : ID) :
    0 ≤ availBuff' e := by
  rw [h.2 e]
  split
  · rename_i heq
    rw [heq]
    have := h.1
    omega
  · exact hnonneg e

theorem freeBuffer_nonneg (hnonneg : ∀ e, 0 ≤ availBuff e) (e : ID) :
    0 ≤ freeBuffer availBuff r e := by
  have := hnonneg e
  unfold freeBuffer
  split <;> omega

theorem countP_single (m : NocMessage) :
    [m].countP (NocMessage.holdsAt r) = if m.fromRouter = true ∧ m.router = r then 1 else 0 := by
  rw [List.countP_singleton]
  simp [NocMessage.holdsAt]

/-- A message that was admitted takes a buffer at the next router and frees its own, or
keeps it. -/
theorem forward_balanced (message : NocMessage) (hadmitted : message.fromRouter = true)
    (h : forward cfg availBuff message = some (availBuff', outcome)) :
    Balanced availBuff message availBuff' outcome := by
  unfold forward at h
  split at h
  · cases h
  · split at h
    · cases h
    · split at h
      · rename_i next _ allocated hallocated
        cases h
        have htakes := allocateBufferFrom_takes hallocated
        constructor
        case nonneg =>
          intro hnonneg r
          exact freeBuffer_nonneg (htakes.nonneg hnonneg) r
        case accounted =>
          intro r
          simp only [RouterOutcome.left, countP_single, hadmitted, true_and, freeBuffer, htakes.2]
          split_ifs <;> grind
        case entering =>
          intro m hm hentering
          cases List.mem_singleton.mp hm
          cases hentering
      · cases h
        constructor
        case nonneg => exact fun hnonneg => hnonneg
        case accounted =>
          intro r
          simp only [RouterOutcome.left, countP_single, hadmitted, true_and]
        case entering =>
          intro m hm hentering
          cases List.mem_singleton.mp hm
          cases hentering

/-- Every branch of `handleEvent` that does not leave for the switches keeps the balance. -/
theorem handleEvent_balanced (hdirect : cfg.topology.isDirect = true)
    (hentering : message.fromRouter = false → message.router ≠ message.destination)
    (h : handleEvent cfg availBuff message = some (availBuff', outcome)) :
    Balanced availBuff message availBuff' outcome := by
  unfold handleEvent at h
  rw [if_neg (by simp [hdirect])] at h
  split at h
  · rename_i harrived
    cases h
    have hadmitted : message.fromRouter = true := by
      by_contra hnot
      exact hentering (Bool.eq_false_iff.mpr hnot) harrived
    constructor
    case nonneg => exact fun hnonneg => freeBuffer_nonneg hnonneg
    case accounted =>
      intro r
      simp only [RouterOutcome.left, countP_single, hadmitted, true_and, freeBuffer,
        List.countP_nil]
      split_ifs <;> grind
    case entering =>
      intro m hm
      cases hm
  · rename_i haway
    split at h
    · rename_i hnew
      split at h
      · rename_i allocated hallocated
        have htakes := allocateBuffer_takes hallocated
        have hforward := forward_balanced { message with fromRouter := true } rfl h
        constructor
        case nonneg => exact fun hnonneg => hforward.nonneg (htakes.nonneg hnonneg)
        case accounted =>
          intro r
          rw [hforward.accounted r]
          simp only [countP_single, hnew, htakes.2, true_and]
          split_ifs <;> grind
        case entering => exact hforward.entering
      · cases h
        constructor
        case nonneg => exact fun hnonneg => hnonneg
        case accounted => exact fun _ => rfl
        case entering =>
          intro m hm _
          cases List.mem_singleton.mp hm
          exact haway
    · rename_i hadmitted
      exact forward_balanced message (Bool.of_not_eq_false hadmitted) h

end Router

namespace RouterNetwork

variable {net : RouterNetwork} {s t : RouterState} {label : RouterAction}
  {labels : List RouterAction}

/-! ### Every run -/

theorem countP_eraseIdx {i : ℕ} {message : NocMessage} (h : s.messages[i]? = some message)
    (r : ID) : s.holding r =
      [message].countP (NocMessage.holdsAt r) +
        (s.messages.eraseIdx i).countP (NocMessage.holdsAt r) := by
  obtain ⟨hi, rfl⟩ := List.getElem?_eq_some_iff.mp h
  unfold RouterState.holding
  rw [← (List.getElem_cons_eraseIdx_perm hi).countP_eq _, ← List.countP_append]
  rfl

theorem conserved_initial (net : RouterNetwork) : (net.initial).Conserved net where
  nonneg := fun _ => Int.natCast_nonneg _
  accounted := by
    intro r
    simp [initial, RouterState.holding]
  entering := by
    intro message h
    cases h

/-- A balanced event keeps the account of every router. -/
theorem conserved_handle (h : s.Conserved net) {i : ℕ} {message : NocMessage}
    {availBuff : ID → ℤ} {outcome : RouterOutcome} (hmessage : s.messages[i]? = some message)
    (hbalanced : Router.Balanced s.availBuff message availBuff outcome) :
    RouterState.Conserved net ⟨availBuff, s.messages.eraseIdx i ++ outcome.left⟩ := by
  constructor
  case nonneg => exact hbalanced.nonneg h.nonneg
  case accounted =>
    intro r
    have hbefore := h.accounted r
    have hbalance := hbalanced.accounted r
    rw [countP_eraseIdx hmessage r] at hbefore
    simp only [RouterState.holding, List.countP_append]
    push_cast at hbefore ⊢
    omega
  case entering =>
    intro m hm
    rcases List.mem_append.mp hm with hm | hm
    · exact h.entering m (List.mem_of_mem_eraseIdx hm)
    · exact hbalanced.entering m hm

theorem conserved_step (h : s.Conserved net) (hstep : net.Step s label t) : t.Conserved net := by
  have hstep : net.next s label = some t := hstep
  cases label with
  | inject source destination =>
    simp only [next] at hstep
    split at hstep
    · cases hstep
    · rename_i hne
      cases hstep
      constructor
      case nonneg => exact h.nonneg
      case accounted =>
        intro r
        rw [← h.accounted r]
        simp [RouterState.holding, NocMessage.holdsAt]
      case entering =>
        intro m hm hentering
        rcases List.mem_append.mp hm with hm | hm
        · exact h.entering m hm hentering
        · cases List.mem_singleton.mp hm
          exact hne
  | handle i =>
    simp only [next] at hstep
    split at hstep
    · cases hstep
    · rename_i message hmessage
      have hmem : message ∈ s.messages := List.mem_of_getElem? hmessage
      split at hstep
      · rename_i hhandle
        cases hstep
        have hbalanced := Router.handleEvent_balanced net.direct (h.entering _ hmem) hhandle
        simpa [RouterOutcome.left] using conserved_handle h hmessage hbalanced
      · rename_i hhandle
        cases hstep
        have hbalanced := Router.handleEvent_balanced net.direct (h.entering _ hmem) hhandle
        exact conserved_handle h hmessage hbalanced
      · cases hstep
      · cases hstep

/-- No message leaves for the switches. -/
theorem not_toSwitch {availBuff availBuff' : ID → ℤ} {message : NocMessage} :
    Router.handleEvent net.cfg availBuff message ≠ some (availBuff', .toSwitch) := by
  intro h
  unfold Router.handleEvent at h
  rw [if_neg (by simp [net.direct])] at h
  have hforward : ∀ availBuff message,
      Router.forward net.cfg availBuff message ≠ some (availBuff', .toSwitch) := by
    intro availBuff message h
    unfold Router.forward at h
    grind
  grind

/-- **The buffers of the routers are conserved.** In every network of routers, with any
number of buffers, after any run each router has between none and all of its buffers
free, and what is missing is held by the messages that were admitted there or are on
the way from another router. -/
theorem buffers_conserved (net : RouterNetwork)
    (run : Run net.Step net.initial labels s) (r : ID) :
    0 ≤ s.availBuff r ∧ s.availBuff r ≤ net.cfg.numberOfBuffers ∧
      s.availBuff r = net.cfg.numberOfBuffers - s.holding r := by
  have h : s.Conserved net :=
    run.invariant (conserved_initial net) (fun _ _ _ => conserved_step)
  have haccount := h.accounted r
  exact ⟨h.nonneg r, by omega, by omega⟩

/-- On a mesh of two rows and columns with three buffers, a message that has entered and
gone down. -/
theorem buffers_conserved_mesh :
    let net : RouterNetwork := ⟨⟨.mesh, .simple, none, 2, 2, 3⟩, rfl⟩
    ∃ s, Run net.Step net.initial [.inject ⟨0, 0⟩ ⟨1, 1⟩, .handle 0] s ∧
      0 ≤ s.availBuff ⟨1, 0⟩ ∧ s.availBuff ⟨1, 0⟩ ≤ 3 ∧
        s.availBuff ⟨1, 0⟩ = 3 - s.holding ⟨1, 0⟩ :=
  ⟨_, run_of_exec rfl, buffers_conserved ⟨⟨.mesh, .simple, none, 2, 2, 3⟩, rfl⟩
    (run_of_exec rfl : Run _ _ [.inject ⟨0, 0⟩ ⟨1, 1⟩, .handle 0] _) ⟨1, 0⟩⟩

end RouterNetwork

end Tejas
