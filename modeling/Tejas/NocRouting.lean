import Tejas.AdaptiveRouting

/-!
# Routing in the network on chip

The routing functions of `RoutingAlgo.java`, `RouteComputation` of `Router.java`, and the
neighbours that `NOC.java` gives to a router. An `ID` is a row and a column; `UP`
leads to the row before, `LEFT` to the column before.
-/

namespace Tejas

/-- `RoutingAlgo.DIRECTION`. -/
inductive Direction where
  | up
  | right
  | down
  | left
  deriving DecidableEq, Repr

inductive Topology where
  | mesh
  | torus
  | bus
  | ring
  | fatTree
  | omega
  | butterfly
  deriving DecidableEq, Repr

/-- `RoutingAlgo.ALGO`. -/
inductive RoutingAlgo where
  | westFirst
  | northLast
  | negativeFirst
  | table
  | simple
  | fatTree
  | omega
  | butterfly
  deriving DecidableEq, Repr

/-- `RoutingAlgo.SELSCHEME`. -/
inductive SelScheme where
  | static
  | adaptive
  deriving DecidableEq, Repr

/-- The fields of a `Router` that come from the configuration. The constructor that
`Router` calls does not set `selScheme`, so it may be missing. -/
structure RouterConfig where
  topology : Topology
  rAlgo : RoutingAlgo
  selScheme : Option SelScheme
  numberOfRows : ℕ
  numberOfColumns : ℕ
  numberOfBuffers : ℕ

/-- `ID.java`. -/
@[ext] structure ID where
  x : ℕ
  y : ℕ
  deriving DecidableEq, Repr

namespace RoutingAlgo

/-- The number of hops on the ring as the source counts them. -/
def ringHops (numColums : ℕ) (current destination : ID) : ℤ :=
  let x1 : ℤ := current.x
  let y1 : ℤ := current.y
  let x2 : ℤ := destination.x
  let y2 : ℤ := destination.y
  if x2 > x1 then (x2 - x1 - 1) * (numColums - 1) + (numColums - y1 - 1) + y2
  else if x2 < x1 then (x1 - x2 - 1) * (numColums - 1) + (numColums - y2 - 1) + y1
  else ((y2 - y1).natAbs : ℤ)

/-- The destination comes behind in the order of rows and columns. -/
def comesBehind (current destination : ID) : Bool :=
  decide (current.x < destination.x ∨ current.x = destination.x ∧ current.y < destination.y)

/-- The choices of `XYnextBank` between `UP` and `DOWN`. -/
def verticalChoices (topology : Topology) (numRows : ℕ) (x1 x2 : ℕ) : List Direction :=
  if x1 < x2 then
    if topology = .torus ∧ x2 - x1 > numRows / 2 then [.up] else [.down]
  else if x1 > x2 then
    if topology = .torus ∧ x1 - x2 > numRows / 2 then [.down] else [.up]
  else []

/-- The choices of `XYnextBank` between `RIGHT` and `LEFT`. -/
def horizontalChoices (topology : Topology) (numColums : ℕ) (y1 y2 : ℕ) : List Direction :=
  if y1 < y2 then
    if topology = .torus ∧ y2 - y1 > numColums / 2 then [.left] else [.right]
  else if y1 > y2 then
    if topology = .torus ∧ y1 - y2 > numColums / 2 then [.right] else [.left]
  else []

def xyNextBank (current destination : ID) (topology : Topology) (numRows numColums : ℕ) :
    List Direction :=
  if topology = .bus then
    if comesBehind current destination then [.right] else [.left]
  else if topology = .ring then
    if ((numColums * numRows / 2 : ℕ) : ℤ) ≥ ringHops numColums current destination then
      if comesBehind current destination then [.right] else [.left]
    else
      if comesBehind current destination then [.left] else [.right]
  else
    verticalChoices topology numRows current.x destination.x ++
      horizontalChoices topology numColums current.y destination.y

def westFirstNextBank (current destination : ID) (topology : Topology)
    (numRows numColums : ℕ) : List Direction :=
  if destination.y < current.y then
    if topology = .torus ∧ current.y - destination.y > numColums / 2 then [.right] else [.left]
  else xyNextBank current destination topology numRows numColums

/-- The choices of `NorthLastnextBank` for a destination further up. The tests of the
source are repeated as they are: on the torus the second difference is never
positive, and on the mesh both branches ask for a destination further left. -/
def northLastChoices (topology : Topology) (numColums : ℕ) (y1 y2 : ℕ) : List Direction :=
  if topology = .torus then
    if y2 > y1 then
      if y2 - y1 > numColums / 2 then [.left] else [.right]
    else if y1 > y2 then
      if (y2 : ℤ) - y1 > (numColums / 2 : ℕ) then [.right] else [.left]
    else []
  else if topology = .mesh ∧ y2 < y1 then [.left]
  else if topology = .mesh ∧ y1 > y2 then [.right]
  else []

def northLastNextBank (current destination : ID) (topology : Topology)
    (numRows numColums : ℕ) : List Direction :=
  if destination.x < current.x then
    let choices := northLastChoices topology numColums current.y destination.y
    if choices.isEmpty then xyNextBank current destination topology numRows numColums else choices
  else xyNextBank current destination topology numRows numColums

def negativeFirstNextBank (current destination : ID) (topology : Topology)
    (numRows numColums : ℕ) : List Direction :=
  if destination.y < current.y ∧ destination.x < current.x then
    if topology = .torus ∧ current.y - destination.y > numColums / 2 then [.right] else [.left]
  else if destination.y > current.y ∧ destination.x > current.x then
    if topology = .torus ∧ destination.x - current.x > numRows / 2 then [.up] else [.down]
  else xyNextBank current destination topology numRows numColums

end RoutingAlgo

/-! ### The wiring -/

namespace Noc

/-- `ConnectNOCElementsMesh`. -/
def connectNOCElementsMesh (bankRows bankColumns : ℕ) (e : ID) : Direction → Option ID
  | .up => if e.x = 0 then none else some ⟨e.x - 1, e.y⟩
  | .right => if e.y + 1 = bankColumns then none else some ⟨e.x, e.y + 1⟩
  | .down => if e.x + 1 = bankRows then none else some ⟨e.x + 1, e.y⟩
  | .left => if e.y = 0 then none else some ⟨e.x, e.y - 1⟩

/-- `ConnectNOCElementsTorus`. -/
def connectNOCElementsTorus (bankRows bankColumns : ℕ) (e : ID) : Direction → Option ID
  | .up => if e.x = 0 then some ⟨bankRows - 1, e.y⟩ else some ⟨e.x - 1, e.y⟩
  | .right => if e.y + 1 = bankColumns then some ⟨e.x, 0⟩ else some ⟨e.x, e.y + 1⟩
  | .down => if e.x + 1 = bankRows then some ⟨0, e.y⟩ else some ⟨e.x + 1, e.y⟩
  | .left => if e.y = 0 then some ⟨e.x, bankColumns - 1⟩ else some ⟨e.x, e.y - 1⟩

/-- `ConnectNOCElementsRingBus`. -/
def connectNOCElementsRingBus (bankRows bankColumns : ℕ) (ring : Bool) (e : ID) :
    Direction → Option ID
  | .up => none
  | .right =>
    if e.y + 1 = bankColumns then
      if e.x + 1 = bankRows then if ring then some ⟨0, 0⟩ else none
      else some ⟨e.x + 1, 0⟩
    else some ⟨e.x, e.y + 1⟩
  | .down => none
  | .left =>
    if e.y = 0 then
      if e.x = 0 then if ring then some ⟨bankRows - 1, bankColumns - 1⟩ else none
      else some ⟨e.x - 1, bankColumns - 1⟩
    else some ⟨e.x, e.y - 1⟩

end Noc

namespace RouterConfig

/-- The networks whose routers are wired to each other. -/
def neighbour (cfg : RouterConfig) (e : ID) (dir : Direction) : Option ID :=
  match cfg.topology with
  | .mesh => Noc.connectNOCElementsMesh cfg.numberOfRows cfg.numberOfColumns e dir
  | .torus => Noc.connectNOCElementsTorus cfg.numberOfRows cfg.numberOfColumns e dir
  | .bus => Noc.connectNOCElementsRingBus cfg.numberOfRows cfg.numberOfColumns false e dir
  | .ring => Noc.connectNOCElementsRingBus cfg.numberOfRows cfg.numberOfColumns true e dir
  | _ => none

/-- The choices of the algorithm. -/
def choices (cfg : RouterConfig) (current destination : ID) : List Direction :=
  match cfg.rAlgo with
  | .westFirst => RoutingAlgo.westFirstNextBank current destination cfg.topology
      cfg.numberOfRows cfg.numberOfColumns
  | .northLast => RoutingAlgo.northLastNextBank current destination cfg.topology
      cfg.numberOfRows cfg.numberOfColumns
  | .negativeFirst => RoutingAlgo.negativeFirstNextBank current destination cfg.topology
      cfg.numberOfRows cfg.numberOfColumns
  | .simple => RoutingAlgo.xyNextBank current destination cfg.topology
      cfg.numberOfRows cfg.numberOfColumns
  | _ => []

/-- `RouteComputation`, with the free buffers of the routers. `none` is an exception: no
choice, or a neighbour that is missing. -/
def routeComputation (cfg : RouterConfig) (availBuff : ID → ℤ) (current destination : ID) :
    Option Direction :=
  match cfg.choices current destination with
  | first :: second :: _ =>
    if cfg.selScheme = some .adaptive then
      match cfg.neighbour current first, cfg.neighbour current second with
      | some n, some m => some (if availBuff n > availBuff m then first else second)
      | _, _ => none
    else some first
  | [first] => some first
  | [] => none

/-- The hops that a message for the destination may make, whatever buffers are free. An
exception and a missing neighbour have no successor. -/
def Hop (cfg : RouterConfig) (destination current : ID) (dir : Direction) (next : Option ID) :
    Prop :=
  ∃ availBuff, match cfg.routeComputation availBuff current destination with
    | some chosen => dir = chosen ∧ next = cfg.neighbour current chosen
    | none => next = none

def InRange (cfg : RouterConfig) (e : ID) : Prop :=
  e.x < cfg.numberOfRows ∧ e.y < cfg.numberOfColumns

end RouterConfig

end Tejas
