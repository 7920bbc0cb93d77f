import Tejas.NocRoutes

/-!
# The turn models

On the mesh `WESTFIRST` makes its hops to the left before all others, and `NEGATIVEFIRST`
its hops to the left and down. Numbering the channels accordingly orders them along every
route. `NORTHLAST` is meant to make its hops up last. It does, unless the destination is
further up and further right: the test for that case repeats the test for the other side.
-/

namespace Tejas.RouterConfig
open AdaptiveRouting

variable {cfg : RouterConfig} {n m d : ID} {a b : Direction}

/-! ### One hop on the mesh -/

/-- Where a hop on the mesh leads. -/
def HopsTo (n m : ID) : Direction → Prop
  | .up => m.x + 1 = n.x ∧ m.y = n.y
  | .right => m.x = n.x ∧ m.y = n.y + 1
  | .down => m.x = n.x + 1 ∧ m.y = n.y
  | .left => m.x = n.x ∧ m.y + 1 = n.y

/-- On which side of the node the destination of a hop lies. -/
def Towards (n d : ID) : Direction → Prop
  | .up => d.x < n.x
  | .right => n.y < d.y
  | .down => n.x < d.x
  | .left => d.y < n.y

theorem neighbour_mesh (h : cfg.topology = .mesh) (hm : cfg.neighbour n a = some m) :
    HopsTo n m a := by
  unfold neighbour at hm
  rw [h] at hm
  cases a with
  | up =>
    simp only [Noc.connectNOCElementsMesh] at hm
    split at hm
    · cases hm
    · cases hm
      exact ⟨by dsimp only; omega, rfl⟩
  | right =>
    simp only [Noc.connectNOCElementsMesh] at hm
    split at hm
    · cases hm
    · cases hm
      exact ⟨rfl, rfl⟩
  | down =>
    simp only [Noc.connectNOCElementsMesh] at hm
    split at hm
    · cases hm
    · cases hm
      exact ⟨rfl, rfl⟩
  | left =>
    simp only [Noc.connectNOCElementsMesh] at hm
    split at hm
    · cases hm
    · cases hm
      exact ⟨rfl, by dsimp only; omega⟩

/-- A hop on the mesh goes towards the destination and stays on the mesh. -/
theorem hop_mesh (h : cfg.topology = .mesh) (halgo : cfg.rAlgo.routesGrid = true)
    (hn : cfg.InRange n) (hd : cfg.InRange d) (haway : n ≠ d)
    (hhop : cfg.Hop d n a (some m)) : Towards n d a ∧ HopsTo n m a ∧ cfg.InRange m := by
  obtain ⟨hmem, hm⟩ := hhop.mem
  have hminimal := (choices_minimal (Or.inl h) halgo (fun _ => h) haway).2 a hmem
  obtain ⟨m', hm', hrange, -⟩ := minimal_mesh_hop h hn hd hminimal
  rw [hm] at hm'
  cases hm'
  refine ⟨?_, neighbour_mesh h hm, hrange⟩
  rw [minimal_mesh h] at hminimal
  cases a <;> exact hminimal

/-! ### The choices of the turn models -/

/-- With the destination further left `WESTFIRST` offers the left only. -/
theorem westFirst_choices (h : cfg.topology = .mesh) (halgo : cfg.rAlgo = .westFirst)
    (hwest : d.y < n.y) : cfg.choices n d = [.left] := by
  unfold choices RoutingAlgo.westFirstNextBank
  rw [halgo, h]
  dsimp only
  rw [if_pos hwest]
  rfl

/-- With the destination further left and up `NEGATIVEFIRST` offers the left only. -/
theorem negativeFirst_choices_left (h : cfg.topology = .mesh)
    (halgo : cfg.rAlgo = .negativeFirst) (hwest : d.y < n.y) (hup : d.x < n.x) :
    cfg.choices n d = [.left] := by
  unfold choices RoutingAlgo.negativeFirstNextBank
  rw [halgo, h]
  dsimp only
  rw [if_pos ⟨hwest, hup⟩]
  rfl

/-- With the destination further right and down `NEGATIVEFIRST` offers the way down only. -/
theorem negativeFirst_choices_down (h : cfg.topology = .mesh)
    (halgo : cfg.rAlgo = .negativeFirst) (heast : n.y < d.y) (hdown : n.x < d.x) :
    cfg.choices n d = [.down] := by
  unfold choices RoutingAlgo.negativeFirstNextBank
  rw [halgo, h]
  dsimp only
  rw [if_neg (by omega), if_pos ⟨heast, hdown⟩]
  rfl

/-- With the destination further left and up `NORTHLAST` offers the left only. -/
theorem northLast_choices_left (h : cfg.topology = .mesh) (halgo : cfg.rAlgo = .northLast)
    (hwest : d.y < n.y) (hup : d.x < n.x) : cfg.choices n d = [.left] := by
  unfold choices RoutingAlgo.northLastNextBank
  rw [halgo, h]
  dsimp only
  rw [if_pos hup, northLastChoices_mesh, if_pos hwest]
  rfl

/-- With the destination further right and up `NORTHLAST` offers the way up first, as the
algorithm without the rule does. -/
theorem northLast_choices_right (h : cfg.topology = .mesh) (halgo : cfg.rAlgo = .northLast)
    (heast : n.y < d.y) (hup : d.x < n.x) : cfg.choices n d = [.up, .right] := by
  have hnone : RoutingAlgo.northLastChoices .mesh cfg.numberOfColumns n.y d.y = [] := by
    rw [northLastChoices_mesh, if_neg (by omega)]
  unfold choices RoutingAlgo.northLastNextBank
  rw [halgo, h]
  dsimp only
  rw [if_pos hup, hnone]
  simp only [List.isEmpty_nil, if_true, RoutingAlgo.xyNextBank, reduceCtorEq, if_false,
    RoutingAlgo.verticalChoices, RoutingAlgo.horizontalChoices, false_and]
  rw [if_neg (by omega), if_pos hup, if_pos heast]
  rfl

theorem eq_of_choices (hhop : cfg.Hop d n a (some m)) {dir : Direction}
    (hchoices : cfg.choices n d = [dir]) : a = dir := by
  have hmem := hhop.mem.1
  rw [hchoices] at hmem
  exact List.mem_singleton.mp hmem

/-! ### West first -/

/-- A hop of `WESTFIRST` in another direction than left has no destination further left. -/
theorem westFirst_hop (h : cfg.topology = .mesh) (halgo : cfg.rAlgo = .westFirst)
    (hhop : cfg.Hop d n a (some m)) (ha : a ≠ .left) : n.y ≤ d.y := by
  by_contra hwest
  exact ha (eq_of_choices hhop (westFirst_choices h halgo (Nat.not_le.mp hwest)))

/-- Without a destination further left `WESTFIRST` makes no hop to the left, and the hop it
makes leaves it so. -/
theorem westFirst_safe (h : cfg.topology = .mesh) (halgo : cfg.rAlgo = .westFirst)
    (hn : cfg.InRange n) (hd : cfg.InRange d) (haway : n ≠ d) (hsafe : n.y ≤ d.y)
    (hhop : cfg.Hop d n a (some m)) : a ≠ .left ∧ m.y ≤ d.y := by
  obtain ⟨htowards, hto, -⟩ := hop_mesh h (by rw [halgo]; rfl) hn hd haway hhop
  cases a with
  | left => exact absurd htowards (Nat.not_lt.mpr hsafe)
  | up => exact ⟨Direction.noConfusion, by rw [hto.2]; exact hsafe⟩
  | down => exact ⟨Direction.noConfusion, by rw [hto.2]; exact hsafe⟩
  | right =>
    refine ⟨Direction.noConfusion, ?_⟩
    rw [hto.2]
    exact htowards

theorem westFirst_pairwise (h : cfg.topology = .mesh) (halgo : cfg.rAlgo = .westFirst)
    {s e : ID} {dirs : List Direction} (hs : cfg.InRange s) (hd : cfg.InRange d)
    (hroute : Route (cfg.Hop d) d s dirs e) :
    dirs.Pairwise (fun a b => b = .left → a = .left) := by
  refine Route.pairwise (fun a => a = .left) (fun n => n.y ≤ d.y) cfg.InRange
    ?_ ?_ ?_ hroute hs
  · intro n a m hn haway hhop ha
    exact (westFirst_safe h halgo hn hd haway (westFirst_hop h halgo hhop ha) hhop).2
  · intro n a m hn haway hsafe hhop
    exact westFirst_safe h halgo hn hd haway hsafe hhop
  · intro n a m hn haway hhop
    exact (hop_mesh h (by rw [halgo]; rfl) hn hd haway hhop).2.2

/-- The channels of `WESTFIRST` in the order in which routes use them: those to the left
from right to left, then column by column those up, those down and those to the right. -/
def westFirstNumber (cfg : RouterConfig) (c : ID × Direction) : ℤ :=
  match c.2 with
  | .left => -(c.1.y : ℤ)
  | .up => (c.1.y : ℤ) * (cfg.numberOfRows + 1) + (cfg.numberOfRows - c.1.x)
  | .down => (c.1.y : ℤ) * (cfg.numberOfRows + 1) + c.1.x + 1
  | .right => (c.1.y : ℤ) * (cfg.numberOfRows + 1) + cfg.numberOfRows + 1

theorem westFirstNumber_lt (h : cfg.topology = .mesh) (halgo : cfg.rAlgo = .westFirst)
    {k : ID} (hn : cfg.InRange n) (hd : cfg.InRange d) (hnd : n ≠ d) (hmd : m ≠ d)
    (hfirst : cfg.Hop d n a (some m)) (hsecond : cfg.Hop d m b (some k)) :
    cfg.westFirstNumber (n, a) < cfg.westFirstNumber (m, b) := by
  have hgrid : cfg.rAlgo.routesGrid = true := by
    rw [halgo]
    rfl
  obtain ⟨htowards, hto, hm⟩ := hop_mesh h hgrid hn hd hnd hfirst
  obtain ⟨htowards', -, -⟩ := hop_mesh h hgrid hm hd hmd hsecond
  have hx : n.x < cfg.numberOfRows := hn.1
  have hmx : m.x < cfg.numberOfRows := hm.1
  -- the rows of one column are numbered before those of the next
  have hcolumn : ((n.y : ℤ) + 1) * (cfg.numberOfRows + 1) =
      (n.y : ℤ) * (cfg.numberOfRows + 1) + cfg.numberOfRows + 1 := by
    rw [Int.add_mul, Int.one_mul, Int.add_assoc]
  have hcolumns : (0 : ℤ) ≤ (m.y : ℤ) * (cfg.numberOfRows + 1) :=
    Int.mul_nonneg (by omega) (by omega)
  have hright : a = .right → (m.y : ℤ) = n.y + 1 := by
    intro ha
    rw [ha] at hto
    have := hto.2
    omega
  have hturn : b = .left → a = .left := by
    intro hb
    by_contra ha
    have hleave := (westFirst_safe h halgo hn hd hnd (westFirst_hop h halgo hfirst ha) hfirst).2
    exact (westFirst_safe h halgo hm hd hmd hleave hsecond).1 hb
  unfold westFirstNumber
  cases a with
  | left =>
    have := hto.2
    cases b <;> dsimp only <;> omega
  | up =>
    obtain ⟨hx', hy'⟩ := hto
    cases b with
    | left => exact absurd (hturn rfl) Direction.noConfusion
    | down =>
      simp only [Towards] at htowards htowards'
      omega
    | up =>
      dsimp only
      rw [hy']
      omega
    | right =>
      dsimp only
      rw [hy']
      omega
  | down =>
    obtain ⟨hx', hy'⟩ := hto
    cases b with
    | left => exact absurd (hturn rfl) Direction.noConfusion
    | up =>
      simp only [Towards] at htowards htowards'
      omega
    | down =>
      dsimp only
      rw [hy']
      omega
    | right =>
      dsimp only
      rw [hy']
      omega
  | right =>
    have hy' := hright rfl
    cases b with
    | left => exact absurd (hturn rfl) Direction.noConfusion
    | up =>
      dsimp only
      rw [hy', hcolumn]
      omega
    | down =>
      dsimp only
      rw [hy', hcolumn]
      omega
    | right =>
      dsimp only
      rw [hy', hcolumn]
      omega

/-! ### Negative first -/

/-- The hops that `NEGATIVEFIRST` makes first. -/
def IsNegative (a : Direction) : Prop := a = .left ∨ a = .down

/-- A hop up or to the right of `NEGATIVEFIRST` has no destination further left or down. -/
theorem negativeFirst_hop (h : cfg.topology = .mesh) (halgo : cfg.rAlgo = .negativeFirst)
    (hn : cfg.InRange n) (hd : cfg.InRange d) (haway : n ≠ d)
    (hhop : cfg.Hop d n a (some m)) (ha : ¬ IsNegative a) : n.y ≤ d.y ∧ d.x ≤ n.x := by
  obtain ⟨htowards, -, -⟩ := hop_mesh h (by rw [halgo]; rfl) hn hd haway hhop
  cases a with
  | left => exact absurd (Or.inl rfl) ha
  | down => exact absurd (Or.inr rfl) ha
  | up =>
    refine ⟨?_, Nat.le_of_lt htowards⟩
    by_contra hwest
    have hleft := negativeFirst_choices_left h halgo (Nat.not_le.mp hwest) htowards
    cases eq_of_choices hhop hleft
  | right =>
    refine ⟨Nat.le_of_lt htowards, ?_⟩
    by_contra hdown
    have hchoices := negativeFirst_choices_down h halgo htowards (Nat.not_le.mp hdown)
    cases eq_of_choices hhop hchoices

theorem negativeFirst_safe (h : cfg.topology = .mesh) (halgo : cfg.rAlgo = .negativeFirst)
    (hn : cfg.InRange n) (hd : cfg.InRange d) (haway : n ≠ d)
    (hsafe : n.y ≤ d.y ∧ d.x ≤ n.x) (hhop : cfg.Hop d n a (some m)) :
    ¬ IsNegative a ∧ (m.y ≤ d.y ∧ d.x ≤ m.x) := by
  obtain ⟨htowards, hto, -⟩ := hop_mesh h (by rw [halgo]; rfl) hn hd haway hhop
  have hnegative : ¬ IsNegative a := by
    intro ha
    rcases ha with rfl | rfl
    · exact absurd htowards (Nat.not_lt.mpr hsafe.1)
    · exact absurd htowards (Nat.not_lt.mpr hsafe.2)
  refine ⟨hnegative, ?_⟩
  cases a with
  | left => exact absurd (Or.inl rfl) hnegative
  | down => exact absurd (Or.inr rfl) hnegative
  | up =>
    simp only [Towards, HopsTo] at htowards hto
    omega
  | right =>
    simp only [Towards, HopsTo] at htowards hto
    omega

theorem negativeFirst_pairwise (h : cfg.topology = .mesh) (halgo : cfg.rAlgo = .negativeFirst)
    {s e : ID} {dirs : List Direction} (hs : cfg.InRange s) (hd : cfg.InRange d)
    (hroute : Route (cfg.Hop d) d s dirs e) :
    dirs.Pairwise (fun a b => IsNegative b → IsNegative a) := by
  refine Route.pairwise IsNegative (fun n => n.y ≤ d.y ∧ d.x ≤ n.x) cfg.InRange
    ?_ ?_ ?_ hroute hs
  · intro n a m hn haway hhop ha
    have hsafe := negativeFirst_hop h halgo hn hd haway hhop ha
    exact (negativeFirst_safe h halgo hn hd haway hsafe hhop).2
  · intro n a m hn haway hsafe hhop
    exact negativeFirst_safe h halgo hn hd haway hsafe hhop
  · intro n a m hn haway hhop
    exact (hop_mesh h (by rw [halgo]; rfl) hn hd haway hhop).2.2

/-- The channels of `NEGATIVEFIRST` in the order in which routes use them. -/
def negativeFirstNumber (cfg : RouterConfig) (c : ID × Direction) : ℤ :=
  match c.2 with
  | .left => (c.1.x : ℤ) - c.1.y
  | .down => (c.1.x : ℤ) - c.1.y
  | .up => (c.1.y : ℤ) - c.1.x + (2 * (cfg.numberOfRows + cfg.numberOfColumns) + 1)
  | .right => (c.1.y : ℤ) - c.1.x + (2 * (cfg.numberOfRows + cfg.numberOfColumns) + 1)

theorem negativeFirstNumber_lt (h : cfg.topology = .mesh) (halgo : cfg.rAlgo = .negativeFirst)
    {k : ID} (hn : cfg.InRange n) (hd : cfg.InRange d) (hnd : n ≠ d) (hmd : m ≠ d)
    (hfirst : cfg.Hop d n a (some m)) (hsecond : cfg.Hop d m b (some k)) :
    cfg.negativeFirstNumber (n, a) < cfg.negativeFirstNumber (m, b) := by
  obtain ⟨-, hto, hm⟩ := hop_mesh h (by rw [halgo]; rfl) hn hd hnd hfirst
  have hnx := hn.1
  have hmx := hm.1
  have hturn : IsNegative b → IsNegative a := by
    intro hb
    by_contra ha
    have hsafe := negativeFirst_hop h halgo hn hd hnd hfirst ha
    have hleave := (negativeFirst_safe h halgo hn hd hnd hsafe hfirst).2
    exact (negativeFirst_safe h halgo hm hd hmd hleave hsecond).1 hb
  unfold negativeFirstNumber
  unfold HopsTo at hto
  cases a with
  | left | down => cases b <;> dsimp only at hto ⊢ <;> omega
  | up | right =>
    cases b with
    | left => rcases hturn (Or.inl rfl) with h | h <;> cases h
    | down => rcases hturn (Or.inr rfl) with h | h <;> cases h
    | _ =>
      dsimp only at hto ⊢
      omega

/-! ### Deadlock freedom -/

/-- A numbering that grows from each channel of a route to the next leaves the dependency
of channels without a cycle. -/
theorem acyclic_of_number (h : cfg.topology = .mesh) (halgo : cfg.rAlgo.routesGrid = true)
    (number : ID × Direction → ℤ)
    (hgrows : ∀ {n m k d : ID} {a b : Direction}, cfg.InRange n → cfg.InRange d → n ≠ d → m ≠ d →
      cfg.Hop d n a (some m) → cfg.Hop d m b (some k) → number (n, a) < number (m, b))
    (c : ID × Direction) :
    ¬ Relation.TransGen (Depends cfg.Hop cfg.InRange) c c := by
  refine acyclic_of_rank number ?_ c
  intro c₁ c₂ hdepends
  obtain ⟨s, d, dirs, hs, hd, hroute, hc₁, hfirst, hc₂, k, hsecond⟩ := hdepends
  have hrange : cfg.InRange c₁.1 := by
    refine hroute.stays_legal ?_ hs
    intro n a m hn haway hhop
    exact (hop_mesh h halgo hn hd haway hhop).2.2
  exact hgrows hrange hd hc₁ hc₂ hfirst hsecond

/-- **The turn models hold on the mesh.** A route of `WESTFIRST` never goes left after
another hop, a route of `NEGATIVEFIRST` never goes left or down after a hop up or to the
right, and under either of them the channels that routes use one after the other form no
cycle. -/
theorem turns_restricted (cfg : RouterConfig) (hmesh : cfg.topology = .mesh) :
    (cfg.rAlgo = .westFirst →
      (∀ s d e dirs, cfg.InRange s → cfg.InRange d → Route (cfg.Hop d) d s dirs e →
        dirs.Pairwise (fun a b => b = .left → a = .left)) ∧
      ∀ c, ¬ Relation.TransGen (Depends cfg.Hop cfg.InRange) c c) ∧
    (cfg.rAlgo = .negativeFirst →
      (∀ s d e dirs, cfg.InRange s → cfg.InRange d → Route (cfg.Hop d) d s dirs e →
        dirs.Pairwise (fun a b => b = .left ∨ b = .down → ¬ (a = .up ∨ a = .right))) ∧
      ∀ c, ¬ Relation.TransGen (Depends cfg.Hop cfg.InRange) c c) := by
  constructor
  · intro halgo
    have hgrid : cfg.rAlgo.routesGrid = true := by
      rw [halgo]
      rfl
    constructor
    · intro s d e dirs hs hd hroute
      exact westFirst_pairwise hmesh halgo hs hd hroute
    · exact acyclic_of_number hmesh hgrid cfg.westFirstNumber (westFirstNumber_lt hmesh halgo)
  · intro halgo
    have hgrid : cfg.rAlgo.routesGrid = true := by
      rw [halgo]
      rfl
    constructor
    · intro s d e dirs hs hd hroute
      refine (negativeFirst_pairwise hmesh halgo hs hd hroute).imp ?_
      intro a b hturn hb
      rcases hturn hb with rfl | rfl <;> simp
    · exact acyclic_of_number hmesh hgrid cfg.negativeFirstNumber
        (negativeFirstNumber_lt hmesh halgo)

/-- A mesh of three rows and four columns with `NEGATIVEFIRST`. -/
theorem turns_restricted_mesh :
    let cfg : RouterConfig := ⟨.mesh, .negativeFirst, some .adaptive, 3, 4, 8⟩
    (cfg.rAlgo = .westFirst →
      (∀ s d e dirs, cfg.InRange s → cfg.InRange d → Route (cfg.Hop d) d s dirs e →
        dirs.Pairwise (fun a b => b = .left → a = .left)) ∧
      ∀ c, ¬ Relation.TransGen (Depends cfg.Hop cfg.InRange) c c) ∧
    (cfg.rAlgo = .negativeFirst →
      (∀ s d e dirs, cfg.InRange s → cfg.InRange d → Route (cfg.Hop d) d s dirs e →
        dirs.Pairwise (fun a b => b = .left ∨ b = .down → ¬ (a = .up ∨ a = .right))) ∧
      ∀ c, ¬ Relation.TransGen (Depends cfg.Hop cfg.InRange) c c) :=
  turns_restricted _ rfl

/-! ### North last -/

/-- No hop but up after a hop up, whatever buffers are free. -/
def NorthLast (cfg : RouterConfig) (s d : ID) : Prop :=
  ∀ e dirs, Route (cfg.Hop d) d s dirs e → dirs.Pairwise (fun a b => a = .up → b = .up)

/-- The destination is not further up and further right. -/
def NotUpRight (n d : ID) : Prop := ¬ (d.x < n.x ∧ n.y < d.y)

theorem notUpRight_hop (htowards : Towards n d a) (hto : HopsTo n m a) (hn : NotUpRight n d) :
    NotUpRight m d := by
  unfold NotUpRight at hn ⊢
  unfold Towards at htowards
  unfold HopsTo at hto
  cases a <;> dsimp only at htowards hto <;> omega

/-- A hop up of `NORTHLAST` towards such a destination has it in the same column. -/
theorem northLast_hop_up (h : cfg.topology = .mesh) (halgo : cfg.rAlgo = .northLast)
    (hn : NotUpRight n d) (htowards : Towards n d a) (hhop : cfg.Hop d n a (some m))
    (ha : a = .up) : n.y = d.y := by
  rw [ha] at htowards
  by_contra hne
  have hwest : d.y < n.y := by
    unfold NotUpRight at hn
    unfold Towards at htowards
    omega
  rw [eq_of_choices hhop (northLast_choices_left h halgo hwest htowards)] at ha
  cases ha

theorem northLast_of_notUpRight (h : cfg.topology = .mesh) (halgo : cfg.rAlgo = .northLast)
    {s : ID} (hs : cfg.InRange s) (hd : cfg.InRange d) (hright : NotUpRight s d) :
    cfg.NorthLast s d := by
  have hgrid : cfg.rAlgo.routesGrid = true := by
    rw [halgo]
    rfl
  intro e dirs hroute
  have hpairwise := Route.pairwise (fun a => a ≠ .up)
    (fun n => n.y = d.y ∧ d.x ≤ n.x) (fun n => cfg.InRange n ∧ NotUpRight n d)
    ?_ ?_ ?_ hroute ⟨hs, hright⟩
  · refine hpairwise.imp ?_
    intro a b hturn ha
    by_contra hb
    exact hturn hb ha
  · intro n a m hn haway hhop ha
    have hup : a = .up := by_contra ha
    obtain ⟨htowards, hto, -⟩ := hop_mesh h hgrid hn.1 hd haway hhop
    have hcolumn := northLast_hop_up h halgo hn.2 htowards hhop hup
    rw [hup] at htowards hto
    simp only [Towards, HopsTo] at htowards hto
    omega
  · intro n a m hn haway hsafe hhop
    obtain ⟨htowards, hto, -⟩ := hop_mesh h hgrid hn.1 hd haway hhop
    unfold Towards at htowards
    unfold HopsTo at hto
    cases a with
    | up =>
      dsimp only at htowards hto
      exact ⟨fun hne => hne rfl, by omega⟩
    | _ =>
      dsimp only at htowards
      omega
  · intro n a m hn haway hhop
    obtain ⟨htowards, hto, hm⟩ := hop_mesh h hgrid hn.1 hd haway hhop
    exact ⟨hm, notUpRight_hop htowards hto hn.2⟩

/-- With the destination further up and right, the way up can be selected. -/
theorem hop_up (h : cfg.topology = .mesh) (halgo : cfg.rAlgo = .northLast)
    (hd : cfg.InRange d) (hup : d.x < n.x) (heast : n.y < d.y) :
    cfg.Hop d n .up (some ⟨n.x - 1, n.y⟩) := by
  have hchoices := northLast_choices_right h halgo heast hup
  have hnorth : cfg.neighbour n .up = some ⟨n.x - 1, n.y⟩ := by
    unfold neighbour
    rw [h]
    exact if_neg (by omega)
  have heast' : cfg.neighbour n .right = some ⟨n.x, n.y + 1⟩ := by
    unfold neighbour
    rw [h]
    exact if_neg (by have := hd.2; omega)
  -- the router above has more free buffers than the one to the right
  refine ⟨fun e => if e = ⟨n.x - 1, n.y⟩ then 1 else 0, ?_⟩
  have hselect : cfg.routeComputation (fun e => if e = ⟨n.x - 1, n.y⟩ then 1 else 0) n d =
      some .up := by
    unfold routeComputation
    rw [hchoices]
    dsimp only
    rw [hnorth, heast']
    split
    · simp
    · rfl
  rw [hselect]
  exact ⟨rfl, hnorth.symm⟩

/-- In the row of the destination the way to the right is the only one. -/
theorem hop_right (h : cfg.topology = .mesh) (halgo : cfg.rAlgo = .northLast)
    (hd : cfg.InRange d) (hrow : n.x = d.x) (heast : n.y < d.y) :
    cfg.Hop d n .right (some ⟨n.x, n.y + 1⟩) := by
  have hchoices : cfg.choices n d = [.right] := by
    unfold choices RoutingAlgo.northLastNextBank
    rw [halgo, h]
    dsimp only
    rw [if_neg (by omega)]
    simp only [RoutingAlgo.xyNextBank, reduceCtorEq, if_false, RoutingAlgo.verticalChoices,
      RoutingAlgo.horizontalChoices, false_and]
    rw [if_neg (by omega), if_neg (by omega), if_pos heast]
    rfl
  have heast' : cfg.neighbour n .right = some ⟨n.x, n.y + 1⟩ := by
    unfold neighbour
    rw [h]
    exact if_neg (by have := hd.2; omega)
  refine ⟨fun _ => 0, ?_⟩
  have hselect : cfg.routeComputation (fun _ => 0) n d = some .right := by
    unfold routeComputation
    rw [hchoices]
  rw [hselect]
  exact ⟨rfl, heast'.symm⟩

/-- Towards such a destination there is a route that goes up all the way and then right. -/
theorem up_then_right (h : cfg.topology = .mesh) (halgo : cfg.rAlgo = .northLast)
    (hd : cfg.InRange d) (k : ℕ) (hn : cfg.InRange n) (hx : n.x = d.x + k) (heast : n.y < d.y) :
    ∃ e, Route (cfg.Hop d) d n (List.replicate k .up ++ [.right]) e := by
  have haway : n ≠ d := by
    intro heq
    rw [heq] at heast
    omega
  induction k generalizing n with
  | zero => exact ⟨_, .cons haway (hop_right h halgo hd hx heast) .nil⟩
  | succ k ih =>
    have hmx : (⟨n.x - 1, n.y⟩ : ID).x = d.x + k := by
      dsimp only
      omega
    have hm : cfg.InRange ⟨n.x - 1, n.y⟩ := by
      refine ⟨?_, hn.2⟩
      have := hn.1
      dsimp only
      omega
    have haway' : (⟨n.x - 1, n.y⟩ : ID) ≠ d := by
      intro heq
      rw [← heq] at heast
      exact absurd heast (Nat.lt_irrefl _)
    obtain ⟨e, he⟩ := ih hm hmx heast haway'
    exact ⟨e, .cons haway (hop_up h halgo hd (by omega) heast) he⟩

/-- **When `NORTHLAST` keeps its rule.** On the mesh no route from a source to a destination
leaves the way up again, whatever is selected, if and only if the destination is not
further up and further right. -/
theorem northLast_iff (cfg : RouterConfig) (hmesh : cfg.topology = .mesh)
    (halgo : cfg.rAlgo = .northLast) (source destination : ID) (hs : cfg.InRange source)
    (hd : cfg.InRange destination) :
    cfg.NorthLast source destination ↔
      ¬ (destination.x < source.x ∧ source.y < destination.y) := by
  constructor
  · intro hlast hupRight
    obtain ⟨hup, heast⟩ := hupRight
    obtain ⟨e, hroute⟩ := up_then_right hmesh halgo hd (source.x - destination.x) hs (by omega)
      heast
    have hpairwise := (List.pairwise_append.mp (hlast e _ hroute)).2.2
    have hmem : Direction.up ∈ List.replicate (source.x - destination.x) Direction.up :=
      List.mem_replicate.mpr ⟨by omega, rfl⟩
    cases hpairwise _ hmem .right List.mem_cons_self rfl
  · exact northLast_of_notUpRight hmesh halgo hs hd

/-- A mesh of three rows and columns, with a destination further up and left. -/
theorem northLast_upLeft :
    let cfg : RouterConfig := ⟨.mesh, .northLast, none, 3, 3, 8⟩
    cfg.NorthLast ⟨2, 2⟩ ⟨0, 0⟩ ↔ ¬ ((0 : ℕ) < 2 ∧ (2 : ℕ) < 0) :=
  northLast_iff _ rfl rfl ⟨2, 2⟩ ⟨0, 0⟩ ⟨by decide, by decide⟩ ⟨by decide, by decide⟩

/-- On a mesh of two rows and columns, from the lower left to the upper right, the static
selection goes up and then right. -/
theorem northLast_turns_right :
    ¬ (RouterConfig.mk .mesh .northLast (some .static) 2 2 8).NorthLast ⟨1, 0⟩ ⟨0, 1⟩ := by
  intro hlast
  have hroute : Route ((RouterConfig.mk .mesh .northLast (some .static) 2 2 8).Hop ⟨0, 1⟩)
      ⟨0, 1⟩ ⟨1, 0⟩ [.up, .right] ⟨0, 1⟩ := by
    refine .cons (by decide) ⟨fun _ => 0, rfl, rfl⟩ ?_
    exact .cons (by decide) ⟨fun _ => 0, rfl, rfl⟩ .nil
  have hpairwise := hlast _ _ hroute
  rw [List.pairwise_cons] at hpairwise
  cases hpairwise.1 .right List.mem_cons_self rfl

end Tejas.RouterConfig
