import Tejas.NocRouting

/-!
# Routes end at their destination

On the mesh every algorithm chooses hops towards the destination. On the torus they go
the shorter way round, except that `NORTHLAST` may go the longer way to the left: there
it settles the column before the row as soon as the destination is further up.
-/

namespace Tejas
open AdaptiveRouting

/-- Four of the algorithms route on the mesh and the torus. -/
def RoutingAlgo.routesGrid : RoutingAlgo → Bool
  | .simple => true
  | .westFirst => true
  | .northLast => true
  | .negativeFirst => true
  | _ => false

namespace RouterConfig

variable {cfg : RouterConfig} {current destination next e : ID} {dir : Direction}
  {P : ID → Prop} {n a b : ℕ} {t : Topology}

/-! ### The selection -/

theorem routeComputation_mem {availBuff : ID → ℤ}
    (h : cfg.routeComputation availBuff current destination = some dir) :
    dir ∈ cfg.choices current destination := by
  unfold routeComputation at h
  split at h
  · rename_i first second rest hchoices
    rw [hchoices]
    split at h
    · split at h
      · cases h
        split
        · exact List.mem_cons_self
        · exact List.mem_cons_of_mem _ List.mem_cons_self
      · cases h
    · cases h
      exact List.mem_cons_self
  · rename_i first hchoices
    cases h
    rw [hchoices]
    exact List.mem_cons_self
  · cases h

theorem routeComputation_isSome (availBuff : ID → ℤ)
    (hchoices : cfg.choices current destination ≠ [])
    (hwired : ∀ dir ∈ cfg.choices current destination, ∃ m, cfg.neighbour current dir = some m) :
    ∃ dir, cfg.routeComputation availBuff current destination = some dir := by
  unfold routeComputation
  cases hc : cfg.choices current destination with
  | nil => exact absurd hc hchoices
  | cons first rest =>
    cases rest with
    | nil => exact ⟨first, rfl⟩
    | cons second rest =>
      rw [hc] at hwired
      obtain ⟨m, hm⟩ := hwired first List.mem_cons_self
      obtain ⟨k, hk⟩ := hwired second (List.mem_cons_of_mem _ List.mem_cons_self)
      dsimp only
      split
      · rw [hm, hk]
        exact ⟨_, rfl⟩
      · exact ⟨first, rfl⟩

theorem Hop.mem (h : cfg.Hop destination current dir (some next)) :
    dir ∈ cfg.choices current destination ∧ cfg.neighbour current dir = some next := by
  obtain ⟨availBuff, h⟩ := h
  split at h
  · rename_i chosen hchosen
    rw [h.1]
    exact ⟨routeComputation_mem hchosen, h.2.symm⟩
  · cases h

/-- Choices that all lead to a neighbour make a step, whichever is selected. -/
theorem steps_of_choices (hchoices : cfg.choices current destination ≠ [])
    (hwired : ∀ dir ∈ cfg.choices current destination,
      ∃ m, cfg.neighbour current dir = some m ∧ P m) :
    Steps (cfg.Hop destination) current P := by
  have hexists : ∀ dir ∈ cfg.choices current destination,
      ∃ m, cfg.neighbour current dir = some m := by
    intro dir hdir
    obtain ⟨m, hm, -⟩ := hwired dir hdir
    exact ⟨m, hm⟩
  constructor
  case available =>
    obtain ⟨dir, hdir⟩ := routeComputation_isSome (fun _ => 0) hchoices hexists
    refine ⟨dir, cfg.neighbour current dir, fun _ => 0, ?_⟩
    rw [hdir]
    exact ⟨rfl, rfl⟩
  case wired =>
    intro dir h
    obtain ⟨availBuff, h⟩ := h
    obtain ⟨chosen, hchosen⟩ := routeComputation_isSome availBuff hchoices hexists
    rw [hchosen] at h
    obtain ⟨m, hm⟩ := hexists chosen (routeComputation_mem hchosen)
    dsimp only at h
    rw [hm] at h
    cases h.2
  case next =>
    intro dir m h
    obtain ⟨hmem, hm⟩ := h.mem
    obtain ⟨m', hm', hP⟩ := hwired dir hmem
    rw [hm] at hm'
    cases hm'
    exact hP

/-! ### The shorter way -/

/-- The way from `a` to `b` goes down the coordinates. -/
def Descends (topology : Topology) (n a b : ℕ) : Prop :=
  b < a ∧ ¬ (topology = .torus ∧ a - b > n / 2) ∨ a < b ∧ topology = .torus ∧ b - a > n / 2

/-- The way from `a` to `b` goes up the coordinates. -/
def Ascends (topology : Topology) (n a b : ℕ) : Prop :=
  a < b ∧ ¬ (topology = .torus ∧ b - a > n / 2) ∨ b < a ∧ topology = .torus ∧ a - b > n / 2

/-- The direction goes the shorter way. -/
def Minimal (cfg : RouterConfig) (current destination : ID) : Direction → Prop
  | .up => Descends cfg.topology cfg.numberOfRows current.x destination.x
  | .down => Ascends cfg.topology cfg.numberOfRows current.x destination.x
  | .left => Descends cfg.topology cfg.numberOfColumns current.y destination.y
  | .right => Ascends cfg.topology cfg.numberOfColumns current.y destination.y

theorem mem_verticalChoices :
    dir ∈ RoutingAlgo.verticalChoices t n a b ↔
      dir = .up ∧ Descends t n a b ∨ dir = .down ∧ Ascends t n a b := by
  unfold RoutingAlgo.verticalChoices Descends Ascends
  split
  · split
    · rename_i hlt hfar
      simp only [List.mem_singleton, hfar, hlt]
      grind
    · rename_i hlt hnear
      simp only [List.mem_singleton, hlt]
      grind
  · split
    · split
      · rename_i hge hlt hfar
        simp only [List.mem_singleton]
        grind
      · rename_i hge hlt hnear
        simp only [List.mem_singleton]
        grind
    · rename_i hge hle
      simp only [List.not_mem_nil, false_iff]
      grind

theorem mem_horizontalChoices :
    dir ∈ RoutingAlgo.horizontalChoices t n a b ↔
      dir = .left ∧ Descends t n a b ∨ dir = .right ∧ Ascends t n a b := by
  unfold RoutingAlgo.horizontalChoices Descends Ascends
  split
  · split
    · simp only [List.mem_singleton]
      grind
    · simp only [List.mem_singleton]
      grind
  · split
    · split
      · simp only [List.mem_singleton]
        grind
      · simp only [List.mem_singleton]
        grind
    · simp only [List.not_mem_nil, false_iff]
      grind

/-- Away from `b` there is a shorter way. -/
theorem descends_or_ascends (h : a ≠ b) : Descends t n a b ∨ Ascends t n a b := by
  unfold Descends Ascends
  rcases Nat.lt_or_gt_of_ne h with hlt | hgt
  · by_cases hfar : t = .torus ∧ b - a > n / 2
    · exact Or.inl (Or.inr ⟨hlt, hfar⟩)
    · exact Or.inr (Or.inl ⟨hlt, hfar⟩)
  · by_cases hfar : t = .torus ∧ a - b > n / 2
    · exact Or.inr (Or.inr ⟨hgt, hfar⟩)
    · exact Or.inl (Or.inl ⟨hgt, hfar⟩)

theorem not_descends_self : ¬ Descends t n a a := by
  unfold Descends
  omega

theorem not_ascends_self : ¬ Ascends t n a a := by
  unfold Ascends
  omega

/-! ### The choices of the algorithms -/

/-- The mesh and the torus. -/
def IsGrid (cfg : RouterConfig) : Prop := cfg.topology = .mesh ∨ cfg.topology = .torus

theorem IsGrid.xyNextBank (h : cfg.IsGrid) :
    RoutingAlgo.xyNextBank current destination cfg.topology cfg.numberOfRows
        cfg.numberOfColumns =
      RoutingAlgo.verticalChoices cfg.topology cfg.numberOfRows current.x destination.x ++
        RoutingAlgo.horizontalChoices cfg.topology cfg.numberOfColumns current.y
          destination.y := by
  unfold RoutingAlgo.xyNextBank
  rcases h with h | h
  · rw [h]
    rfl
  · rw [h]
    rfl

theorem IsGrid.mem_xyNextBank (h : cfg.IsGrid) :
    dir ∈ RoutingAlgo.xyNextBank current destination cfg.topology cfg.numberOfRows
        cfg.numberOfColumns ↔ cfg.Minimal current destination dir := by
  rw [h.xyNextBank, List.mem_append, mem_verticalChoices, mem_horizontalChoices]
  cases dir <;> simp [Minimal]

/-- The choices are not empty and each of them goes the shorter way. -/
def ChoosesMinimal (cfg : RouterConfig) (current destination : ID)
    (choices : List Direction) : Prop :=
  choices ≠ [] ∧ ∀ dir ∈ choices, cfg.Minimal current destination dir

theorem IsGrid.xy_minimal (h : cfg.IsGrid) (haway : current ≠ destination) :
    cfg.ChoosesMinimal current destination (RoutingAlgo.xyNextBank current destination
      cfg.topology cfg.numberOfRows cfg.numberOfColumns) := by
  refine ⟨?_, fun dir hdir => h.mem_xyNextBank.mp hdir⟩
  have hsome : ∃ dir, cfg.Minimal current destination dir := by
    by_cases hx : current.x = destination.x
    · have hy : current.y ≠ destination.y := fun hy => haway (ID.ext hx hy)
      rcases descends_or_ascends (t := cfg.topology) (n := cfg.numberOfColumns) hy with
        hleft | hright
      · exact ⟨.left, hleft⟩
      · exact ⟨.right, hright⟩
    · rcases descends_or_ascends (t := cfg.topology) (n := cfg.numberOfRows) hx with
        hup | hdown
      · exact ⟨.up, hup⟩
      · exact ⟨.down, hdown⟩
  obtain ⟨dir, hdir⟩ := hsome
  exact List.ne_nil_of_mem (h.mem_xyNextBank.mpr hdir)

theorem chooses_single (h : cfg.Minimal current destination dir) :
    cfg.ChoosesMinimal current destination [dir] := by
  refine ⟨List.cons_ne_nil _ _, ?_⟩
  intro dir' hdir
  rw [List.mem_singleton.mp hdir]
  exact h

theorem IsGrid.westFirst_minimal (h : cfg.IsGrid) (haway : current ≠ destination) :
    cfg.ChoosesMinimal current destination (RoutingAlgo.westFirstNextBank current destination
      cfg.topology cfg.numberOfRows cfg.numberOfColumns) := by
  unfold RoutingAlgo.westFirstNextBank
  split
  · rename_i hwest
    split
    · rename_i hfar
      exact chooses_single (Or.inr ⟨hwest, hfar⟩)
    · rename_i hnear
      exact chooses_single (Or.inl ⟨hwest, hnear⟩)
  · exact h.xy_minimal haway

theorem IsGrid.negativeFirst_minimal (h : cfg.IsGrid) (haway : current ≠ destination) :
    cfg.ChoosesMinimal current destination (RoutingAlgo.negativeFirstNextBank current
      destination cfg.topology cfg.numberOfRows cfg.numberOfColumns) := by
  unfold RoutingAlgo.negativeFirstNextBank
  split
  · rename_i hboth
    split
    · rename_i hfar
      exact chooses_single (Or.inr ⟨hboth.1, hfar⟩)
    · rename_i hnear
      exact chooses_single (Or.inl ⟨hboth.1, hnear⟩)
  · split
    · rename_i hboth
      split
      · rename_i hfar
        exact chooses_single (Or.inr ⟨hboth.2, hfar⟩)
      · rename_i hnear
        exact chooses_single (Or.inl ⟨hboth.2, hnear⟩)
    · exact h.xy_minimal haway

/-- On the mesh only the column further left is settled first. -/
theorem northLastChoices_mesh : RoutingAlgo.northLastChoices .mesh n a b =
    if b < a then [.left] else [] := by
  unfold RoutingAlgo.northLastChoices
  simp only [reduceCtorEq, if_false, true_and]
  split
  · rfl
  · rfl

theorem northLast_minimal (h : cfg.topology = .mesh) (haway : current ≠ destination) :
    cfg.ChoosesMinimal current destination (RoutingAlgo.northLastNextBank current
      destination cfg.topology cfg.numberOfRows cfg.numberOfColumns) := by
  have hxy := IsGrid.xy_minimal (Or.inl h) haway
  unfold RoutingAlgo.northLastNextBank
  split
  · have hchoices : RoutingAlgo.northLastChoices cfg.topology cfg.numberOfColumns current.y
        destination.y = if destination.y < current.y then [.left] else [] := by
      rw [h, northLastChoices_mesh]
    rw [hchoices]
    dsimp only
    by_cases hwest : destination.y < current.y
    · rw [if_pos hwest]
      refine chooses_single (Or.inl ⟨hwest, ?_⟩)
      intro hfar
      rw [h] at hfar
      cases hfar.1
    · rw [if_neg hwest]
      exact hxy
  · exact hxy

/-- Every algorithm chooses minimal hops, `NORTHLAST` on the torus apart. -/
theorem choices_minimal (hgrid : cfg.IsGrid) (halgo : cfg.rAlgo.routesGrid = true)
    (hnorth : cfg.rAlgo = .northLast → cfg.topology = .mesh) (haway : current ≠ destination) :
    cfg.ChoosesMinimal current destination (cfg.choices current destination) := by
  unfold choices
  split
  · exact hgrid.westFirst_minimal haway
  · rename_i heq
    exact northLast_minimal (hnorth heq) haway
  · exact hgrid.negativeFirst_minimal haway
  · exact hgrid.xy_minimal haway
  · rename_i hwest hnorthLast hnegative hsimple
    cases hr : cfg.rAlgo with
    | westFirst => exact absurd hr hwest
    | northLast => exact absurd hr hnorthLast
    | negativeFirst => exact absurd hr hnegative
    | simple => exact absurd hr hsimple
    | _ =>
      rw [hr] at halgo
      cases halgo

/-! ### The mesh -/

/-- The Manhattan distance. -/
def manhattan (e d : ID) : ℕ := ((e.x : ℤ) - d.x).natAbs + ((e.y : ℤ) - d.y).natAbs

theorem minimal_mesh (h : cfg.topology = .mesh) :
    cfg.Minimal current destination dir ↔ match dir with
      | .up => destination.x < current.x
      | .down => current.x < destination.x
      | .left => destination.y < current.y
      | .right => current.y < destination.y := by
  have hdescends : ∀ n a b, Descends cfg.topology n a b ↔ b < a := by
    intro n a b
    unfold Descends
    rw [h]
    simp
  have hascends : ∀ n a b, Ascends cfg.topology n a b ↔ a < b := by
    intro n a b
    unfold Ascends
    rw [h]
    simp
  cases dir with
  | up => exact hdescends _ _ _
  | down => exact hascends _ _ _
  | left => exact hdescends _ _ _
  | right => exact hascends _ _ _

/-- A minimal hop on the mesh finds a neighbour, one hop closer to the destination. -/
theorem minimal_mesh_hop (h : cfg.topology = .mesh) (hcurrent : cfg.InRange current)
    (hdestination : cfg.InRange destination) (hdir : cfg.Minimal current destination dir) :
    ∃ m, cfg.neighbour current dir = some m ∧ cfg.InRange m ∧
      manhattan m destination + 1 = manhattan current destination := by
  rw [minimal_mesh h] at hdir
  unfold neighbour
  rw [h]
  obtain ⟨hx, hy⟩ := hcurrent
  obtain ⟨hdx, hdy⟩ := hdestination
  unfold InRange manhattan
  cases dir with
  | up =>
    refine ⟨⟨current.x - 1, current.y⟩, if_neg (by omega), ⟨by dsimp only; omega, hy⟩, ?_⟩
    dsimp only at hdir ⊢
    omega
  | down =>
    refine ⟨⟨current.x + 1, current.y⟩, if_neg (by omega), ⟨by dsimp only; omega, hy⟩, ?_⟩
    dsimp only at hdir ⊢
    omega
  | left =>
    refine ⟨⟨current.x, current.y - 1⟩, if_neg (by omega), ⟨hx, by dsimp only; omega⟩, ?_⟩
    dsimp only at hdir ⊢
    omega
  | right =>
    refine ⟨⟨current.x, current.y + 1⟩, if_neg (by omega), ⟨hx, by dsimp only; omega⟩, ?_⟩
    dsimp only at hdir ⊢
    omega

theorem steps_mesh (h : cfg.topology = .mesh) (halgo : cfg.rAlgo.routesGrid = true)
    (hdestination : cfg.InRange destination) (hcurrent : cfg.InRange current)
    (haway : current ≠ destination) :
    Steps (cfg.Hop destination) current
      (fun m => cfg.InRange m ∧ manhattan m destination + 1 = manhattan current destination) := by
  obtain ⟨hne, hminimal⟩ := choices_minimal (Or.inl h) halgo (fun _ => h) haway
  exact steps_of_choices hne (fun dir hdir =>
    minimal_mesh_hop h hcurrent hdestination (hminimal dir hdir))

theorem arrives_mesh (h : cfg.topology = .mesh) (halgo : cfg.rAlgo.routesGrid = true)
    (hcurrent : cfg.InRange current) (hdestination : cfg.InRange destination) :
    ArrivesIn (cfg.Hop destination) destination (manhattan current destination) current := by
  refine arrivesIn_of_rank cfg.InRange (fun e => manhattan e destination)
    ?_ (fun e he haway => steps_mesh h halgo hdestination he haway) ?_ hcurrent
  · intro e _ hzero
    unfold manhattan at hzero
    exact ID.ext (by omega) (by omega)
  · simp [manhattan]

/-! ### The torus -/

/-- The length of the shorter way around. -/
def wrapDistance (n a b : ℕ) : ℕ :=
  if a ≤ b then if b - a > n / 2 then n - (b - a) else b - a
  else if a - b > n / 2 then n - (a - b) else a - b

/-- The coordinate before, around the torus. -/
def before (n a : ℕ) : ℕ := if a = 0 then n - 1 else a - 1

/-- The coordinate after, around the torus. -/
def after (n a : ℕ) : ℕ := if a + 1 = n then 0 else a + 1

theorem before_lt (ha : a < n) : before n a < n := by
  unfold before
  split <;> omega

theorem after_lt (ha : a < n) : after n a < n := by
  unfold after
  split <;> omega

theorem wrapDistance_before (ha : a < n) (hb : b < n) (h : Descends .torus n a b) :
    wrapDistance n (before n a) b + 1 = wrapDistance n a b := by
  simp only [Descends, true_and, Nat.not_lt] at h
  unfold wrapDistance before
  split_ifs <;> omega

theorem wrapDistance_after (ha : a < n) (hb : b < n) (h : Ascends .torus n a b) :
    wrapDistance n (after n a) b + 1 = wrapDistance n a b := by
  simp only [Ascends, true_and, Nat.not_lt] at h
  unfold wrapDistance after
  split_ifs <;> omega

theorem neighbour_torus (h : cfg.topology = .torus) (e : ID) : ∀ dir, cfg.neighbour e dir =
    some (match dir with
      | .up => ⟨before cfg.numberOfRows e.x, e.y⟩
      | .right => ⟨e.x, after cfg.numberOfColumns e.y⟩
      | .down => ⟨after cfg.numberOfRows e.x, e.y⟩
      | .left => ⟨e.x, before cfg.numberOfColumns e.y⟩) := by
  intro dir
  unfold neighbour
  rw [h]
  cases dir with
  | up =>
    dsimp only [Noc.connectNOCElementsTorus, before]
    split <;> rfl
  | right =>
    dsimp only [Noc.connectNOCElementsTorus, after]
    split <;> rfl
  | down =>
    dsimp only [Noc.connectNOCElementsTorus, after]
    split <;> rfl
  | left =>
    dsimp only [Noc.connectNOCElementsTorus, before]
    split <;> rfl

/-- The distance around the torus. -/
def torusDistance (cfg : RouterConfig) (e d : ID) : ℕ :=
  wrapDistance cfg.numberOfRows e.x d.x + wrapDistance cfg.numberOfColumns e.y d.y

/-- A minimal hop on the torus is one hop closer to the destination. -/
theorem minimal_torus_hop (h : cfg.topology = .torus) (hcurrent : cfg.InRange current)
    (hdestination : cfg.InRange destination) (hdir : cfg.Minimal current destination dir) :
    ∃ m, cfg.neighbour current dir = some m ∧ cfg.InRange m ∧
      cfg.torusDistance m destination < cfg.torusDistance current destination := by
  refine ⟨_, neighbour_torus h current dir, ?_⟩
  obtain ⟨hx, hy⟩ := hcurrent
  obtain ⟨hdx, hdy⟩ := hdestination
  unfold InRange torusDistance
  cases dir with
  | up =>
    have hcloser := wrapDistance_before hx hdx (h ▸ hdir)
    exact ⟨⟨before_lt hx, hy⟩, by dsimp only; omega⟩
  | down =>
    have hcloser := wrapDistance_after hx hdx (h ▸ hdir)
    exact ⟨⟨after_lt hx, hy⟩, by dsimp only; omega⟩
  | left =>
    have hcloser := wrapDistance_before hy hdy (h ▸ hdir)
    exact ⟨⟨hx, before_lt hy⟩, by dsimp only; omega⟩
  | right =>
    have hcloser := wrapDistance_after hy hdy (h ▸ hdir)
    exact ⟨⟨hx, after_lt hy⟩, by dsimp only; omega⟩

theorem steps_torus (h : cfg.topology = .torus) (halgo : cfg.rAlgo.routesGrid = true)
    (hnorth : cfg.rAlgo ≠ .northLast) (hdestination : cfg.InRange destination)
    (hcurrent : cfg.InRange current) (haway : current ≠ destination) :
    Steps (cfg.Hop destination) current (fun m => cfg.InRange m ∧
      cfg.torusDistance m destination < cfg.torusDistance current destination) := by
  obtain ⟨hne, hminimal⟩ := choices_minimal (Or.inr h) halgo (fun hr => absurd hr hnorth) haway
  exact steps_of_choices hne (fun dir hdir =>
    minimal_torus_hop h hcurrent hdestination (hminimal dir hdir))

/-! ### `NORTHLAST` on the torus -/

/-- The hops that `NORTHLAST` makes along a row whose destination is further up: it turns
right only when that is the shorter way, and else goes left. -/
def northLastHops (n a b : ℕ) : ℕ :=
  if a < b then if b - a > n / 2 then n - (b - a) else b - a else a - b

theorem northLastHops_le (ha : a < n) (hb : b < n) : northLastHops n a b ≤ n := by
  unfold northLastHops
  split_ifs <;> omega

theorem northLastChoices_torus (h : a ≠ b) : RoutingAlgo.northLastChoices .torus n a b =
    if a < b ∧ ¬ b - a > n / 2 then [.right] else [.left] := by
  unfold RoutingAlgo.northLastChoices
  rw [if_pos rfl]
  split_ifs <;> first | rfl | omega

theorem northLastChoices_torus_self : RoutingAlgo.northLastChoices .torus n a a = [] := by
  unfold RoutingAlgo.northLastChoices
  simp

theorem northLastHops_after (hb : b < n) (h : a < b ∧ ¬ b - a > n / 2) :
    northLastHops n (after n a) b + 1 = northLastHops n a b := by
  unfold northLastHops after
  split_ifs <;> omega

theorem northLastHops_before (ha : a < n) (hb : b < n) (hne : a ≠ b)
    (h : ¬ (a < b ∧ ¬ b - a > n / 2)) :
    northLastHops n (before n a) b + 1 = northLastHops n a b := by
  unfold northLastHops before
  split_ifs <;> omega

/-- The rank of `NORTHLAST` on the torus. A vertical hop may put the destination further
up, and with that the longer way to the left in the place of the shorter one. -/
def northLastRank (cfg : RouterConfig) (e d : ID) : ℕ :=
  wrapDistance cfg.numberOfRows e.x d.x +
    if e.y = d.y then 0
    else if d.x < e.x then northLastHops cfg.numberOfColumns e.y d.y
    else wrapDistance cfg.numberOfColumns e.y d.y + cfg.numberOfColumns

/-- A hop along the row with the destination further up. -/
theorem northLast_row_hop (h : cfg.topology = .torus) (hcurrent : cfg.InRange current)
    (hdestination : cfg.InRange destination) (hup : destination.x < current.x)
    (hne : current.y ≠ destination.y)
    (hdir : dir ∈ RoutingAlgo.northLastChoices .torus cfg.numberOfColumns current.y
      destination.y) :
    ∃ m, cfg.neighbour current dir = some m ∧ cfg.InRange m ∧
      cfg.northLastRank m destination < cfg.northLastRank current destination := by
  obtain ⟨hx, hy⟩ := hcurrent
  obtain ⟨hdx, hdy⟩ := hdestination
  rw [northLastChoices_torus hne] at hdir
  refine ⟨_, neighbour_torus h current dir, ?_⟩
  unfold InRange northLastRank
  rw [if_neg hne, if_pos hup]
  split at hdir
  · rename_i hright
    cases List.mem_singleton.mp hdir
    have hcloser := northLastHops_after hdy hright
    dsimp only
    rw [if_pos hup]
    refine ⟨⟨hx, after_lt hy⟩, ?_⟩
    split <;> omega
  · rename_i hleft
    cases List.mem_singleton.mp hdir
    have hcloser := northLastHops_before hy hdy hne hleft
    dsimp only
    rw [if_pos hup]
    refine ⟨⟨hx, before_lt hy⟩, ?_⟩
    split <;> omega

/-- A hop along the column never makes the rest of the route longer than the bound for
the shorter way. -/
theorem northLastRank_column (hy : e.y < cfg.numberOfColumns)
    (hdestination : cfg.InRange destination)
    (hfree : e.y = destination.y ∨ ¬ destination.x < e.x) {x : ℕ}
    (hcloser : wrapDistance cfg.numberOfRows x destination.x + 1 =
      wrapDistance cfg.numberOfRows e.x destination.x) :
    cfg.northLastRank ⟨x, e.y⟩ destination < cfg.northLastRank e destination := by
  have hle := northLastHops_le hy hdestination.2
  unfold northLastRank
  dsimp only
  by_cases heq : e.y = destination.y
  · rw [if_pos heq, if_pos heq]
    omega
  · have hdown : ¬ destination.x < e.x := hfree.resolve_left heq
    rw [if_neg heq, if_neg heq, if_neg hdown]
    split <;> omega

/-- A hop along the row with the destination no further up. -/
theorem northLastRank_row (hdown : ¬ destination.x < e.x) (hne : e.y ≠ destination.y) {y : ℕ}
    (hcloser : wrapDistance cfg.numberOfColumns y destination.y + 1 =
      wrapDistance cfg.numberOfColumns e.y destination.y) :
    cfg.northLastRank ⟨e.x, y⟩ destination < cfg.northLastRank e destination := by
  unfold northLastRank
  dsimp only
  rw [if_neg hne, if_neg hdown]
  split
  · omega
  · omega

/-- A minimal hop lowers the rank when the column is settled or the destination is no
further up. -/
theorem northLast_minimal_hop (h : cfg.topology = .torus) (hcurrent : cfg.InRange current)
    (hdestination : cfg.InRange destination)
    (hfree : current.y = destination.y ∨ ¬ destination.x < current.x)
    (hdir : cfg.Minimal current destination dir) :
    ∃ m, cfg.neighbour current dir = some m ∧ cfg.InRange m ∧
      cfg.northLastRank m destination < cfg.northLastRank current destination := by
  refine ⟨_, neighbour_torus h current dir, ?_⟩
  obtain ⟨hx, hy⟩ := hcurrent
  have hd := hdestination
  obtain ⟨hdx, hdy⟩ := hdestination
  -- a hop along the row is minimal only while the column is not settled
  have hunsettled : Descends cfg.topology cfg.numberOfColumns current.y destination.y ∨
      Ascends cfg.topology cfg.numberOfColumns current.y destination.y →
        current.y ≠ destination.y := by
    intro hway heq
    rw [heq] at hway
    exact hway.elim not_descends_self not_ascends_self
  cases dir with
  | up =>
    exact ⟨⟨before_lt hx, hy⟩,
      northLastRank_column hy hd hfree (wrapDistance_before hx hdx (h ▸ hdir))⟩
  | down =>
    exact ⟨⟨after_lt hx, hy⟩,
      northLastRank_column hy hd hfree (wrapDistance_after hx hdx (h ▸ hdir))⟩
  | left =>
    have hne := hunsettled (Or.inl hdir)
    exact ⟨⟨hx, before_lt hy⟩, northLastRank_row (hfree.resolve_left hne) hne
      (wrapDistance_before hy hdy (h ▸ hdir))⟩
  | right =>
    have hne := hunsettled (Or.inr hdir)
    exact ⟨⟨hx, after_lt hy⟩, northLastRank_row (hfree.resolve_left hne) hne
      (wrapDistance_after hy hdy (h ▸ hdir))⟩

theorem steps_northLast (h : cfg.topology = .torus) (hnorth : cfg.rAlgo = .northLast)
    (hdestination : cfg.InRange destination) (hcurrent : cfg.InRange current)
    (haway : current ≠ destination) :
    Steps (cfg.Hop destination) current (fun m => cfg.InRange m ∧
      cfg.northLastRank m destination < cfg.northLastRank current destination) := by
  obtain ⟨hne, hminimal⟩ := IsGrid.xy_minimal (Or.inr h) haway
  have hchoices : cfg.choices current destination = RoutingAlgo.northLastNextBank current
      destination cfg.topology cfg.numberOfRows cfg.numberOfColumns := by
    unfold choices
    rw [hnorth]
  unfold RoutingAlgo.northLastNextBank at hchoices
  by_cases hup : destination.x < current.x
  · rw [if_pos hup] at hchoices
    dsimp only at hchoices
    by_cases hsettled : current.y = destination.y
    · have hempty : RoutingAlgo.northLastChoices cfg.topology cfg.numberOfColumns current.y
          destination.y = [] := by
        rw [h, hsettled, northLastChoices_torus_self]
      rw [hempty, List.isEmpty_nil, if_pos rfl] at hchoices
      refine steps_of_choices (hchoices ▸ hne) ?_
      intro dir hdir
      rw [hchoices] at hdir
      exact northLast_minimal_hop h hcurrent hdestination (Or.inl hsettled) (hminimal dir hdir)
    · have hone : (RoutingAlgo.northLastChoices cfg.topology cfg.numberOfColumns current.y
          destination.y).isEmpty = false := by
        rw [h, northLastChoices_torus hsettled]
        split <;> rfl
      rw [hone, if_neg Bool.false_ne_true, h] at hchoices
      refine steps_of_choices ?_ ?_
      · rw [hchoices, northLastChoices_torus hsettled]
        split <;> exact List.cons_ne_nil _ _
      · intro dir hdir
        rw [hchoices] at hdir
        exact northLast_row_hop h hcurrent hdestination hup hsettled hdir
  · rw [if_neg hup] at hchoices
    refine steps_of_choices (hchoices ▸ hne) ?_
    intro dir hdir
    rw [hchoices] at hdir
    exact northLast_minimal_hop h hcurrent hdestination (Or.inr hup) (hminimal dir hdir)

theorem arrives_torus (h : cfg.topology = .torus) (halgo : cfg.rAlgo.routesGrid = true)
    (hcurrent : cfg.InRange current) (hdestination : cfg.InRange destination) :
    ∃ k, ArrivesWithin (cfg.Hop destination) destination k current := by
  by_cases hnorth : cfg.rAlgo = .northLast
  · exact ⟨_, arrivesWithin_of_rank
      (fun e he haway => steps_northLast h hnorth hdestination he haway) hcurrent
      (Nat.le_refl (cfg.northLastRank current destination))⟩
  · exact ⟨_, arrivesWithin_of_rank
      (fun e he haway => steps_torus h halgo hnorth hdestination he haway) hcurrent
      (Nat.le_refl (cfg.torusDistance current destination))⟩

/-! ### Every route ends -/

/-- **Routing terminates.** On the mesh and the torus, for every algorithm and whatever
the selection chooses at each hop, a route from any router to any other never asks for
a missing neighbour and reaches its destination, on the mesh after as many hops as the
Manhattan distance. -/
theorem routes_arrive (cfg : RouterConfig) (hgrid : cfg.IsGrid)
    (halgo : cfg.rAlgo.routesGrid = true) (source destination : ID)
    (hsource : cfg.InRange source) (hdestination : cfg.InRange destination) :
    (∃ k, ArrivesWithin (cfg.Hop destination) destination k source) ∧
      (cfg.topology = .mesh →
        ArrivesIn (cfg.Hop destination) destination (manhattan source destination) source) := by
  constructor
  · rcases hgrid with hmesh | htorus
    · exact ⟨_, (arrives_mesh hmesh halgo hsource hdestination).within⟩
    · exact arrives_torus htorus halgo hsource hdestination
  · intro hmesh
    exact arrives_mesh hmesh halgo hsource hdestination

/-- A torus of four rows and five columns that routes with `NORTHLAST` and selects the
emptier neighbour. -/
theorem routes_arrive_torus :
    let cfg : RouterConfig := ⟨.torus, .northLast, some .adaptive, 4, 5, 8⟩
    (∃ k, ArrivesWithin (cfg.Hop ⟨0, 1⟩) ⟨0, 1⟩ k ⟨3, 4⟩) ∧
      (cfg.topology = .mesh → ArrivesIn (cfg.Hop ⟨0, 1⟩) ⟨0, 1⟩ (manhattan ⟨3, 4⟩ ⟨0, 1⟩) ⟨3, 4⟩) :=
  routes_arrive _ (Or.inr rfl) rfl ⟨3, 4⟩ ⟨0, 1⟩ ⟨by decide, by decide⟩
    ⟨by decide, by decide⟩

end RouterConfig

end Tejas
