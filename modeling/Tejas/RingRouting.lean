import Tejas.NocRoutes
import Mathlib.Tactic.Ring

/-!
# Routes on the ring

The ring visits the rows one after the other. `XYnextBank` counts the hops to the
destination with one column less in every row, so its count is short by the rows that lie in
between. A route that starts in one direction keeps it, also over the link from the last
router to the first. It is a shortest one, unless the count is at most half the ring while
the way is longer than that.
-/

namespace Tejas
open AdaptiveRouting RoutingAlgo

/-- The position of a router on the ring. -/
def ID.index (e : ID) (numColums : ℕ) : ℕ := e.x * numColums + e.y

/-- The hops between two routers along the rows. -/
def ID.indexDistance (e f : ID) (numColums : ℕ) : ℕ :=
  ((e.index numColums : ℤ) - f.index numColums).natAbs

def ID.rowDistance (e f : ID) : ℕ := ((e.x : ℤ) - f.x).natAbs

variable {rows columns : ℕ} {e f d : ID}

section Positions

theorem index_lt (hx : e.x < rows) (hy : e.y < columns) : e.index columns < rows * columns := by
  have hle : (e.x + 1) * columns ≤ rows * columns := Nat.mul_le_mul_right columns hx
  rw [Nat.add_mul, Nat.one_mul] at hle
  rw [ID.index]
  omega

/-- A router further along the ring is in the same row or in a later one. -/
theorem row_le_of_index_le (hf : f.y < columns) (h : e.index columns ≤ f.index columns) :
    e.x ≤ f.x := by
  by_contra hlt
  have hle : (f.x + 1) * columns ≤ e.x * columns := Nat.mul_le_mul_right columns (by omega)
  rw [Nat.add_mul, Nat.one_mul] at hle
  rw [ID.index, ID.index] at h
  omega

theorem rows_of_indices (he : e.y < columns) (hf : f.y < columns) :
    (e.index columns ≤ f.index columns → e.x ≤ f.x) ∧
      (f.index columns ≤ e.index columns → f.x ≤ e.x) :=
  ⟨row_le_of_index_le hf, row_le_of_index_le he⟩

theorem index_lt_of_row_lt (he : e.y < columns) (h : e.x < f.x) :
    e.index columns < f.index columns := by
  have hle : (e.x + 1) * columns ≤ f.x * columns := Nat.mul_le_mul_right columns h
  rw [Nat.add_mul, Nat.one_mul] at hle
  rw [ID.index, ID.index]
  omega

theorem index_injective (he : e.y < columns) (hf : f.y < columns)
    (h : e.index columns = f.index columns) : e = f := by
  have hx : e.x = f.x := Nat.le_antisymm (row_le_of_index_le hf (Nat.le_of_eq h))
    (row_le_of_index_le he (Nat.le_of_eq h.symm))
  rw [ID.index, ID.index, hx] at h
  exact ID.ext hx (Nat.add_left_cancel h)

/-- The count of `XYnextBank` leaves out one hop for every row on the way. -/
theorem ringHops_eq (he : e.y < columns) (hd : d.y < columns) :
    ringHops columns e d = (e.indexDistance d columns : ℤ) - e.rowDistance d := by
  rw [ringHops, ID.indexDistance, ID.rowDistance]
  split
  case isTrue hlt =>
    have hindex := index_lt_of_row_lt (f := d) he (by exact_mod_cast hlt)
    have hforward : (((e.index columns : ℤ) - d.index columns).natAbs : ℤ) =
        d.index columns - e.index columns := by omega
    have hrow : (((e.x : ℤ) - d.x).natAbs : ℤ) = d.x - e.x := by omega
    rw [hforward, hrow, ID.index, ID.index]
    push_cast
    ring
  case isFalse hge =>
    split
    case isTrue hlt =>
      have hindex := index_lt_of_row_lt (f := e) hd (by exact_mod_cast hlt)
      have hback : (((e.index columns : ℤ) - d.index columns).natAbs : ℤ) =
          e.index columns - d.index columns := by omega
      have hrow : (((e.x : ℤ) - d.x).natAbs : ℤ) = e.x - d.x := by omega
      rw [hback, hrow, ID.index, ID.index]
      push_cast
      ring
    case isFalse =>
      have hrow : e.x = d.x := by omega
      rw [ID.index, ID.index, hrow]
      omega

theorem comesBehind_iff (he : e.y < columns) (hd : d.y < columns) :
    comesBehind e d = true ↔ e.index columns < d.index columns := by
  rw [comesBehind, decide_eq_true_iff]
  constructor
  · rintro (hlt | ⟨hrow, hcolumn⟩)
    · exact index_lt_of_row_lt he hlt
    · rw [ID.index, ID.index, hrow]
      omega
  · intro hlt
    have hle := row_le_of_index_le hd (Nat.le_of_lt hlt)
    rcases Nat.lt_or_eq_of_le hle with hrow | hrow
    · exact Or.inl hrow
    · rw [ID.index, ID.index, hrow] at hlt
      exact Or.inr ⟨hrow, by omega⟩

/-- The link to the right leads to the next position, in this row or the next one, and from
the last router to the first. -/
theorem ring_right (hx : e.x < rows) (hy : e.y < columns) :
    ∃ m, Noc.connectNOCElementsRingBus rows columns true e .right = some m ∧
      m.x < rows ∧ m.y < columns ∧
      (m.index columns = e.index columns + 1 ∧ (m.x = e.x ∨ m.x = e.x + 1) ∨
        e.index columns + 1 = rows * columns ∧ m.index columns = 0 ∧ m.x = 0) := by
  rw [Noc.connectNOCElementsRingBus]
  by_cases hcolumn : e.y + 1 = columns
  · by_cases hrow : e.x + 1 = rows
    · rw [if_pos hcolumn, if_pos hrow, if_pos rfl]
      refine ⟨⟨0, 0⟩, rfl, by dsimp only; omega, by dsimp only; omega,
        Or.inr ⟨?_, by simp [ID.index], rfl⟩⟩
      rw [ID.index, ← hrow, Nat.add_mul, Nat.one_mul]
      omega
    · rw [if_pos hcolumn, if_neg hrow]
      refine ⟨⟨e.x + 1, 0⟩, rfl, by dsimp only; omega, by dsimp only; omega,
        Or.inl ⟨?_, Or.inr rfl⟩⟩
      rw [ID.index, ID.index, Nat.add_mul, Nat.one_mul]
      dsimp only
      omega
  · rw [if_neg hcolumn]
    exact ⟨⟨e.x, e.y + 1⟩, rfl, hx, by dsimp only; omega, Or.inl ⟨rfl, Or.inl rfl⟩⟩

/-- The link to the left leads to the position before, and from the first router to the
last. -/
theorem ring_left (hx : e.x < rows) (hy : e.y < columns) :
    ∃ m, Noc.connectNOCElementsRingBus rows columns true e .left = some m ∧
      m.x < rows ∧ m.y < columns ∧
      (m.index columns + 1 = e.index columns ∧ (m.x = e.x ∨ m.x + 1 = e.x) ∨
        e.index columns = 0 ∧ m.index columns + 1 = rows * columns ∧ m.x + 1 = rows) := by
  rw [Noc.connectNOCElementsRingBus]
  by_cases hcolumn : e.y = 0
  · by_cases hrow : e.x = 0
    · rw [if_pos hcolumn, if_pos hrow, if_pos rfl]
      refine ⟨⟨rows - 1, columns - 1⟩, rfl, by dsimp only; omega, by dsimp only; omega,
        Or.inr ⟨by simp [ID.index, hcolumn, hrow], ?_, by dsimp only; omega⟩⟩
      obtain ⟨r, rfl⟩ := Nat.exists_eq_succ_of_ne_zero (Nat.ne_of_gt (Nat.zero_lt_of_lt hx))
      rw [ID.index, Nat.succ_mul]
      dsimp only
      rw [Nat.succ_sub_one]
      omega
    · rw [if_pos hcolumn, if_neg hrow]
      refine ⟨⟨e.x - 1, columns - 1⟩, rfl, by dsimp only; omega, by dsimp only; omega,
        Or.inl ⟨?_, Or.inr (by dsimp only; omega)⟩⟩
      obtain ⟨x, hx'⟩ := Nat.exists_eq_succ_of_ne_zero hrow
      rw [ID.index, ID.index, hx', Nat.succ_mul]
      dsimp only
      rw [Nat.succ_sub_one]
      omega
  · rw [if_neg hcolumn]
    refine ⟨⟨e.x, e.y - 1⟩, rfl, hx, by dsimp only; omega, Or.inl ⟨?_, Or.inl rfl⟩⟩
    rw [ID.index, ID.index]
    dsimp only
    omega

end Positions

/-- The route goes straight along the rows. -/
def Straight (rows columns : ℕ) (d e : ID) : Prop :=
  e.indexDistance d columns ≤ e.rowDistance d + rows * columns / 2

instance : Decidable (Straight rows columns d e) := Nat.decLe _ _

/-- The hops that are left: straight along the rows, else around. -/
def ringRank (rows columns : ℕ) (d e : ID) : ℕ :=
  if Straight rows columns d e then e.indexDistance d columns
  else rows * columns - e.indexDistance d columns

theorem ringRank_cases (rows columns : ℕ) (d e : ID) :
    (e.indexDistance d columns ≤ e.rowDistance d + rows * columns / 2 ∧
      ringRank rows columns d e = e.indexDistance d columns) ∨
    (e.rowDistance d + rows * columns / 2 < e.indexDistance d columns ∧
      ringRank rows columns d e = rows * columns - e.indexDistance d columns) := by
  by_cases h : Straight rows columns d e
  · exact Or.inl ⟨h, if_pos h⟩
  · exact Or.inr ⟨Nat.lt_of_not_le h, if_neg h⟩

/-- A hop to the right, straight or around, keeps to the direction. -/
theorem ringRank_right (hd : d.x < rows ∧ d.y < columns) (he : e.x < rows ∧ e.y < columns)
    (hdir : Straight rows columns d e ↔ e.index columns < d.index columns)
    (haway : e.index columns ≠ d.index columns) :
    ∃ m, Noc.connectNOCElementsRingBus rows columns true e .right = some m ∧
      (m.x < rows ∧ m.y < columns) ∧
      ringRank rows columns d m + 1 = ringRank rows columns d e := by
  obtain ⟨m, hm, hmx, hmy, hnext⟩ := ring_right he.1 he.2
  refine ⟨m, hm, ⟨hmx, hmy⟩, ?_⟩
  have hdlt := index_lt hd.1 hd.2
  have hmlt := index_lt hmx hmy
  obtain ⟨hdm, hmd⟩ := rows_of_indices hd.2 hmy
  obtain ⟨hde, hed⟩ := rows_of_indices hd.2 he.2
  have hm_cases := ringRank_cases rows columns d m
  have he_cases := ringRank_cases rows columns d e
  simp only [Straight, ID.indexDistance, ID.rowDistance] at hdir hm_cases he_cases
  rcases Nat.lt_or_gt_of_ne haway with hlt | hgt
  · have hstraight := hdir.mpr hlt
    have hrow := hed (Nat.le_of_lt hlt)
    rcases hnext with ⟨hindex, hrow'⟩ | ⟨hlast, hfirst, hrow'⟩
    · have hrow'' := hmd (by omega)
      clear hdir hdm hmd hed hde
      omega
    · omega
  · have haround := mt hdir.mp (Nat.lt_asymm hgt)
    have hrow := hde (Nat.le_of_lt hgt)
    rcases hnext with ⟨hindex, hrow'⟩ | ⟨hlast, hfirst, hrow'⟩
    · have hrow'' := hdm (by omega)
      clear hdir hdm hmd hed hde
      omega
    · clear hdir hdm hmd hed hde
      omega

/-- A hop to the left, straight or around, keeps to the direction. -/
theorem ringRank_left (hd : d.x < rows ∧ d.y < columns) (he : e.x < rows ∧ e.y < columns)
    (hdir : Straight rows columns d e ↔ d.index columns < e.index columns)
    (haway : e.index columns ≠ d.index columns) :
    ∃ m, Noc.connectNOCElementsRingBus rows columns true e .left = some m ∧
      (m.x < rows ∧ m.y < columns) ∧
      ringRank rows columns d m + 1 = ringRank rows columns d e := by
  obtain ⟨m, hm, hmx, hmy, hnext⟩ := ring_left he.1 he.2
  refine ⟨m, hm, ⟨hmx, hmy⟩, ?_⟩
  have hdlt := index_lt hd.1 hd.2
  have hmlt := index_lt hmx hmy
  obtain ⟨hdm, hmd⟩ := rows_of_indices hd.2 hmy
  obtain ⟨hde, hed⟩ := rows_of_indices hd.2 he.2
  have hm_cases := ringRank_cases rows columns d m
  have he_cases := ringRank_cases rows columns d e
  simp only [Straight, ID.indexDistance, ID.rowDistance] at hdir hm_cases he_cases
  rcases Nat.lt_or_gt_of_ne haway with hlt | hgt
  · have haround := mt hdir.mp (Nat.lt_asymm hlt)
    have hrow := hed (Nat.le_of_lt hlt)
    rcases hnext with ⟨hindex, hrow'⟩ | ⟨hfirst, hlast, hrow'⟩
    · have hrow'' := hmd (by omega)
      clear hdir hdm hmd hed hde
      omega
    · clear hdir hdm hmd hed hde
      omega
  · have hstraight := hdir.mpr hgt
    have hrow := hde (Nat.le_of_lt hgt)
    rcases hnext with ⟨hindex, hrow'⟩ | ⟨hfirst, hlast, hrow'⟩
    · have hrow'' := hdm (by omega)
      clear hdir hdm hmd hed hde
      omega
    · omega

/-- The only choice of `XYnextBank`. -/
theorem xyNextBank_ring (he : e.y < columns) (hd : d.y < columns) :
    xyNextBank e d .ring rows columns =
      if Straight rows columns d e ↔ e.index columns < d.index columns then [.right]
      else [.left] := by
  have hstraight : ((columns * rows / 2 : ℕ) : ℤ) ≥ ringHops columns e d ↔
      Straight rows columns d e := by
    rw [ringHops_eq he hd, Straight, Nat.mul_comm columns rows]
    omega
  rw [xyNextBank, if_neg (by decide), if_pos rfl]
  simp only [hstraight, comesBehind_iff he hd]
  by_cases hs : Straight rows columns d e <;> by_cases hb : e.index columns < d.index columns
  all_goals simp [hs, hb]

namespace RouterConfig

variable {cfg : RouterConfig} {source destination current : ID}

theorem steps_ring (h : cfg.topology = .ring) (halgo : cfg.rAlgo = .simple)
    (hdestination : cfg.InRange destination) (hcurrent : cfg.InRange current)
    (haway : current ≠ destination) :
    Steps (cfg.Hop destination) current (fun m => cfg.InRange m ∧
      ringRank cfg.numberOfRows cfg.numberOfColumns destination m + 1 =
        ringRank cfg.numberOfRows cfg.numberOfColumns destination current) := by
  have hchoices : cfg.choices current destination =
      if Straight cfg.numberOfRows cfg.numberOfColumns destination current ↔
        current.index cfg.numberOfColumns < destination.index cfg.numberOfColumns
      then [.right] else [.left] := by
    rw [choices, halgo, h]
    exact xyNextBank_ring hcurrent.2 hdestination.2
  have hne : current.index cfg.numberOfColumns ≠ destination.index cfg.numberOfColumns :=
    fun heq => haway (index_injective hcurrent.2 hdestination.2 heq)
  have hneighbour : ∀ dir, cfg.neighbour current dir =
      Noc.connectNOCElementsRingBus cfg.numberOfRows cfg.numberOfColumns true current dir := by
    intro dir
    rw [neighbour, h]
  by_cases hdir : Straight cfg.numberOfRows cfg.numberOfColumns destination current ↔
      current.index cfg.numberOfColumns < destination.index cfg.numberOfColumns
  · rw [if_pos hdir] at hchoices
    refine steps_of_choices (by simp [hchoices]) (fun dir hmem => ?_)
    rw [hchoices, List.mem_singleton] at hmem
    rw [hmem, hneighbour]
    exact ringRank_right hdestination hcurrent hdir hne
  · rw [if_neg hdir] at hchoices
    refine steps_of_choices (by simp [hchoices]) (fun dir hmem => ?_)
    rw [hchoices, List.mem_singleton] at hmem
    rw [hmem, hneighbour]
    have hbehind : destination.index cfg.numberOfColumns < current.index cfg.numberOfColumns ↔
        ¬ current.index cfg.numberOfColumns < destination.index cfg.numberOfColumns := by omega
    rw [not_iff] at hdir
    refine ringRank_left hdestination hcurrent ?_ hne
    rw [hbehind, ← hdir, not_not]

/-- A route on the ring reaches its destination after as many hops as its direction has. -/
theorem arrives_ring (h : cfg.topology = .ring) (halgo : cfg.rAlgo = .simple)
    (hsource : cfg.InRange source) (hdestination : cfg.InRange destination) :
    ArrivesIn (cfg.Hop destination) destination
      (ringRank cfg.numberOfRows cfg.numberOfColumns destination source) source := by
  refine arrivesIn_of_rank cfg.InRange
    (fun e => ringRank cfg.numberOfRows cfg.numberOfColumns destination e) ?_
    (fun e he haway => steps_ring h halgo hdestination he haway) ?_ hsource
  · intro e he hzero
    have hcases := ringRank_cases cfg.numberOfRows cfg.numberOfColumns destination e
    have helt := index_lt he.1 he.2
    have hdlt := index_lt hdestination.1 hdestination.2
    apply index_injective he.2 hdestination.2
    simp only [ID.indexDistance, ID.rowDistance] at hcases
    omega
  · have hcases := ringRank_cases cfg.numberOfRows cfg.numberOfColumns destination destination
    simp only [ID.indexDistance, ID.rowDistance] at hcases
    omega

/-- The hops to the right from one position to another. -/
def clockwise (cfg : RouterConfig) (source destination : ID) : ℕ :=
  (destination.index cfg.numberOfColumns + cfg.numberOfRows * cfg.numberOfColumns -
    source.index cfg.numberOfColumns) % (cfg.numberOfRows * cfg.numberOfColumns)

/-- The shorter way round is the distance along the rows or what it leaves of the ring. -/
theorem min_clockwise (hsource : cfg.InRange source) (hdestination : cfg.InRange destination) :
    min (cfg.clockwise source destination) (cfg.clockwise destination source) =
      min (source.indexDistance destination cfg.numberOfColumns)
        (cfg.numberOfRows * cfg.numberOfColumns -
          source.indexDistance destination cfg.numberOfColumns) := by
  have hs := index_lt hsource.1 hsource.2
  have hd := index_lt hdestination.1 hdestination.2
  rw [clockwise, clockwise, ID.indexDistance]
  rcases Nat.lt_trichotomy (source.index cfg.numberOfColumns)
    (destination.index cfg.numberOfColumns) with hlt | heq | hgt
  · rw [Nat.mod_eq_sub_mod (by omega), Nat.mod_eq_of_lt (by omega), Nat.mod_eq_of_lt (by omega)]
    omega
  · rw [heq, Nat.add_sub_cancel_left, Nat.mod_self]
    omega
  · rw [Nat.mod_eq_of_lt (by omega), Nat.mod_eq_sub_mod (by omega), Nat.mod_eq_of_lt (by omega)]
    omega

/-- The route to every destination has as many hops as the shorter way round exactly when a
way that is taken straight, by the count of `XYnextBank`, is at most half the ring. -/
theorem ring_shortest_iff (h : cfg.topology = .ring) (halgo : cfg.rAlgo = .simple)
    (hsource : cfg.InRange source) (hdestination : cfg.InRange destination) :
    ArrivesIn (cfg.Hop destination) destination
        (min (cfg.clockwise source destination) (cfg.clockwise destination source)) source ↔
      (source.indexDistance destination cfg.numberOfColumns ≤
          source.rowDistance destination + cfg.numberOfRows * cfg.numberOfColumns / 2 →
        2 * source.indexDistance destination cfg.numberOfColumns ≤
          cfg.numberOfRows * cfg.numberOfColumns) := by
  have hroute := arrives_ring h halgo hsource hdestination
  have hcases := ringRank_cases cfg.numberOfRows cfg.numberOfColumns destination source
  have hs := index_lt hsource.1 hsource.2
  have hd := index_lt hdestination.1 hdestination.2
  have hlt : source.indexDistance destination cfg.numberOfColumns <
      cfg.numberOfRows * cfg.numberOfColumns := by
    rw [ID.indexDistance]
    omega
  rw [min_clockwise hsource hdestination]
  constructor
  · intro hshortest
    have hrank := hroute.unique hshortest
    omega
  · intro hstraight
    have hrank : ringRank cfg.numberOfRows cfg.numberOfColumns destination source =
        min (source.indexDistance destination cfg.numberOfColumns)
          (cfg.numberOfRows * cfg.numberOfColumns -
            source.indexDistance destination cfg.numberOfColumns) := by
      omega
    rwa [hrank] at hroute

/-- Three rows of two columns. -/
def sixRing : RouterConfig := ⟨.ring, .simple, none, 3, 2, 8⟩

theorem ring_shortest_sixRing : ArrivesIn (sixRing.Hop ⟨1, 0⟩) ⟨1, 0⟩ 2 ⟨0, 0⟩ := by
  have hfirst : sixRing.InRange ⟨0, 0⟩ := ⟨by decide, by decide⟩
  have hthird : sixRing.InRange ⟨1, 0⟩ := ⟨by decide, by decide⟩
  exact (ring_shortest_iff rfl rfl hfirst hthird).mpr (by decide)

/-- From the first router of three rows of two to the fifth it is two hops to the left, and
the route takes four to the right. -/
theorem ring_not_shortest :
    ¬ ∀ (cfg : RouterConfig) (source destination : ID), cfg.topology = .ring →
      cfg.rAlgo = .simple → cfg.InRange source → cfg.InRange destination →
      ArrivesIn (cfg.Hop destination) destination
        (min (cfg.clockwise source destination) (cfg.clockwise destination source)) source := by
  intro hshortest
  have hfirst : sixRing.InRange ⟨0, 0⟩ := ⟨by decide, by decide⟩
  have hfifth : sixRing.InRange ⟨2, 0⟩ := ⟨by decide, by decide⟩
  have hroute := arrives_ring rfl rfl hfirst hfifth
  have hfail := hroute.unique (hshortest sixRing ⟨0, 0⟩ ⟨2, 0⟩ rfl rfl hfirst hfifth)
  exact absurd hfail (by decide)

end RouterConfig

end Tejas
