import Tejas.SwitchNetworks

/-!
# Destination tags lead to the destination

Both networks have a column of switches for each digit of the destination, and each
column but the last exchanges the position of the message. In the omega network the
digits are shifted in from the right. In the butterfly network each column puts its digit
in the place of one digit of the position. Either way the position in the last column is
the destination without its last digit.
-/

namespace Tejas.SwitchNetwork
open Assignments

variable {net : SwitchNetwork} {k d s i j p b n half : ℕ} {e : NetworkElement}

/-! ### What the wiring has to do -/

/-- A network with `k` columns of switches, in which a message enters at a position and
each column takes it to the next by the digit it reads. -/
structure Wired (net : SwitchNetwork) (k : ℕ) (entry : ℕ → ℕ) (exchange : ℕ → ℕ → ℕ → ℕ) :
    Prop where
  input : ∀ s, s < 2 ^ k → net.routerConnection s = some (.switch (entry s))
  entry_lt : ∀ s, s < 2 ^ k → entry s < 2 ^ (k - 1)
  level : ∀ i p, i < k → p < 2 ^ (k - 1) → net.levels[i * 2 ^ (k - 1) + p]? = some i
  middle : ∀ i p b, i + 1 < k → p < 2 ^ (k - 1) → b < 2 →
    net.connection (i * 2 ^ (k - 1) + p) (2 + b) =
      some (.switch ((i + 1) * 2 ^ (k - 1) + exchange i p b))
  exchange_lt : ∀ i p b, i + 1 < k → p < 2 ^ (k - 1) → b < 2 → exchange i p b < 2 ^ (k - 1)
  output : ∀ p b, p < 2 ^ (k - 1) → b < 2 →
    net.connection ((k - 1) * 2 ^ (k - 1) + p) (2 + b) = some (.router (2 * p + b))

/-- The positions that a message for the destination passes. -/
def position (k d : ℕ) (entry : ℕ → ℕ) (exchange : ℕ → ℕ → ℕ → ℕ) (s : ℕ) : ℕ → ℕ
  | 0 => entry s
  | i + 1 => exchange i (position k d entry exchange s i) (digit k d i)

variable {entry : ℕ → ℕ} {exchange : ℕ → ℕ → ℕ → ℕ}

theorem Wired.position_lt (h : net.Wired k entry exchange) (hs : s < 2 ^ k) (hi : i < k) :
    position k d entry exchange s i < 2 ^ (k - 1) := by
  induction i with
  | zero => exact h.entry_lt s hs
  | succ i ih => exact h.exchange_lt i _ _ hi (ih (by omega)) (digit_lt k d i)

/-- A switch passes a message on by the digit of its column. -/
theorem Wired.nextElement (h : net.Wired k entry exchange) (hd : d < 2 ^ k) (hi : i < k)
    (hp : p < 2 ^ (k - 1)) : net.nextElement (2 ^ k) d (i * 2 ^ (k - 1) + p) =
      net.connection (i * 2 ^ (k - 1) + p) (2 + digit k d i) := by
  unfold SwitchNetwork.nextElement
  rw [h.level i p hi hp]
  dsimp only
  rw [nextId_digit hd hi]

/-- The route through the columns from one on. -/
theorem Wired.route (h : net.Wired k entry exchange) (hs : s < 2 ^ k) (hd : d < 2 ^ k)
    (hk : i + (n + 1) = k) :
    net.route (2 ^ k) d (n + 1)
        (.switch (i * 2 ^ (k - 1) + position k d entry exchange s i)) =
      some (.router (2 * position k d entry exchange s (k - 1) + digit k d (k - 1))) := by
  induction n generalizing i with
  | zero =>
    have hi : i = k - 1 := by omega
    have hp : position k d entry exchange s (k - 1) < 2 ^ (k - 1) := h.position_lt hs (by omega)
    rw [hi]
    rw [SwitchNetwork.route, h.nextElement hd (by omega) hp, h.output _ _ hp (digit_lt _ _ _)]
    rfl
  | succ n ih =>
    have hp : position k d entry exchange s i < 2 ^ (k - 1) := h.position_lt hs (by omega)
    rw [SwitchNetwork.route, h.nextElement hd (by omega) hp,
      h.middle i _ _ (by omega) hp (digit_lt _ _ _)]
    exact ih (by omega)

/-! ### Indices -/

theorem two_pow_eq (hk : 1 ≤ k) : 2 ^ k = 2 * 2 ^ (k - 1) := by
  rw [← Nat.pow_succ']
  congr 1
  omega

theorem column_index (hk : 1 ≤ k) (i : ℕ) : i * 2 ^ k / 2 = i * 2 ^ (k - 1) := by
  rw [two_pow_eq hk, Nat.mul_comm 2, ← Nat.mul_assoc, Nat.mul_div_cancel _ (by decide)]

theorem half_columns (hk : 1 ≤ k) : 2 ^ k / 2 = 2 ^ (k - 1) := by
  have h := column_index hk 1
  rwa [Nat.one_mul, Nat.one_mul] at h

theorem numberOfSwitchLevels_pow (k : ℕ) : numberOfSwitchLevels (2 ^ k) = k :=
  Nat.log_pow (by decide) k

/-- A switch is found by its column and its position. -/
theorem index_inj (hj : j < half) (hp : p < half) (h : n * half + j = i * half + p) :
    n = i ∧ j = p := by
  have hcolumn : ∀ m q, q < half → (m * half + q) / half = m := by
    intro m q hq
    rw [Nat.mul_comm, Nat.mul_add_div (by omega), Nat.div_eq_of_lt hq]
    rfl
  have hn : n = i := by
    rw [← hcolumn n j hj, h, hcolumn i p hp]
  rw [hn] at h
  exact ⟨hn, by omega⟩

theorem levels_getElem? (half : ℕ) (hi : i ≤ n) (hp : p < half) :
    (List.replicate half 0 ++
      (List.range n).flatMap (fun i => List.replicate half (i + 1)))[i * half + p]? = some i := by
  have hlength : ∀ m, (List.replicate half 0 ++ (List.range m).flatMap (fun i =>
      List.replicate half (i + 1))).length = (m + 1) * half := by
    intro m
    induction m with
    | zero => simp
    | succ m ih =>
      rw [List.range_succ, List.flatMap_append, ← List.append_assoc, List.length_append, ih]
      simp [Nat.add_mul]
  induction n with
  | zero =>
    have hzero : i = 0 := by omega
    rw [hzero]
    simp [hp]
  | succ n ih =>
    rw [List.range_succ, List.flatMap_append, ← List.append_assoc]
    rcases Nat.lt_or_ge n i with hlast | hbefore
    · have hi' : i = n + 1 := by omega
      rw [List.getElem?_append_right (by rw [hlength, hi']; omega), hlength, hi']
      simp [hp]
    · have hlt : i * half + p < (n + 1) * half := by
        have hle : (i + 1) * half ≤ (n + 1) * half := Nat.mul_le_mul_right half (by omega)
        rw [Nat.add_mul, Nat.one_mul] at hle
        omega
      rw [List.getElem?_append_left (by rw [hlength]; exact hlt)]
      exact ih hbefore

theorem level_of_middleLevels (hk : 1 ≤ k) (hi : i < k) (hp : p < 2 ^ (k - 1)) :
    (List.replicate (2 ^ k / 2) 0 ++ middleLevels (2 ^ k))[i * 2 ^ (k - 1) + p]? = some i := by
  unfold middleLevels
  rw [half_columns hk, numberOfSwitchLevels_pow]
  exact levels_getElem? _ (by omega) hp

/-! ### The connections of a column -/

/-- A loop that makes two assignments in each round. -/
theorem mem_flatMap_pair {α : Type} {n : ℕ} {f : ℕ → ℕ → α} {x : α} :
    x ∈ (List.range n).flatMap (fun j => [f j 0, f j 1]) ↔ ∃ j b, j < n ∧ b < 2 ∧ x = f j b := by
  rw [List.mem_flatMap]
  constructor
  · intro h
    obtain ⟨j, hj, hmem⟩ := h
    rw [List.mem_range] at hj
    rcases List.mem_cons.mp hmem with heq | hmem
    · exact ⟨j, 0, hj, by decide, heq⟩
    · exact ⟨j, 1, hj, by decide, List.mem_singleton.mp hmem⟩
  · intro h
    obtain ⟨j, b, hj, hb, rfl⟩ := h
    refine ⟨j, List.mem_range.mpr hj, ?_⟩
    have hcases : b = 0 ∨ b = 1 := by omega
    rcases hcases with rfl | rfl
    · exact List.mem_cons_self
    · exact List.mem_cons_of_mem _ List.mem_cons_self

/-- The assignments of `connectOutput`. -/
theorem mem_connectOutput (hk : 1 ≤ k) {key : ℕ × ℕ} :
    (key, e) ∈ connectOutput (2 ^ k) ((k - 1) * 2 ^ k / 2) ↔ ∃ j b, j < 2 ^ (k - 1) ∧ b < 2 ∧
      key = ((k - 1) * 2 ^ (k - 1) + j, 2 + b) ∧ e = .router (2 * j + b) := by
  unfold connectOutput
  rw [half_columns hk, column_index hk]
  simp only [Nat.add_comm _ ((k - 1) * 2 ^ (k - 1))]
  refine (mem_flatMap_pair (f := fun j b =>
    (((k - 1) * 2 ^ (k - 1) + j, 2 + b), NetworkElement.router (2 * j + b)))).trans ?_
  simp only [Prod.mk.injEq]

/-- What the loop over one column assigns. -/
def MiddleOf (k : ℕ) (middle : ℕ → List ((ℕ × ℕ) × NetworkElement))
    (exchange : ℕ → ℕ → ℕ → ℕ) : Prop :=
  ∀ i, i + 1 < k → ∀ key e, (key, e) ∈ middle i ↔ ∃ p b, p < 2 ^ (k - 1) ∧ b < 2 ∧
    key = (i * 2 ^ (k - 1) + p, 2 + b) ∧ e = .switch ((i + 1) * 2 ^ (k - 1) + exchange i p b)

/-- The connections of all columns, behind those that lead back to the routers. -/
def allConnections (k : ℕ) (back : List ((ℕ × ℕ) × NetworkElement))
    (middle : ℕ → List ((ℕ × ℕ) × NetworkElement)) : List ((ℕ × ℕ) × NetworkElement) :=
  back ++ (List.range (k - 1)).flatMap middle ++ connectOutput (2 ^ k) ((k - 1) * 2 ^ k / 2)

variable {back : List ((ℕ × ℕ) × NetworkElement)}
  {middle : ℕ → List ((ℕ × ℕ) × NetworkElement)}

/-- An assignment to an output of a switch comes from the loop over its column, or from
that over the last. -/
theorem mem_allConnections (hk : 1 ≤ k) (hback : ∀ key e, (key, e) ∈ back → key.2 < 2)
    (hmiddle : MiddleOf k middle exchange) (hi : i < k) (hp : p < 2 ^ (k - 1)) (hb : b < 2) :
    ((i * 2 ^ (k - 1) + p, 2 + b), e) ∈ allConnections k back middle ↔
      (i + 1 < k ∧ e = .switch ((i + 1) * 2 ^ (k - 1) + exchange i p b)) ∨
        (i + 1 = k ∧ e = .router (2 * p + b)) := by
  unfold allConnections
  rw [List.mem_append, List.mem_append, List.mem_flatMap, mem_connectOutput hk]
  constructor
  · intro h
    rcases h with (hmem | ⟨n, hn, hmem⟩) | ⟨j, c, hj, hc, hkey, he⟩
    · have hlt := hback _ _ hmem
      dsimp only at hlt
      omega
    · rw [List.mem_range] at hn
      obtain ⟨q, c, hq, hc, hkey, he⟩ := (hmiddle n (by omega) _ _).mp hmem
      injection hkey with hindex houtput
      obtain ⟨hin, hpq⟩ := index_inj hp hq hindex
      have hbc : b = c := by omega
      rw [hin, hpq, hbc]
      exact Or.inl ⟨by omega, he⟩
    · injection hkey with hindex houtput
      obtain ⟨hin, hpj⟩ := index_inj hp hj hindex
      have hbc : b = c := by omega
      rw [hpj, hbc]
      exact Or.inr ⟨by omega, he⟩
  · intro h
    rcases h with ⟨hlt, he⟩ | ⟨hlast, he⟩
    · exact Or.inl (Or.inr ⟨i, List.mem_range.mpr (by omega),
        (hmiddle i hlt _ _).mpr ⟨p, b, hp, hb, rfl, he⟩⟩)
    · have hi' : i = k - 1 := by omega
      exact Or.inr ⟨p, b, hp, hb, by rw [hi'], he⟩

/-- A network whose loops assign so is wired. -/
theorem wired_of_connections (back : List ((ℕ × ℕ) × NetworkElement)) (hk : 1 ≤ k)
    (hback : ∀ key e, (key, e) ∈ back → key.2 < 2)
    (hmiddle : MiddleOf k middle exchange)
    (hexchange : ∀ i p b, i + 1 < k → p < 2 ^ (k - 1) → b < 2 → exchange i p b < 2 ^ (k - 1))
    (hinput : ∀ s, s < 2 ^ k → net.routerConnection s = some (.switch (entry s)))
    (hentry : ∀ s, s < 2 ^ k → entry s < 2 ^ (k - 1))
    (hlevels : net.levels = List.replicate (2 ^ k / 2) 0 ++ middleLevels (2 ^ k))
    (hconnections : net.connections = allConnections k back middle) :
    net.Wired k entry exchange where
  input := hinput
  entry_lt := hentry
  level := by
    intro i p hi hp
    rw [hlevels]
    exact level_of_middleLevels hk hi hp
  middle := by
    intro i p b hi hp hb
    unfold SwitchNetwork.connection
    rw [hconnections]
    refine assigned_eq ?_ ?_
    · exact (mem_allConnections hk hback hmiddle (by omega) hp hb).mpr (Or.inl ⟨hi, rfl⟩)
    · intro other hother
      rcases (mem_allConnections hk hback hmiddle (by omega) hp hb).mp hother with h | h
      · exact h.2
      · omega
  exchange_lt := hexchange
  output := by
    intro p b hp hb
    unfold SwitchNetwork.connection
    rw [hconnections]
    refine assigned_eq ?_ ?_
    · exact (mem_allConnections hk hback hmiddle (by omega) hp hb).mpr
        (Or.inr ⟨by omega, rfl⟩)
    · intro other hother
      rcases (mem_allConnections hk hback hmiddle (by omega) hp hb).mp hother with h | h
      · omega
      · exact h.2

/-! ### Omega -/

def omegaEntry (k s : ℕ) : ℕ := s % 2 ^ (k - 1)

/-- The perfect shuffle, with the digit in the last place. -/
def omegaExchange (k : ℕ) (_ p b : ℕ) : ℕ := (2 * p + b) % 2 ^ (k - 1)

theorem middleOf_omega (hk : 1 ≤ k) :
    MiddleOf k (connectMiddleOmega (2 ^ k)) (omegaExchange k) := by
  intro i hi key e
  unfold connectMiddleOmega omegaExchange
  rw [half_columns hk, column_index hk, column_index hk]
  refine (mem_flatMap_pair (f := fun j b => ((i * 2 ^ (k - 1) + j, 2 + b),
    NetworkElement.switch ((i + 1) * 2 ^ (k - 1) + (2 * j + b) % 2 ^ (k - 1))))).trans ?_
  simp only [Prod.mk.injEq]

theorem input_omega (hk : 1 ≤ k) (hs : s < 2 ^ k) :
    (connectNOCElementsOmega (2 ^ k)).routerConnection s = some (.switch (omegaEntry k s)) := by
  have hpow := two_pow_eq hk
  have hentry : omegaEntry k s = if s < 2 ^ (k - 1) then s else s - 2 ^ (k - 1) := by
    unfold omegaEntry
    split
    · rename_i hlt
      exact Nat.mod_eq_of_lt hlt
    · rename_i hge
      rw [Nat.mod_eq_sub_mod (by omega), Nat.mod_eq_of_lt (by omega)]
  have hmem : ∀ e, (s, e) ∈ (connectNOCElementsOmega (2 ^ k)).routers ↔
      e = .switch (omegaEntry k s) := by
    intro e
    rw [hentry]
    simp only [connectNOCElementsOmega, connectInputOmega, half_columns hk, List.mem_flatMap,
      List.mem_range, List.mem_cons, List.not_mem_nil, or_false, Prod.mk.injEq]
    constructor
    · intro h
      obtain ⟨j, hj, ⟨hsj, he⟩ | ⟨hsj, he⟩⟩ := h
      · rw [he, if_pos (by omega), hsj]
      · rw [he, if_neg (by omega), hsj, Nat.add_sub_cancel]
    · intro he
      rw [he]
      split
      · rename_i hlt
        exact ⟨s, hlt, Or.inl ⟨rfl, rfl⟩⟩
      · rename_i hge
        exact ⟨s - 2 ^ (k - 1), by omega, Or.inr ⟨by omega, rfl⟩⟩
  exact assigned_eq ((hmem _).mpr rfl) (fun other hother => (hmem other).mp hother)

theorem wired_omega (hk : 1 ≤ k) :
    (connectNOCElementsOmega (2 ^ k)).Wired k (omegaEntry k) (omegaExchange k) := by
  refine wired_of_connections (connectInputOmega (2 ^ k)).connections hk ?_
    (middleOf_omega hk) ?_ (fun s hs => input_omega hk hs) ?_ rfl ?_
  · intro key e hmem
    simp only [connectInputOmega, List.mem_flatMap, List.mem_range, List.mem_cons,
      List.not_mem_nil, or_false, Prod.mk.injEq] at hmem
    obtain ⟨j, -, ⟨hkey, -⟩ | ⟨hkey, -⟩⟩ := hmem
    · rw [hkey]
      exact Nat.zero_lt_two
    · rw [hkey]
      exact Nat.one_lt_two
  · intro i p b hi hp hb
    exact Nat.mod_lt _ (Nat.two_pow_pos _)
  · intro s hs
    exact Nat.mod_lt _ (Nat.two_pow_pos _)
  · simp only [connectNOCElementsOmega, numberOfSwitchLevels_pow, allConnections]

/-- After the digits of `i` columns the position is the source shifted by `i` places, with
these digits behind it. -/
theorem position_omega (hd : d < 2 ^ k) (hi : i < k) :
    position k d (omegaEntry k) (omegaExchange k) s i =
      (s * 2 ^ i + d / 2 ^ (k - i)) % 2 ^ (k - 1) := by
  induction i with
  | zero =>
    have hzero : d / 2 ^ (k - 0) = 0 := Nat.div_eq_of_lt hd
    rw [hzero, Nat.pow_zero, Nat.mul_one, Nat.add_zero]
    rfl
  | succ i ih =>
    have hstep : position k d (omegaEntry k) (omegaExchange k) s (i + 1) =
        (2 * position k d (omegaEntry k) (omegaExchange k) s i + digit k d i) % 2 ^ (k - 1) := rfl
    have hdouble : s * 2 ^ (i + 1) + d / 2 ^ (k - (i + 1)) =
        2 * (s * 2 ^ i + d / 2 ^ (k - i)) + digit k d i := by
      rw [leading_digits (by omega), Nat.pow_succ, ← Nat.mul_assoc]
      omega
    rw [hstep, ih (by omega), hdouble]
    simp [Nat.add_mod, Nat.mul_mod]

theorem position_omega_last (hk : 1 ≤ k) (hd : d < 2 ^ k) :
    position k d (omegaEntry k) (omegaExchange k) s (k - 1) = d / 2 := by
  have hlast : k - (k - 1) = 1 := by omega
  have hpow := two_pow_eq hk
  rw [position_omega hd (by omega), hlast, Nat.pow_one, Nat.mul_comm, Nat.mul_add_mod]
  exact Nat.mod_eq_of_lt (by omega)

/-! ### Butterfly -/

def butterflyEntry (s : ℕ) : ℕ := s / 2

/-- The distance of the switches that column `i` exchanges. -/
def stride (k i : ℕ) : ℕ := 2 ^ (k - 2 - i)

/-- The digit replaces the one that tells the exchanged switches apart. -/
def butterflyExchange (k i p b : ℕ) : ℕ :=
  2 * stride k i * (p / (2 * stride k i)) + b * stride k i + p % stride k i

theorem stride_pos (k i : ℕ) : 0 < stride k i := Nat.two_pow_pos _

theorem stride_eq (hi : i + 1 < k) : 2 ^ k / 2 ^ (i + 2) = stride k i := by
  rw [Nat.pow_div (by omega) (by decide)]
  unfold stride
  congr 1
  omega

/-- A column consists of blocks of twice the distance. -/
theorem blocks (hi : i + 1 < k) : 2 ^ (k - 1) = 2 * stride k i * 2 ^ i := by
  unfold stride
  rw [← Nat.pow_succ', ← Nat.pow_add]
  congr 1
  omega

theorem mem_butterflyBlock {N w : ℕ} {key : ℕ × ℕ} :
    (key, e) ∈ butterflyBlock N i w j ↔ ∃ r a b, r < w ∧ a < 2 ∧ b < 2 ∧
      key = (i * N / 2 + j + r + a * w, 2 + b) ∧
        e = .switch ((i + 1) * N / 2 + j + r + b * w) := by
  unfold butterflyBlock
  rw [List.mem_flatMap]
  constructor
  · intro h
    obtain ⟨r, hr, hmem⟩ := h
    rw [List.mem_range] at hr
    simp only [List.mem_cons, List.not_mem_nil, or_false, Prod.mk.injEq] at hmem
    rcases hmem with ⟨rfl, rfl⟩ | ⟨rfl, rfl⟩ | ⟨rfl, rfl⟩ | ⟨rfl, rfl⟩
    · exact ⟨r, 0, 0, hr, by simp⟩
    · exact ⟨r, 0, 1, hr, by simp⟩
    · exact ⟨r, 1, 0, hr, by simp⟩
    · exact ⟨r, 1, 1, hr, by simp⟩
  · intro h
    obtain ⟨r, a, b, hr, ha, hb, rfl, rfl⟩ := h
    refine ⟨r, List.mem_range.mpr hr, ?_⟩
    have hacases : a = 0 ∨ a = 1 := by omega
    have hbcases : b = 0 ∨ b = 1 := by omega
    rcases hacases with rfl | rfl
    · rcases hbcases with rfl | rfl <;> simp
    · rcases hbcases with rfl | rfl <;> simp

/-- The loop visits the blocks one after the other. -/
theorem mem_butterflyLoop (fuel : ℕ) {N w m : ℕ} {x : (ℕ × ℕ) × NetworkElement} (hw : 0 < w) :
    x ∈ butterflyLoop N i w fuel (2 * w * m) ↔ ∃ q, m ≤ q ∧ q < m + fuel ∧
      2 * w * q < N / 2 ∧ x ∈ butterflyBlock N i w (2 * w * q) := by
  induction fuel generalizing m with
  | zero =>
    rw [butterflyLoop]
    constructor
    · intro h
      cases h
    · intro h
      obtain ⟨q, hle, hlt, -⟩ := h
      omega
  | succ fuel ih =>
    have hadvance : 2 * w * m + 2 * w - 1 + 1 = 2 * w * (m + 1) := by
      rw [Nat.mul_add, Nat.mul_one]
      omega
    rw [butterflyLoop, hadvance]
    by_cases hin : 2 * w * m < N / 2
    · rw [if_pos hin, List.mem_append, ih]
      constructor
      · intro h
        rcases h with h | ⟨q, hle, hlt, hq, h⟩
        · exact ⟨m, Nat.le_refl m, by omega, hin, h⟩
        · exact ⟨q, by omega, by omega, hq, h⟩
      · intro h
        obtain ⟨q, hle, hlt, hq, h⟩ := h
        rcases Nat.eq_or_lt_of_le hle with rfl | hmore
        · exact Or.inl h
        · exact Or.inr ⟨q, hmore, by omega, hq, h⟩
    · rw [if_neg hin]
      constructor
      · intro h
        cases h
      · intro h
        obtain ⟨q, hle, hlt, hq, h⟩ := h
        have hmono : 2 * w * m ≤ 2 * w * q := Nat.mul_le_mul_left _ hle
        omega

/-- The place of a switch in its block. -/
theorem block_place {w q r a : ℕ} (hr : r < w) (ha : a < 2) :
    (2 * w * q + r + a * w) / (2 * w) = q ∧ (2 * w * q + r + a * w) % w = r := by
  have haw : a * w ≤ w := by
    have := Nat.mul_le_mul_right w (show a ≤ 1 by omega)
    omega
  constructor
  · rw [Nat.add_assoc, Nat.mul_add_div (by omega), Nat.div_eq_of_lt (by omega), Nat.add_zero]
  · rw [Nat.add_mul_mod_self_right, Nat.mul_comm 2 w, Nat.mul_assoc, Nat.mul_add_mod,
      Nat.mod_eq_of_lt hr]

/-- Every position has its place in a block. -/
theorem place_of (p : ℕ) {w : ℕ} (hw : 0 < w) : ∃ a, a < 2 ∧
    p = 2 * w * (p / (2 * w)) + p % w + a * w := by
  refine ⟨p % (2 * w) / w, ?_, ?_⟩
  · have hlt : p % (2 * w) < 2 * w := Nat.mod_lt _ (by omega)
    exact (Nat.div_lt_iff_lt_mul hw).mpr hlt
  · have houter := Nat.div_add_mod p (2 * w)
    have hinner := Nat.div_add_mod (p % (2 * w)) w
    rw [Nat.mod_mul_left_mod] at hinner
    rw [Nat.mul_comm w] at hinner
    omega

theorem middleOf_butterfly (hk : 1 ≤ k) :
    MiddleOf k (connectMiddleButterfly (2 ^ k)) (butterflyExchange k) := by
  intro i hi key e
  have hw := stride_pos k i
  have hblocks := blocks hi
  unfold connectMiddleButterfly
  rw [stride_eq hi]
  have hloop := mem_butterflyLoop (2 ^ k / 2) (N := 2 ^ k) (i := i) (m := 0)
    (x := (key, e)) hw
  rw [Nat.mul_zero] at hloop
  rw [hloop]
  constructor
  · intro h
    obtain ⟨q, -, -, hq, hmem⟩ := h
    obtain ⟨r, a, b, hr, ha, hb, hkey, he⟩ := mem_butterflyBlock.mp hmem
    rw [column_index hk] at hkey he
    rw [half_columns hk, hblocks] at hq
    have hq' : q < 2 ^ i := Nat.lt_of_mul_lt_mul_left hq
    obtain ⟨hdiv, hmod⟩ := block_place (q := q) hr ha
    refine ⟨2 * stride k i * q + r + a * stride k i, b, ?_, hb, ?_, ?_⟩
    · have hle : 2 * stride k i * (q + 1) ≤ 2 * stride k i * 2 ^ i := Nat.mul_le_mul_left _ hq'
      have haw : a * stride k i ≤ stride k i := by
        have := Nat.mul_le_mul_right (stride k i) (show a ≤ 1 by omega)
        omega
      rw [Nat.mul_add, Nat.mul_one] at hle
      omega
    · rw [hkey]
      congr 1
      omega
    · rw [he]
      unfold butterflyExchange
      rw [hdiv, hmod]
      congr 1
      omega
  · intro h
    obtain ⟨p, b, hp, hb, hkey, he⟩ := h
    obtain ⟨a, ha, hplace⟩ := place_of p hw
    refine ⟨p / (2 * stride k i), Nat.zero_le _, ?_, ?_, ?_⟩
    · rw [half_columns hk, Nat.zero_add]
      exact Nat.lt_of_le_of_lt (Nat.div_le_self _ _) hp
    · rw [half_columns hk]
      omega
    · refine mem_butterflyBlock.mpr ⟨p % stride k i, a, b, Nat.mod_lt _ hw, ha, hb, ?_, ?_⟩
      · rw [hkey, column_index hk]
        congr 1
        omega
      · rw [he, column_index hk]
        unfold butterflyExchange
        congr 1
        omega

theorem input_butterfly (hk : 1 ≤ k) (hs : s < 2 ^ k) :
    (connectNOCElementsButterfly (2 ^ k)).routerConnection s =
      some (.switch (butterflyEntry s)) := by
  have hpow := two_pow_eq hk
  have hmem : ∀ e, (s, e) ∈ (connectNOCElementsButterfly (2 ^ k)).routers ↔
      e = .switch (butterflyEntry s) := by
    intro e
    unfold butterflyEntry
    simp only [connectNOCElementsButterfly, connectInputButterfly, half_columns hk,
      List.mem_flatMap, List.mem_range, List.mem_cons, List.not_mem_nil, or_false, Prod.mk.injEq]
    constructor
    · intro h
      obtain ⟨j, hj, ⟨hsj, he⟩ | ⟨hsj, he⟩⟩ := h
      · rw [he, hsj]
        congr 1
        omega
      · rw [he, hsj]
        congr 1
        omega
    · intro he
      rcases Nat.mod_two_eq_zero_or_one s with heven | hodd
      · exact ⟨s / 2, by omega, Or.inl ⟨by omega, he⟩⟩
      · exact ⟨s / 2, by omega, Or.inr ⟨by omega, he⟩⟩
  exact assigned_eq ((hmem _).mpr rfl) (fun other hother => (hmem other).mp hother)

theorem butterflyExchange_lt (hi : i + 1 < k) (hp : p < 2 ^ (k - 1)) (hb : b < 2) :
    butterflyExchange k i p b < 2 ^ (k - 1) := by
  have hw := stride_pos k i
  have hmod : p % stride k i < stride k i := Nat.mod_lt _ hw
  have hbw : b * stride k i ≤ stride k i := by
    have := Nat.mul_le_mul_right (stride k i) (show b ≤ 1 by omega)
    omega
  have hq : p / (2 * stride k i) < 2 ^ i := by
    rw [Nat.div_lt_iff_lt_mul (by omega), Nat.mul_comm]
    rw [blocks hi] at hp
    exact hp
  have hle : 2 * stride k i * (p / (2 * stride k i) + 1) ≤ 2 * stride k i * 2 ^ i :=
    Nat.mul_le_mul_left _ hq
  rw [Nat.mul_add, Nat.mul_one] at hle
  rw [blocks hi]
  unfold butterflyExchange
  omega

theorem wired_butterfly (hk : 1 ≤ k) :
    (connectNOCElementsButterfly (2 ^ k)).Wired k butterflyEntry (butterflyExchange k) := by
  refine wired_of_connections [] hk ?_ (middleOf_butterfly hk) ?_
    (fun s hs => input_butterfly hk hs) ?_ rfl ?_
  · intro key e hmem
    cases hmem
  · intro i p b hi hp hb
    exact butterflyExchange_lt hi hp hb
  · intro s hs
    have hpow := two_pow_eq hk
    unfold butterflyEntry
    omega
  · simp only [connectNOCElementsButterfly, connectInputButterfly, numberOfSwitchLevels_pow,
      allConnections]

/-- After `i` columns the leading `i` digits of the position are those of the destination. -/
theorem position_butterfly (hs : s < 2 ^ k) (hd : d < 2 ^ k) (hi : i < k) :
    position k d butterflyEntry (butterflyExchange k) s i / 2 ^ (k - 1 - i) =
      d / 2 ^ (k - i) := by
  induction i with
  | zero =>
    have hpow : 2 ^ k = 2 * 2 ^ (k - 1) := two_pow_eq hi
    rw [Nat.sub_zero, Nat.sub_zero, Nat.div_eq_of_lt hd]
    apply Nat.div_eq_of_lt
    show s / 2 < 2 ^ (k - 1)
    omega
  | succ i ih =>
    have hw := stride_pos k i
    have hblock : 2 ^ (k - 1 - i) = 2 * stride k i := by
      unfold stride
      rw [← Nat.pow_succ']
      congr 1
      omega
    have hunit : 2 ^ (k - 1 - (i + 1)) = stride k i := by
      unfold stride
      congr 1
      omega
    have hih := ih (by omega)
    rw [hblock] at hih
    have hstep : position k d butterflyEntry (butterflyExchange k) s (i + 1) =
        butterflyExchange k i (position k d butterflyEntry (butterflyExchange k) s i)
          (digit k d i) := rfl
    rw [hunit, leading_digits (by omega), ← hih, hstep]
    generalize position k d butterflyEntry (butterflyExchange k) s i = p at *
    unfold butterflyExchange
    have hmod : p % stride k i < stride k i := Nat.mod_lt _ hw
    have hsplit : 2 * stride k i * (p / (2 * stride k i)) + digit k d i * stride k i +
        p % stride k i =
          stride k i * (2 * (p / (2 * stride k i)) + digit k d i) + p % stride k i := by
      rw [Nat.mul_add, Nat.mul_comm (digit k d i), ← Nat.mul_assoc, Nat.mul_comm (stride k i) 2]
    rw [hsplit, Nat.mul_add_div hw, Nat.div_eq_of_lt hmod, Nat.add_zero]

theorem position_butterfly_last (hk : 1 ≤ k) (hs : s < 2 ^ k) (hd : d < 2 ^ k) :
    position k d butterflyEntry (butterflyExchange k) s (k - 1) = d / 2 := by
  have h := position_butterfly hs hd (i := k - 1) (by omega)
  have hlast : k - (k - 1) = 1 := by omega
  have hfirst : k - 1 - (k - 1) = 0 := by omega
  rwa [hlast, hfirst, Nat.pow_zero, Nat.div_one, Nat.pow_one] at h

/-! ### Destination tags -/

/-- With the destination without its last digit as last position, the route ends there. -/
theorem Wired.arrives (h : net.Wired k entry exchange) (hk : 1 ≤ k) (hs : s < 2 ^ k)
    (hd : d < 2 ^ k) (hlast : position k d entry exchange s (k - 1) = d / 2) :
    ∃ first, net.routerConnection s = some first ∧
      net.route (2 ^ k) d k first = some (.router d) := by
  refine ⟨.switch (entry s), h.input s hs, ?_⟩
  have hroute := h.route (i := 0) (n := k - 1) hs hd (by omega)
  have hk' : k - 1 + 1 = k := by omega
  have hdigit : digit k d (k - 1) = d % 2 := by
    unfold digit
    rw [Nat.sub_self, Nat.pow_zero, Nat.div_one]
  rw [hk', Nat.zero_mul, Nat.zero_add, hlast, hdigit, Nat.div_add_mod] at hroute
  exact hroute

/-- **Destination tags lead to the destination.** In the omega and in the butterfly
network with `2 ^ k` columns, from every source, following at each switch the output that
the digit of its column selects passes `k` switches and ends at the destination. -/
theorem tag_routes (k : ℕ) (hk : 1 ≤ k) (net : SwitchNetwork)
    (hnet : net = connectNOCElementsOmega (2 ^ k) ∨ net = connectNOCElementsButterfly (2 ^ k))
    (s d : ℕ) (hs : s < 2 ^ k) (hd : d < 2 ^ k) :
    ∃ first, net.routerConnection s = some first ∧
      net.route (2 ^ k) d k first = some (.router d) := by
  rcases hnet with rfl | rfl
  · exact (wired_omega hk).arrives hk hs hd (position_omega_last hk hd)
  · exact (wired_butterfly hk).arrives hk hs hd (position_butterfly_last hk hs hd)

/-- Eight columns, from the second to the sixth. -/
theorem tag_routes_eight : ∃ first,
    (connectNOCElementsButterfly (2 ^ 3)).routerConnection 1 = some first ∧
      (connectNOCElementsButterfly (2 ^ 3)).route (2 ^ 3) 5 3 first = some (.router 5) :=
  tag_routes 3 (by decide) _ (Or.inr rfl) 1 5 (by decide) (by decide)

end Tejas.SwitchNetwork
