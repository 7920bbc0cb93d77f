import Tejas.RangeTrees
import Mathlib.Data.Nat.Factorization.Basic
import Mathlib.Logic.Function.Iterate

/-!
# The fat tree

`ConnectNOCElementsFatTree` keeps a vector of nodes. It takes the last two, makes them the
children of a new switch and puts it in front, until one node is left. While the number
of nodes is even, a round over the vector pairs neighbours. When it is odd, the first
node of the round is paired with the last switch of the round, to the left of which it
belongs.
-/

namespace Tejas
open RangeTree

namespace FatTree

/-- `range[0]` of a switch, or the column of a router. -/
def range0 : RangeTree → ℕ
  | leaf c => c
  | switch low _ _ _ => low

/-- `range[1]` of a switch, or the column of a router. -/
def range1 : RangeTree → ℕ
  | leaf c => c
  | switch _ high _ _ => high

/-- The new switch over the last two nodes. -/
def newOne (left right : RangeTree) : RangeTree :=
  switch (range0 left) (range1 right) left right

/-- The body of the loop: the last node becomes the right child of a new switch, the one
before it the left, and the switch goes to the front. -/
def connectPair (nodes : List RangeTree) : List RangeTree :=
  match nodes.reverse with
  | right :: left :: rest => newOne left right :: rest.reverse
  | _ => nodes

/-- The loop, as long as more than one node is left. The fuel bounds the passes. -/
def connectLoop : ℕ → List RangeTree → List RangeTree
  | 0, nodes => nodes
  | fuel + 1, nodes =>
    let nodes' := connectPair nodes
    if nodes'.length > 1 then connectLoop fuel nodes' else nodes'

def connectNOCElementsFatTree (bankColumns : ℕ) : List RangeTree :=
  connectLoop bankColumns ((List.range bankColumns).map leaf)

/-- `nextIdFatTree`. -/
def nextIdFatTree (low high elementNumber : ℕ) : ℕ :=
  if elementNumber < low ∨ elementNumber > high then 0
  else if (low + high) / 2 < elementNumber then 1
  else 3

/-- One node is left, every range of it is the interval of the leaves below it and splits
at the middle, and the routes from every router find every other. -/
structure Routes (n : ℕ) (t : RangeTree) : Prop where
  root : connectNOCElementsFatTree n = [t]
  exact : t.Exact
  splits : t.SplitsInMiddle
  arrives : ∀ path s d, t.nodeAt path = some (leaf s) → d < n → t.Finds nextIdFatTree d path

theorem choosesByRange : ChoosesByRange nextIdFatTree where
  outside := by
    intro low high d h
    unfold nextIdFatTree
    rw [if_pos (by omega)]
  right := by
    intro low high d hlow hhigh hmiddle
    unfold nextIdFatTree
    rw [if_neg (by omega), if_pos hmiddle]
  left := by
    intro low high d hlow hhigh hmiddle
    unfold nextIdFatTree
    rw [if_neg (by omega), if_neg (by omega)]

variable {nodes front : List RangeTree} {pairs : List (RangeTree × RangeTree)}
  {l r t : RangeTree} {n m k a : ℕ}

/-! ### Rounds of the loop -/

theorem connectPair_append (front : List RangeTree) (l r : RangeTree) :
    connectPair (front ++ [l, r]) = newOne l r :: front := by
  unfold connectPair
  simp

theorem length_connectPair (h : 1 < nodes.length) :
    (connectPair nodes).length + 1 = nodes.length := by
  unfold connectPair
  have hreverse : nodes.reverse.length = nodes.length := List.length_reverse
  split
  · rename_i right left rest heq
    rw [heq] at hreverse
    simp only [List.length_cons, List.length_reverse] at hreverse ⊢
    omega
  · rename_i hshort
    cases hnodes : nodes.reverse with
    | nil =>
      rw [hnodes] at hreverse
      simp only [List.length_nil] at hreverse
      omega
    | cons x rest =>
      cases rest with
      | nil =>
        rw [hnodes] at hreverse
        simp only [List.length_cons, List.length_nil] at hreverse
        omega
      | cons y rest => exact absurd hnodes (hshort x y rest)

/-- The loop makes one pass fewer than there are nodes. -/
theorem connectLoop_eq {fuel : ℕ} (hlength : 1 < nodes.length) (hfuel : nodes.length ≤ fuel + 1) :
    connectLoop fuel nodes = connectPair^[nodes.length - 1] nodes := by
  induction fuel generalizing nodes with
  | zero => omega
  | succ fuel ih =>
    have hshorter := length_connectPair hlength
    have hpasses : nodes.length - 1 = (connectPair nodes).length - 1 + 1 := by omega
    rw [connectLoop, hpasses, Function.iterate_succ_apply]
    split
    · rename_i hmore
      exact ih hmore (by omega)
    · rename_i hlast
      have hzero : (connectPair nodes).length - 1 = 0 := by omega
      rw [hzero, Function.iterate_zero_apply]

/-- A round over pairs of nodes joins each pair, in order, in front of what precedes them. -/
theorem connectPair_iterate (front : List RangeTree) (pairs : List (RangeTree × RangeTree)) :
    connectPair^[pairs.length] (front ++ pairs.flatMap (fun p => [p.1, p.2])) =
      pairs.map (fun p => newOne p.1 p.2) ++ front := by
  induction pairs using List.reverseRecOn generalizing front with
  | nil => simp
  | append_singleton pairs p ih =>
    have hlength : (pairs ++ [p]).length = pairs.length + 1 := by simp
    rw [hlength, Function.iterate_succ_apply, List.flatMap_append, ← List.append_assoc]
    have hlast : [p].flatMap (fun p : RangeTree × RangeTree => [p.1, p.2]) = [p.1, p.2] := rfl
    rw [hlast, connectPair_append, ← List.cons_append, ih]
    simp

/-- A switch with a wrong range stays in the tree. -/
theorem not_exact_connectPair (hlength : 1 < nodes.length) (h : ∃ t ∈ nodes, ¬ t.Exact) :
    ∃ t ∈ connectPair nodes, ¬ t.Exact := by
  obtain ⟨t, ht, hwrong⟩ := h
  have hmem : t ∈ nodes.reverse := List.mem_reverse.mpr ht
  have hshorter := length_connectPair hlength
  unfold connectPair at hshorter ⊢
  split
  · rename_i right left rest heq
    rw [heq] at hmem
    have hover : ∀ x, x = left ∨ x = right → ¬ x.Exact → ¬ (newOne left right).Exact := by
      intro x hx hnot hexact
      obtain ⟨-, hl, hr⟩ := hexact
      rcases hx with rfl | rfl
      · exact hnot hl
      · exact hnot hr
    rcases List.mem_cons.mp hmem with rfl | hmem
    · exact ⟨_, List.mem_cons_self, hover t (Or.inr rfl) hwrong⟩
    · rcases List.mem_cons.mp hmem with rfl | hmem
      · exact ⟨_, List.mem_cons_self, hover t (Or.inl rfl) hwrong⟩
      · exact ⟨t, List.mem_cons_of_mem _ (List.mem_reverse.mpr hmem), hwrong⟩
  · rename_i hshort
    split at hshorter
    · rename_i right left rest heq
      exact absurd heq (hshort right left rest)
    · omega

theorem not_exact_iterate (k : ℕ) (hlength : k < nodes.length) (h : ∃ t ∈ nodes, ¬ t.Exact) :
    ∃ t ∈ connectPair^[k] nodes, ¬ t.Exact := by
  induction k generalizing nodes with
  | zero => exact h
  | succ k ih =>
    rw [Function.iterate_succ_apply]
    have hmany : 1 < nodes.length := by omega
    have hshorter := length_connectPair hmany
    exact ih (by omega) (not_exact_connectPair (by omega) h)

/-! ### Perfect trees -/

/-- The tree over `2 ^ k` columns that the rounds build. -/
def perfect : ℕ → ℕ → RangeTree
  | 0, first => leaf first
  | k + 1, first => newOne (perfect k first) (perfect k (first + 2 ^ k))

theorem range0_perfect (k first : ℕ) : range0 (perfect k first) = first := by
  induction k generalizing first with
  | zero => rfl
  | succ k ih => exact ih first

theorem range1_perfect (k first : ℕ) : range1 (perfect k first) = first + 2 ^ k - 1 := by
  induction k generalizing first with
  | zero => rfl
  | succ k ih =>
    have hstep : range1 (perfect (k + 1) first) = range1 (perfect k (first + 2 ^ k)) := rfl
    rw [hstep, ih, Nat.pow_succ]
    omega

theorem mem_leaves_perfect (k first c : ℕ) :
    c ∈ (perfect k first).leaves ↔ first ≤ c ∧ c < first + 2 ^ k := by
  induction k generalizing first with
  | zero =>
    rw [perfect, leaves, List.mem_singleton]
    omega
  | succ k ih =>
    have hleaves : (perfect (k + 1) first).leaves =
        (perfect k first).leaves ++ (perfect k (first + 2 ^ k)).leaves := rfl
    rw [hleaves, List.mem_append, ih, ih, Nat.pow_succ]
    omega

theorem exact_perfect (k first : ℕ) : (perfect k first).Exact := by
  induction k generalizing first with
  | zero => trivial
  | succ k ih =>
    refine ⟨?_, ih first, ih (first + 2 ^ k)⟩
    intro c
    have hpos : 0 < 2 ^ k := Nat.two_pow_pos k
    rw [List.mem_append, mem_leaves_perfect, mem_leaves_perfect, range0_perfect, range1_perfect]
    omega

theorem splitsInMiddle_perfect (k first : ℕ) : (perfect k first).SplitsInMiddle := by
  induction k generalizing first with
  | zero => trivial
  | succ k ih =>
    have hpos : 0 < 2 ^ k := Nat.two_pow_pos k
    refine ⟨⟨?_, ?_⟩, ih first, ih (first + 2 ^ k)⟩
    · intro c hc
      rw [mem_leaves_perfect] at hc
      rw [range0_perfect, range1_perfect]
      omega
    · intro c hc
      rw [mem_leaves_perfect] at hc
      rw [range0_perfect, range1_perfect]
      omega

/-- The nodes after `a` rounds. -/
def row (a m : ℕ) : List RangeTree := (List.range m).map (fun q => perfect a (q * 2 ^ a))

/-- Neighbours of a row. -/
def neighbours (a first m : ℕ) : List (RangeTree × RangeTree) :=
  (List.range m).map (fun q => (perfect a ((first + 2 * q) * 2 ^ a),
    perfect a ((first + 2 * q + 1) * 2 ^ a)))

theorem length_neighbours (a first m : ℕ) : (neighbours a first m).length = m := by
  unfold neighbours
  rw [List.length_map, List.length_range]

/-- A row is what precedes some place and the pairs from there on. -/
theorem row_split (a first m : ℕ) : row a (first + 2 * m) =
    row a first ++ (neighbours a first m).flatMap (fun p => [p.1, p.2]) := by
  induction m with
  | zero => simp [neighbours]
  | succ m ih =>
    have hsum : first + 2 * (m + 1) = first + 2 * m + 1 + 1 := by omega
    have hneighbours : neighbours a first (m + 1) = neighbours a first m ++
        [(perfect a ((first + 2 * m) * 2 ^ a), perfect a ((first + 2 * m + 1) * 2 ^ a))] := by
      unfold neighbours
      rw [List.range_succ, List.map_append]
      rfl
    have hrow : row a (first + 2 * m + 1 + 1) = row a (first + 2 * m) ++
        [perfect a ((first + 2 * m) * 2 ^ a), perfect a ((first + 2 * m + 1) * 2 ^ a)] := by
      unfold row
      rw [List.range_succ, List.range_succ, List.map_append, List.map_append, List.append_assoc]
      rfl
    rw [hsum, hrow, ih, hneighbours, List.flatMap_append, List.append_assoc]
    rfl

/-- A round over an even row gives the next row. -/
theorem round_even (a m : ℕ) : connectPair^[m] (row a (2 * m)) = row (a + 1) m := by
  have hround := connectPair_iterate [] (neighbours a 0 m)
  have hsplit := row_split a 0 m
  have hempty : row a 0 = [] := rfl
  rw [hempty, Nat.zero_add] at hsplit
  rw [length_neighbours, ← hsplit] at hround
  rw [hround, List.append_nil]
  unfold neighbours row
  rw [List.map_map]
  apply List.map_congr_left
  intro q _
  have hfirst : q * 2 ^ (a + 1) = 2 * q * 2 ^ a := by
    rw [Nat.pow_succ, Nat.mul_comm (2 ^ a), ← Nat.mul_assoc, Nat.mul_comm q]
  have hsecond : (2 * q + 1) * 2 ^ a = q * 2 ^ (a + 1) + 2 ^ a := by
    rw [hfirst, Nat.add_mul, Nat.one_mul]
  dsimp only [Function.comp]
  rw [Nat.zero_add, ← hfirst, hsecond]
  rfl

/-- A round over an odd row, and the pass after it, join the last switch of the round with
the first node. -/
theorem round_odd (a m : ℕ) (hm : 1 ≤ m) : ∃ front l, range0 l = (2 * m - 1) * 2 ^ a ∧
    connectPair^[m + 1] (row a (1 + 2 * m)) = newOne l (perfect a 0) :: front := by
  have hround := connectPair_iterate (row a 1) (neighbours a 1 m)
  rw [length_neighbours, ← row_split] at hround
  have hlast : neighbours a 1 m = neighbours a 1 (m - 1) ++
      [(perfect a ((1 + 2 * (m - 1)) * 2 ^ a), perfect a ((1 + 2 * (m - 1) + 1) * 2 ^ a))] := by
    have hm' : m = m - 1 + 1 := by omega
    conv_lhs => rw [hm']
    unfold neighbours
    rw [List.range_succ, List.map_append]
    rfl
  have hone : row a 1 = [perfect a 0] := by
    unfold row
    simp
  rw [Function.iterate_succ_apply', hround, hlast, hone, List.map_append, List.append_assoc]
  refine ⟨_, _, ?_, connectPair_append _ _ _⟩
  have hindex : 1 + 2 * (m - 1) = 2 * m - 1 := by omega
  show range0 (perfect a ((1 + 2 * (m - 1)) * 2 ^ a)) = _
  rw [range0_perfect, hindex]

/-! ### Powers of two -/

theorem rounds_even (a b m : ℕ) :
    ∃ c, c + m = 2 ^ b * m ∧ connectPair^[c] (row a (2 ^ b * m)) = row (a + b) m := by
  induction b generalizing a with
  | zero =>
    refine ⟨0, by simp, ?_⟩
    rw [Nat.pow_zero, Nat.one_mul, Nat.add_zero]
    rfl
  | succ b ih =>
    obtain ⟨c, hc, hrounds⟩ := ih (a + 1)
    have hdouble : 2 ^ (b + 1) * m = 2 * (2 ^ b * m) := by
      rw [Nat.pow_succ, Nat.mul_comm (2 ^ b), Nat.mul_assoc]
    refine ⟨c + 2 ^ b * m, by omega, ?_⟩
    rw [Function.iterate_add_apply, hdouble, round_even, hrounds]
    congr 1
    omega

theorem row_zero (n : ℕ) : row 0 n = (List.range n).map leaf := by
  unfold row
  apply List.map_congr_left
  intro q _
  rw [Nat.pow_zero, Nat.mul_one]
  rfl

theorem connect_eq (hn : 2 ≤ n) :
    connectNOCElementsFatTree n = connectPair^[n - 1] (row 0 n) := by
  have hlength : (row 0 n).length = n := by
    rw [row_zero, List.length_map, List.length_range]
  unfold connectNOCElementsFatTree
  rw [← row_zero, connectLoop_eq (by omega) (by omega), hlength]

theorem routes_of_pow (hn : 2 ≤ n) (h : n = 2 ^ k) : Routes n (perfect k 0) where
  root := by
    obtain ⟨c, hc, hrounds⟩ := rounds_even 0 k 1
    rw [Nat.mul_one] at hc hrounds
    have hpasses : n - 1 = c := by omega
    rw [connect_eq hn, hpasses, h, hrounds, Nat.zero_add]
    unfold row
    simp
  exact := exact_perfect k 0
  splits := splitsInMiddle_perfect k 0
  arrives := by
    intro path s d hpath hd
    refine finds_of_exact choosesByRange (exact_perfect k 0) (splitsInMiddle_perfect k 0) ?_ hpath
    rw [mem_leaves_perfect]
    omega

/-- A switch over a node to the right of the first columns and the first columns has no
interval as its range. -/
theorem not_exact_of_crossed (hcrossed : 2 ^ a ≤ range0 l) : ¬ (newOne l (perfect a 0)).Exact := by
  intro h
  have hrange := h.1 0
  rw [range1_perfect] at hrange
  have hpos : 0 < 2 ^ a := Nat.two_pow_pos a
  have hzero : 0 ∈ l.leaves ++ (perfect a 0).leaves := by
    rw [List.mem_append, mem_leaves_perfect]
    omega
  have hlow := (hrange.mp hzero).1
  omega

theorem not_exact_of_odd (hn : 2 ≤ n) (hodd : n = 2 ^ a * (1 + 2 * m)) (hm : 1 ≤ m) :
    ∃ t ∈ connectNOCElementsFatTree n, ¬ t.Exact := by
  obtain ⟨c, hc, hrounds⟩ := rounds_even 0 a (1 + 2 * m)
  obtain ⟨front, l, hl, hround⟩ := round_odd a m hm
  rw [Nat.zero_add] at hrounds
  have hpasses : n - 1 = (n - 1 - (m + 1 + c)) + (m + 1 + c) := by omega
  have hlength : (row 0 n).length = n := by
    rw [row_zero, List.length_map, List.length_range]
  have hreached : connectPair^[m + 1 + c] (row 0 n) = newOne l (perfect a 0) :: front := by
    rw [Function.iterate_add_apply, hodd, hrounds, hround]
  have hremaining : ∀ k, k < n → (connectPair^[k] (row 0 n)).length + k = n := by
    intro k hk
    induction k with
    | zero => exact hlength
    | succ k ih =>
      have hbefore := ih (by omega)
      rw [Function.iterate_succ_apply']
      have hmany : 1 < (connectPair^[k] (row 0 n)).length := by omega
      have hshorter := length_connectPair hmany
      omega
  have hleft := hremaining (m + 1 + c) (by omega)
  rw [connect_eq hn, hpasses, Function.iterate_add_apply, hreached]
  rw [hreached] at hleft
  refine not_exact_iterate _ (by omega) ⟨_, List.mem_cons_self, not_exact_of_crossed ?_⟩
  rw [hl]
  calc 2 ^ a = 1 * 2 ^ a := (Nat.one_mul _).symm
    _ ≤ (2 * m - 1) * 2 ^ a := Nat.mul_le_mul_right _ (by omega)

/-- **The fat tree routes exactly for powers of two.** With at least two columns, the tree
has exact ranges that split in the middle, and routes from every router to every other,
if and only if the number of columns is a power of two. -/
theorem routes_iff (n : ℕ) (hn : 2 ≤ n) : (∃ t, Routes n t) ↔ ∃ k, n = 2 ^ k := by
  constructor
  · intro h
    obtain ⟨t, ht⟩ := h
    obtain ⟨a, m, hm, hna⟩ := Nat.exists_eq_two_pow_mul_odd (show n ≠ 0 by omega)
    obtain ⟨j, hj⟩ := hm
    by_cases hone : j = 0
    · refine ⟨a, ?_⟩
      rw [hna, hj, hone]
      omega
    · exfalso
      obtain ⟨u, hu, hwrong⟩ := not_exact_of_odd (m := j) hn (by rw [hna, hj, Nat.add_comm])
        (by omega)
      rw [ht.root, List.mem_singleton] at hu
      rw [hu] at hwrong
      exact hwrong ht.exact
  · intro h
    obtain ⟨k, hk⟩ := h
    exact ⟨_, routes_of_pow hn hk⟩

/-- Eight columns. -/
theorem routes_eight : (∃ t, Routes 8 t) ↔ ∃ k, 8 = 2 ^ k :=
  routes_iff 8 (by decide)

/-- With three columns the root covers the columns from 1 to 0. -/
theorem not_routes_three : ¬ ∃ t, Routes 3 t := by
  intro h
  obtain ⟨t, ht⟩ := h
  have hroot : connectNOCElementsFatTree 3 =
      [switch 1 0 (switch 1 2 (leaf 1) (leaf 2)) (leaf 0)] := by decide
  have htree := ht.root
  rw [hroot] at htree
  cases htree
  have hzero := (ht.exact.1 0).mp (by decide)
  exact absurd hzero.1 (by decide)

end FatTree

end Tejas
