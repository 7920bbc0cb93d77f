import Tejas.Assignments
import Mathlib.Data.Nat.Digits.Lemmas

/-!
# Omega and butterfly networks

`ConnectNOCElementsOmega`, `ConnectNOCElementsButterfly` and the helpers that wire the
first and the last column of switches. The switches are numbered by their place in
`switchList`, column after column. A message goes through one switch of each column, and
the switch of column `i` reads the `i`-th binary digit of the destination.
-/

namespace Tejas
open Assignments

/-- What a connection leads to: the router of a column, or a switch of `switchList`. -/
inductive NetworkElement where
  | router (column : ℕ)
  | switch (index : ℕ)
  deriving DecidableEq, Repr

/-- The wiring as the loops make it: the assignments to `connection[0]` of the routers, the
`level` of each switch, and the assignments to the connections of the switches. -/
structure SwitchNetwork where
  routers : List (ℕ × NetworkElement)
  levels : List ℕ
  connections : List ((ℕ × ℕ) × NetworkElement)

namespace SwitchNetwork

/-- `connection[0]` of a router. -/
def routerConnection (net : SwitchNetwork) (column : ℕ) : Option NetworkElement :=
  assigned net.routers column

/-- `connection[output]` of a switch. -/
def connection (net : SwitchNetwork) (index output : ℕ) : Option NetworkElement :=
  assigned net.connections (index, output)

/-! ### Omega -/

def connectInputOmega (bankColumns : ℕ) : SwitchNetwork where
  routers := (List.range (bankColumns / 2)).flatMap (fun i =>
    [(i, .switch i), (i + bankColumns / 2, .switch i)])
  levels := List.replicate (bankColumns / 2) 0
  connections := (List.range (bankColumns / 2)).flatMap (fun i =>
    [((i, 0), .router i), ((i, 1), .router (i + bankColumns / 2))])

/-- The shuffled connections from column `i` to the next. -/
def connectMiddleOmega (bankColumns i : ℕ) : List ((ℕ × ℕ) × NetworkElement) :=
  (List.range (bankColumns / 2)).flatMap (fun j =>
    [((i * bankColumns / 2 + j, 2),
        .switch ((i + 1) * bankColumns / 2 + 2 * j % (bankColumns / 2))),
      ((i * bankColumns / 2 + j, 3),
        .switch ((i + 1) * bankColumns / 2 + (2 * j + 1) % (bankColumns / 2)))])

/-- `connectOutputOmega`, and likewise `connectOutputButterfly`. -/
def connectOutput (bankColumns lastLevelStartingindex : ℕ) :
    List ((ℕ × ℕ) × NetworkElement) :=
  (List.range (bankColumns / 2)).flatMap (fun i =>
    [((i + lastLevelStartingindex, 2), .router (2 * i)),
      ((i + lastLevelStartingindex, 3), .router (2 * i + 1))])

/-- The columns of switches. The quotient of the logarithms is exact for powers of two. -/
def numberOfSwitchLevels (bankColumns : ℕ) : ℕ := Nat.log 2 bankColumns

/-- The levels of the switches that the loop over the columns adds. -/
def middleLevels (bankColumns : ℕ) : List ℕ :=
  (List.range (numberOfSwitchLevels bankColumns - 1)).flatMap (fun i =>
    List.replicate (bankColumns / 2) (i + 1))

def connectNOCElementsOmega (bankColumns : ℕ) : SwitchNetwork :=
  let input := connectInputOmega bankColumns
  { routers := input.routers
    levels := input.levels ++ middleLevels bankColumns
    connections := input.connections ++
      (List.range (numberOfSwitchLevels bankColumns - 1)).flatMap
        (connectMiddleOmega bankColumns) ++
      connectOutput bankColumns ((numberOfSwitchLevels bankColumns - 1) * bankColumns / 2) }

/-! ### Butterfly -/

def connectInputButterfly (bankColumns : ℕ) : SwitchNetwork where
  routers := (List.range (bankColumns / 2)).flatMap (fun i =>
    [(2 * i, .switch i), (2 * i + 1, .switch i)])
  levels := List.replicate (bankColumns / 2) 0
  connections := []

/-- The inner loop over `k`: two switches that are `stride` apart. -/
def butterflyBlock (bankColumns i stride j : ℕ) : List ((ℕ × ℕ) × NetworkElement) :=
  (List.range stride).flatMap (fun k =>
    [((i * bankColumns / 2 + j + k, 2), .switch ((i + 1) * bankColumns / 2 + j + k)),
      ((i * bankColumns / 2 + j + k, 3),
        .switch ((i + 1) * bankColumns / 2 + j + k + stride)),
      ((i * bankColumns / 2 + j + k + stride, 2),
        .switch ((i + 1) * bankColumns / 2 + j + k)),
      ((i * bankColumns / 2 + j + k + stride, 3),
        .switch ((i + 1) * bankColumns / 2 + j + k + stride))])

/-- The loop over `j`, which the body advances by `2 * k - 1` before the loop does. The
fuel bounds the passes. -/
def butterflyLoop (bankColumns i stride : ℕ) : ℕ → ℕ → List ((ℕ × ℕ) × NetworkElement)
  | 0, _ => []
  | fuel + 1, j =>
    if j < bankColumns / 2 then
      butterflyBlock bankColumns i stride j ++
        butterflyLoop bankColumns i stride fuel (j + 2 * stride - 1 + 1)
    else []

/-- The exchanged connections from column `i` to the next. -/
def connectMiddleButterfly (bankColumns i : ℕ) : List ((ℕ × ℕ) × NetworkElement) :=
  butterflyLoop bankColumns i (bankColumns / 2 ^ (i + 2)) (bankColumns / 2) 0

def connectNOCElementsButterfly (bankColumns : ℕ) : SwitchNetwork :=
  let input := connectInputButterfly bankColumns
  { routers := input.routers
    levels := input.levels ++ middleLevels bankColumns
    connections := input.connections ++
      (List.range (numberOfSwitchLevels bankColumns - 1)).flatMap
        (connectMiddleButterfly bankColumns) ++
      connectOutput bankColumns ((numberOfSwitchLevels bankColumns - 1) * bankColumns / 2) }

/-! ### The switches -/

/-- `Integer.toBinaryString`. -/
def toBinaryString (n : ℕ) : List Char :=
  if n = 0 then ['0'] else (Nat.digits 2 n).reverse.map (fun b => if b = 0 then '0' else '1')

/-- The binary digits of the destination, all of them. -/
def tag (numColumns elementNumber : ℕ) : List Char :=
  (toBinaryString (numColumns ||| elementNumber)).drop 1

/-- `nextIdbutterflyOmega`. `none` is the exception of `charAt`. -/
def nextIdbutterflyOmega (level : ℕ) (binary : List Char) : Option ℕ :=
  match binary[level]? with
  | none => none
  | some c => some (if c = '0' then 2 else 3)

/-- Where a switch sends a message for the column. -/
def nextElement (net : SwitchNetwork) (numColumns destination index : ℕ) :
    Option NetworkElement :=
  match net.levels[index]? with
  | none => none
  | some level =>
    match nextIdbutterflyOmega level (tag numColumns destination) with
    | none => none
    | some nextID => net.connection index nextID

/-- Follow the connections through as many switches. -/
def route (net : SwitchNetwork) (numColumns destination : ℕ) :
    ℕ → NetworkElement → Option NetworkElement
  | 0, e => some e
  | n + 1, .switch index =>
    match net.nextElement numColumns destination index with
    | none => none
    | some next => net.route numColumns destination n next
  | _ + 1, .router _ => none

/-! ### The digits of the destination -/

/-- The digit that column `i` of `k` columns reads. -/
def digit (k d i : ℕ) : ℕ := d / 2 ^ (k - 1 - i) % 2

theorem digit_lt (k d i : ℕ) : digit k d i < 2 := Nat.mod_lt _ (by decide)

theorem toBinaryString_getElem? {k d i : ℕ} (hd : d < 2 ^ k) (hi : i < k) :
    (tag (2 ^ k) d)[i]? = some (if digit k d i = 0 then '0' else '1') := by
  have hor : 2 ^ k ||| d = 2 ^ k + d := by
    have h := Nat.two_pow_add_eq_or_of_lt hd 1
    rw [Nat.mul_one] at h
    exact h.symm
  have hpos : 0 < 2 ^ k := Nat.two_pow_pos k
  have hlog : Nat.log 2 (2 ^ k + d) = k := by
    rw [Nat.log_eq_iff (Or.inr ⟨by decide, by omega⟩)]
    refine ⟨by omega, ?_⟩
    rw [Nat.pow_succ]
    omega
  have hlength : (Nat.digits 2 (2 ^ k + d)).length = k + 1 := by
    rw [Nat.length_digits 2 _ (by decide) (by omega), hlog]
  unfold tag toBinaryString
  rw [hor, if_neg (by omega), List.getElem?_drop, List.getElem?_map,
    List.getElem?_reverse (by omega), hlength]
  have hindex : k + 1 - 1 - (1 + i) = k - 1 - i := by omega
  rw [hindex]
  have hvalue : (Nat.digits 2 (2 ^ k + d))[k - 1 - i]? = some (digit k d i) := by
    have hget := Nat.getD_digits (2 ^ k + d) (k - 1 - i) (Nat.le_refl 2)
    have hlt : k - 1 - i < (Nat.digits 2 (2 ^ k + d)).length := by omega
    rw [List.getD_eq_getElem?_getD, List.getElem?_eq_getElem hlt, Option.getD_some] at hget
    rw [List.getElem?_eq_getElem hlt, hget]
    -- the leading one is an even multiple of the weight of the digit
    have hpow : 2 ^ k = 2 ^ (k - 1 - i) * (2 * 2 ^ i) := by
      rw [← Nat.mul_assoc, ← Nat.pow_succ, ← Nat.pow_add]
      congr 1
      omega
    have hweight : 0 < 2 ^ (k - 1 - i) := Nat.two_pow_pos _
    rw [hpow, Nat.mul_add_div hweight, Nat.mul_add_mod]
    rfl
  rw [hvalue]
  rfl

theorem nextId_digit {k d i : ℕ} (hd : d < 2 ^ k) (hi : i < k) :
    nextIdbutterflyOmega i (tag (2 ^ k) d) = some (2 + digit k d i) := by
  unfold nextIdbutterflyOmega
  rw [toBinaryString_getElem? hd hi]
  have hlt := digit_lt k d i
  dsimp only
  by_cases hzero : digit k d i = 0
  · rw [if_pos hzero, hzero]
    rfl
  · have hone : digit k d i = 1 := by omega
    rw [if_neg hzero, hone]
    rfl

/-- The leading digits of the destination, with the next one. -/
theorem leading_digits {k i d : ℕ} (hi : i < k) :
    d / 2 ^ (k - (i + 1)) = 2 * (d / 2 ^ (k - i)) + digit k d i := by
  have hpow : k - i = k - (i + 1) + 1 := by omega
  have hindex : k - 1 - i = k - (i + 1) := by omega
  unfold digit
  rw [hindex, hpow, Nat.pow_succ, ← Nat.div_div_eq_div_mul]
  omega

end SwitchNetwork

end Tejas
