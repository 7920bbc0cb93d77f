import Mathlib.Data.List.Induction
import Mathlib.Data.Nat.Bitwise
import Mathlib.Logic.Function.Basic

/-!
# Tables of histories and of counters

Accesses have an address and an outcome. The address chooses a register, which holds the
latest outcomes of its accesses as a number with the newest in the lowest bit. The address and
the register choose a saturating counter, which the outcome moves up or down. The first
contents are the same for all registers and for all counters.
-/

namespace Tejas.TwoLevelTables

universe u v w

/-- How accesses are spread over registers and counters. -/
structure Scheme (A : Type u) (K : Type v) (I : Type w) where
  bits : ℕ
  top : ℕ
  start : ℕ
  key : A → K
  index : A → ℕ → I

/-- An outcome enters a register of `n` bits. -/
def shiftIn (n history : ℕ) (outcome : Bool) : ℕ := (history * 2 + outcome.toNat) % 2 ^ n

/-- A counter between 0 and `top` after an outcome. -/
def saturate (top count : ℕ) (outcome : Bool) : ℕ :=
  if outcome then min (count + 1) top else count - 1

structure Tables (K : Type v) (I : Type w) where
  registers : K → ℕ
  counters : I → ℕ

variable {A : Type u} {K : Type v} {I : Type w} [DecidableEq K]
  {s : Scheme A K I} {n i start : ℕ} {outcomes : List Bool}

/-! ### What the tables are expected to hold -/

namespace Scheme

variable (s)

/-- The outcomes of the accesses that share a register. -/
def outcomesOf (accesses : List (A × Bool)) (k : K) : List Bool :=
  (accesses.filter (fun a => s.key a.1 = k)).map Prod.snd

/-- The latest outcomes of the accesses that share a register, as a number. -/
def history (accesses : List (A × Bool)) (k : K) : ℕ :=
  (s.outcomesOf accesses k).foldl (shiftIn s.bits) s.start

variable [DecidableEq I]

/-- The outcomes that a counter is trained with by the accesses after `before`. -/
def trainedAfter (before : List (A × Bool)) : List (A × Bool) → I → List Bool
  | [], _ => []
  | a :: rest, i =>
    (if s.index a.1 (s.history before (s.key a.1)) = i then [a.2] else []) ++
      trainedAfter (before ++ [a]) rest i

/-- The outcomes that a counter has been trained with. -/
def trainedAt (accesses : List (A × Bool)) (i : I) : List Bool := s.trainedAfter [] accesses i

/-- The saturating count of the outcomes that a counter has been trained with. -/
def count (accesses : List (A × Bool)) (i : I) : ℕ :=
  (s.trainedAt accesses i).foldl (saturate s.top) s.top

def initial : Tables K I := ⟨fun _ => s.start, fun _ => s.top⟩

/-- The counter is trained, then the outcome enters the register. -/
def train (t : Tables K I) (a : A × Bool) : Tables K I where
  registers := Function.update t.registers (s.key a.1)
    (shiftIn s.bits (t.registers (s.key a.1)) a.2)
  counters := Function.update t.counters (s.index a.1 (t.registers (s.key a.1)))
    (saturate s.top (t.counters (s.index a.1 (t.registers (s.key a.1)))) a.2)

end Scheme

/-! ### The tables hold it -/

namespace Scheme

theorem outcomesOf_append_singleton (accesses : List (A × Bool)) (a : A × Bool) (k : K) :
    s.outcomesOf (accesses ++ [a]) k =
      s.outcomesOf accesses k ++ if s.key a.1 = k then [a.2] else [] := by
  rw [outcomesOf, List.filter_append, List.map_append, outcomesOf]
  by_cases h : s.key a.1 = k <;> simp [h]

theorem history_append_singleton (accesses : List (A × Bool)) (a : A × Bool) :
    s.history (accesses ++ [a]) = Function.update (s.history accesses) (s.key a.1)
      (shiftIn s.bits (s.history accesses (s.key a.1)) a.2) := by
  funext k
  rw [history, outcomesOf_append_singleton, List.foldl_append]
  by_cases h : k = s.key a.1
  · subst h
    rw [if_pos rfl, Function.update_self]
    rfl
  · rw [if_neg (Ne.symm h), Function.update_of_ne h]
    rfl

variable [DecidableEq I]

theorem trainedAfter_append (before accesses more : List (A × Bool)) (i : I) :
    s.trainedAfter before (accesses ++ more) i =
      s.trainedAfter before accesses i ++ s.trainedAfter (before ++ accesses) more i := by
  induction accesses generalizing before with
  | nil => simp [trainedAfter]
  | cons a rest ih =>
    rw [List.cons_append, trainedAfter, trainedAfter, ih, List.append_assoc, List.append_assoc,
      List.singleton_append]

theorem count_append_singleton (accesses : List (A × Bool)) (a : A × Bool) :
    s.count (accesses ++ [a]) =
      Function.update (s.count accesses) (s.index a.1 (s.history accesses (s.key a.1)))
        (saturate s.top (s.count accesses (s.index a.1 (s.history accesses (s.key a.1))))
          a.2) := by
  funext i
  rw [count, trainedAt, trainedAfter_append, List.foldl_append, List.nil_append, trainedAfter,
    trainedAfter, List.append_nil]
  by_cases h : i = s.index a.1 (s.history accesses (s.key a.1))
  · subst h
    rw [if_pos rfl, Function.update_self]
    rfl
  · rw [if_neg (Ne.symm h), Function.update_of_ne h]
    rfl

theorem train_registers (t : Tables K I) (address : A) (outcome : Bool) :
    (s.train t (address, outcome)).registers = Function.update t.registers (s.key address)
      (shiftIn s.bits (t.registers (s.key address)) outcome) := rfl

theorem train_counters (t : Tables K I) (address : A) (outcome : Bool) :
    (s.train t (address, outcome)).counters =
      Function.update t.counters (s.index address (t.registers (s.key address)))
        (saturate s.top (t.counters (s.index address (t.registers (s.key address)))) outcome) :=
  rfl

/-- One step of training. -/
theorem train_expected (accesses : List (A × Bool)) (a : A × Bool) :
    s.train ⟨s.history accesses, s.count accesses⟩ a =
      ⟨s.history (accesses ++ [a]), s.count (accesses ++ [a])⟩ := by
  rw [history_append_singleton, count_append_singleton]
  rfl

end Scheme

/-! ### Bits and bounds -/

theorem shiftIn_lt (n history : ℕ) (outcome : Bool) : shiftIn n history outcome < 2 ^ n :=
  Nat.mod_lt _ (Nat.two_pow_pos n)

theorem testBit_shiftIn_zero (hn : 0 < n) (history : ℕ) (outcome : Bool) :
    (shiftIn n history outcome).testBit 0 = outcome := by
  rw [shiftIn, Nat.testBit_mod_two_pow, decide_eq_true hn, Bool.true_and, Nat.testBit_zero]
  cases outcome <;> simp

theorem testBit_shiftIn_succ (hi : i + 1 < n) (history : ℕ) (outcome : Bool) :
    (shiftIn n history outcome).testBit (i + 1) = history.testBit i := by
  have hhalf : (history * 2 + outcome.toNat) / 2 = history := by
    have := Bool.toNat_le outcome
    omega
  rw [shiftIn, Nat.testBit_mod_two_pow, decide_eq_true hi, Bool.true_and, Nat.testBit_succ,
    hhalf]

/-- The lowest bit is the newest outcome, and what has not been shifted out of the first
contents stands above the outcomes. -/
theorem testBit_foldl_shiftIn (hi : i < n) :
    (outcomes.foldl (shiftIn n) start).testBit i =
      (outcomes.reverse[i]?).getD (start.testBit (i - outcomes.length)) := by
  induction outcomes using List.reverseRecOn generalizing i with
  | nil => simp
  | append_singleton outcomes outcome ih =>
    rw [List.foldl_append, List.foldl_cons, List.foldl_nil, List.reverse_append,
      List.reverse_singleton, List.singleton_append]
    cases i with
    | zero => simpa using testBit_shiftIn_zero hi _ outcome
    | succ i =>
      rw [testBit_shiftIn_succ hi, ih (by omega), List.getElem?_cons_succ, List.length_append,
        List.length_singleton, Nat.add_sub_add_right]

theorem saturate_le {top count : ℕ} (h : count ≤ top) (outcome : Bool) :
    saturate top count outcome ≤ top := by
  rw [saturate]
  split <;> omega

end Tejas.TwoLevelTables
