import Mathlib.Logic.Function.Basic

/-!
# Peterson's lock as single reads and writes

Two parties share an array of words. A call of `get_lock` is a list of single
accesses: raise the own flag, give the turn away, then read the other flag and the
turn until one of them lets the party in. A party's code is a record of the words
and the values it uses, and two codes exclude each other when the records mirror
each other.
-/

namespace Tejas.Peterson

universe u v

variable {W : Type u} {V : Type v}

/-- The words and values one party's `get_lock` and `release_lock` use. -/
structure LockCode (W : Type u) (V : Type v) where
  flag : W
  turn : W
  otherFlag : W
  up : V
  down : V
  gives : V
  waitsUp : V
  waitsFor : V

/-- Where a party stands: before `get_lock`, after its first write, in front of either
read of the waiting loop, or between `get_lock` and `release_lock`. -/
inductive Stage
  | outside | raised | gave | saw | inside
  deriving DecidableEq, Repr

/-- The party has given the turn away in its current call. -/
def Stage.Asks : Stage → Prop
  | .outside | .raised => False
  | .gave | .saw | .inside => True

@[simp] theorem Stage.not_asks_outside : ¬ Stage.outside.Asks := id

@[simp] theorem Stage.not_asks_raised : ¬ Stage.raised.Asks := id

@[simp] theorem Stage.asks_gave : Stage.gave.Asks := trivial

@[simp] theorem Stage.asks_saw : Stage.saw.Asks := trivial

@[simp] theorem Stage.asks_inside : Stage.inside.Asks := trivial

section Code

variable [DecidableEq W] [DecidableEq V]

/-- The next single access of a party: a write or a read of one shared word. -/
def LockCode.advance (c : LockCode W V) (words : W → V) : Stage → (W → V) × Stage
  | .outside => (Function.update words c.flag c.up, .raised)
  | .raised => (Function.update words c.turn c.gives, .gave)
  | .gave => (words, if words c.otherFlag = c.waitsUp then .saw else .inside)
  | .saw => (words, if words c.turn = c.waitsFor then .gave else .inside)
  | .inside => (Function.update words c.flag c.down, .outside)

/-- A party touches only its own flag and the turn. -/
theorem LockCode.advance_frame (c : LockCode W V) (words : W → V) (stage : Stage) {w : W}
    (hflag : w ≠ c.flag) (hturn : w ≠ c.turn) : (c.advance words stage).1 w = words w := by
  cases stage <;> simp [advance, hflag, hturn]

end Code

/-- The code of `a` reads what the code of `b` writes, and each gives the turn to the
other. -/
structure Mirrors (a b : LockCode W V) : Prop where
  otherFlag : a.otherFlag = b.flag
  waitsUp : a.waitsUp = b.up
  turn : a.turn = b.turn
  waitsFor : a.waitsFor = a.gives
  gives : a.gives ≠ b.gives
  down : a.down ≠ a.up
  flags : a.flag ≠ b.flag
  flagTurn : a.flag ≠ a.turn

/-- What the words say about the two stages. A party's flag is only relied on while it
is kept: nobody else has written it since the party raised it. -/
structure Excludes (a b : LockCode W V) (words : W → V) (sa sb : Stage) (ka kb : Prop) :
    Prop where
  flagA : ka → (words a.flag = a.up ↔ sa ≠ .outside)
  flagB : kb → (words b.flag = b.up ↔ sb ≠ .outside)
  turnA : sa.Asks → words a.turn = a.gives ∨ words a.turn = b.gives
  turnB : sb.Asks → words a.turn = a.gives ∨ words a.turn = b.gives
  yieldA : ka → kb → sa = .inside → sb.Asks → words a.turn = b.gives
  yieldB : ka → kb → sb = .inside → sa.Asks → words a.turn = a.gives

namespace Excludes

variable {a b : LockCode W V} {words words' : W → V} {sa sb : Stage} {ka kb : Prop}

theorem symm (hab : Mirrors a b) (h : Excludes a b words sa sb ka kb) :
    Excludes b a words sb sa kb ka where
  flagA := h.flagB
  flagB := h.flagA
  turnA := fun hs => hab.turn ▸ (h.turnB hs).symm
  turnB := fun hs => hab.turn ▸ (h.turnA hs).symm
  yieldA := fun hb ha => hab.turn ▸ h.yieldB ha hb
  yieldB := fun hb ha => hab.turn ▸ h.yieldA ha hb

/-- Two parties whose flags are kept are never both inside. -/
theorem not_both_inside (hab : Mirrors a b) (h : Excludes a b words sa sb ka kb) (ha : ka)
    (hb : kb) : ¬ (sa = .inside ∧ sb = .inside) := by
  intro hin
  obtain ⟨hina, hinb⟩ := hin
  have toB : words a.turn = b.gives := h.yieldA ha hb hina (by rw [hinb]; trivial)
  have toA : words a.turn = a.gives := h.yieldB ha hb hinb (by rw [hina]; trivial)
  exact hab.gives (toA.symm.trans toB)

/-- The other words of the array are free to change. -/
theorem frame (h : Excludes a b words sa sb ka kb)
    (hfa : words' a.flag = words a.flag) (hfb : words' b.flag = words b.flag)
    (ht : words' a.turn = words a.turn) : Excludes a b words' sa sb ka kb where
  flagA := by rw [hfa]; exact h.flagA
  flagB := by rw [hfb]; exact h.flagB
  turnA := by rw [ht]; exact h.turnA
  turnB := by rw [ht]; exact h.turnB
  yieldA := by rw [ht]; exact h.yieldA
  yieldB := by rw [ht]; exact h.yieldB

/-- Reading the other flag and staying in the loop. -/
theorem look (h : Excludes a b words .gave sb ka kb) : Excludes a b words .saw sb ka kb where
  flagA := by simpa using h.flagA
  flagB := h.flagB
  turnA := by simpa using h.turnA
  turnB := h.turnB
  yieldA := by simp
  yieldB := by simpa using h.yieldB

/-- Reading the turn and going round again. -/
theorem again (h : Excludes a b words .saw sb ka kb) : Excludes a b words .gave sb ka kb where
  flagA := by simpa using h.flagA
  flagB := h.flagB
  turnA := by simpa using h.turnA
  turnB := h.turnB
  yieldA := by simp
  yieldB := by simpa using h.yieldB

/-- Entering because the other flag was down: the other party is outside. -/
theorem enter_down (h : Excludes a b words .gave sb ka kb) (hdown : words b.flag ≠ b.up) :
    Excludes a b words .inside sb ka kb where
  flagA := by simpa using h.flagA
  flagB := h.flagB
  turnA := by simpa using h.turnA
  turnB := h.turnB
  yieldA := by
    intro _ hb _ hasks
    exfalso
    cases hsb : sb with
    | outside => simp [hsb] at hasks
    | raised => simp [hsb] at hasks
    | gave | saw | inside => exact hdown ((h.flagB hb).mpr (by simp [hsb]))
  yieldB := by
    intro _ hb hin _
    exact absurd ((h.flagB hb).mpr (by simp [hin])) hdown

/-- Entering because the turn was given back: the other party still has to wait. -/
theorem enter_turn (h : Excludes a b words .saw sb ka kb) (hturn : words a.turn ≠ a.gives) :
    Excludes a b words .inside sb ka kb where
  flagA := by simpa using h.flagA
  flagB := h.flagB
  turnA := by simpa using h.turnA
  turnB := h.turnB
  yieldA := fun _ _ _ _ => (h.turnA trivial).resolve_left hturn
  yieldB := fun ha hb hin _ => absurd (h.yieldB ha hb hin trivial) hturn

section Writes

variable [DecidableEq W]

/-- Raising the own flag. -/
theorem raise (hab : Mirrors a b) (h : Excludes a b words .outside sb ka kb) :
    Excludes a b (Function.update words a.flag a.up) .raised sb ka kb := by
  have hturn : Function.update words a.flag a.up a.turn = words a.turn :=
    Function.update_of_ne hab.flagTurn.symm _ _
  have hflag : Function.update words a.flag a.up b.flag = words b.flag :=
    Function.update_of_ne hab.flags.symm _ _
  exact
    { flagA := by simp
      flagB := by rw [hflag]; exact h.flagB
      turnA := by simp
      turnB := by rw [hturn]; exact h.turnB
      yieldA := by simp
      yieldB := by simp }

/-- Giving the turn away. -/
theorem give (hab : Mirrors a b) (hba : Mirrors b a)
    (h : Excludes a b words .raised sb ka kb) :
    Excludes a b (Function.update words a.turn a.gives) .gave sb ka kb := by
  have hflagA : Function.update words a.turn a.gives a.flag = words a.flag :=
    Function.update_of_ne hab.flagTurn _ _
  have hflagB : Function.update words a.turn a.gives b.flag = words b.flag :=
    Function.update_of_ne (hab.turn ▸ hba.flagTurn) _ _
  exact
    { flagA := by rw [hflagA]; simpa using h.flagA
      flagB := by rw [hflagB]; exact h.flagB
      turnA := by simp
      turnB := by simp
      yieldA := by simp
      yieldB := by simp }

/-- Lowering the own flag. Whoever wrote the flag before, it is kept again. -/
theorem lower (hab : Mirrors a b) (h : Excludes a b words .inside sb ka kb) :
    Excludes a b (Function.update words a.flag a.down) .outside sb True kb := by
  have hturn : Function.update words a.flag a.down a.turn = words a.turn :=
    Function.update_of_ne hab.flagTurn.symm _ _
  have hflag : Function.update words a.flag a.down b.flag = words b.flag :=
    Function.update_of_ne hab.flags.symm _ _
  exact
    { flagA := by simp [hab.down]
      flagB := by rw [hflag]; exact h.flagB
      turnA := by simp
      turnB := by rw [hturn]; exact h.turnB
      yieldA := by simp
      yieldB := by simp }

/-- Somebody else lowers the flag of `a`: it stays kept only if `a` was outside. -/
theorem reset (hab : Mirrors a b) (h : Excludes a b words sa sb ka kb) :
    Excludes a b (Function.update words a.flag a.down) sa sb (sa = .outside) kb := by
  have hturn : Function.update words a.flag a.down a.turn = words a.turn :=
    Function.update_of_ne hab.flagTurn.symm _ _
  have hflag : Function.update words a.flag a.down b.flag = words b.flag :=
    Function.update_of_ne hab.flags.symm _ _
  exact
    { flagA := by intro hout; simp [hab.down, hout]
      flagB := by rw [hflag]; exact h.flagB
      turnA := by rw [hturn]; exact h.turnA
      turnB := by rw [hturn]; exact h.turnB
      yieldA := by intro hout _ hin; simp [hout] at hin
      yieldB := by intro hout _ _ hasks; simp [hout] at hasks }

/-- Every single access of a party keeps the invariant. -/
theorem advance [DecidableEq V] (hab : Mirrors a b) (hba : Mirrors b a)
    (h : Excludes a b words sa sb ka kb) :
    Excludes a b (a.advance words sa).1 (a.advance words sa).2 sb (ka ∨ sa = .inside) kb := by
  cases sa with
  | outside => simpa [LockCode.advance] using h.raise hab
  | raised => simpa [LockCode.advance] using h.give hab hba
  | gave =>
    by_cases hup : words a.otherFlag = a.waitsUp
    · simpa [LockCode.advance, hup] using h.look
    · have hdown : words b.flag ≠ b.up := by
        rw [← hab.otherFlag, ← hab.waitsUp]
        exact hup
      simpa [LockCode.advance, hup] using h.enter_down hdown
  | saw =>
    by_cases hwait : words a.turn = a.waitsFor
    · simpa [LockCode.advance, hwait] using h.again
    · have hturn : words a.turn ≠ a.gives := by
        rw [← hab.waitsFor]
        exact hwait
      simpa [LockCode.advance, hwait] using h.enter_turn hturn
  | inside => simpa [LockCode.advance] using h.lower hab

end Writes

end Excludes

end Tejas.Peterson
