import Tejas.TwoRuns
import Mathlib.Logic.Function.Basic

/-!
# The TAGE branch predictor

`TAGE.java` keeps one tagged predictor for all cores: the static field `PTAGE`, which each
constructor call replaces. An `int` is a vector of 32 bits and a program counter one of 64.
The history lengths come from a power of a double in the source and are the numbers here.
-/

namespace Tejas.Tage
open TwoRuns

abbrev JInt := BitVec 32

/-- `a << n` and `a >> n` take the low five bits of the shift. -/
def shl (a n : JInt) : JInt := a <<< (n.toNat % 32)

def shr (a n : JInt) : JInt := a.sshiftRight (n.toNat % 32)

/-- `pc >> n` of a `long`. -/
def shrLong (pc : BitVec 64) (n : JInt) : BitVec 64 := pc.sshiftRight (n.toNat % 64)

/-- `(1 << n) - 1` -/
def mask (n : JInt) : JInt := shl 1 n - 1

/-- `Math.abs` -/
def abs (a : JInt) : JInt := if a.toInt < 0 then -a else a

def NHIST : ℕ := 7
def CBITS : JInt := 3
def TBITS : JInt := 12
def MAXHIST : ℕ := 131

/-- The geometric history lengths, from 130 down to 5. -/
def m (bank : ℕ) : JInt := [130, 76, 44, 25, 15, 9, 5].getD bank 0

structure FoldedHistory where
  comp : JInt
  CLENGTH : JInt
  OLENGTH : JInt
  OUTPOINT : JInt

namespace FoldedHistory

def new (originalLength compressedLength : JInt) : FoldedHistory :=
  ⟨0, compressedLength, originalLength, originalLength.srem compressedLength⟩

def update (f : FoldedHistory) (h : ℕ → JInt) : FoldedHistory :=
  let comp := shl f.comp 1 ||| h 0
  let comp := comp ^^^ shl (h f.OLENGTH.toNat) f.OUTPOINT
  let comp := comp ^^^ shr comp f.CLENGTH
  { f with comp := comp &&& mask f.CLENGTH }

end FoldedHistory

structure Bentry where
  hyst : JInt
  pred : JInt

structure Gentry where
  ctr : JInt
  tag : JInt
  ubit : JInt

/-- `PREDICTOR` together with the static sizes `LOGB` and `LOGG`, which its constructor
sets. -/
structure Predictor where
  LOGB : JInt
  LOGG : JInt
  PWIN : JInt
  TICK : JInt
  phist : JInt
  ghist : ℕ → JInt
  chI : ℕ → FoldedHistory
  chT0 : ℕ → FoldedHistory
  chT1 : ℕ → FoldedHistory
  btable : ℕ → Bentry
  gtable : ℕ → ℕ → Gentry
  GI : ℕ → JInt
  BI : JInt
  bank : ℕ
  alttaken : Bool
  predTaken : Bool
  Seed : JInt

/-- The length of the tags of a bank. -/
def tagBits (bank : ℕ) : JInt := TBITS - BitVec.ofNat 32 ((bank + NHIST % 2) / 2)

namespace Predictor

/-- The constructor; it fails on a remainder by zero and on a table of negative size. -/
def new (PCBits : JInt) : Option Predictor :=
  let LOGB := PCBits
  let LOGG := LOGB - 4
  if LOGG = 0 ∨ (shl 1 LOGB).toInt < 0 ∨ (shl 1 LOGG).toInt < 0 then none
  else some {
    LOGB := LOGB
    LOGG := LOGG
    PWIN := 0
    TICK := 0
    phist := 0
    ghist := fun _ => 0
    chI := fun i => .new (m i) LOGG
    chT0 := fun i => .new (m i) (tagBits i)
    chT1 := fun i => .new (m i) (tagBits i - 1)
    btable := fun _ => ⟨1, 0⟩
    gtable := fun _ _ => ⟨0, 0, 0⟩
    GI := fun _ => 0
    BI := 0
    bank := 0
    alttaken := false
    predTaken := false
    Seed := 0 }

variable (p : Predictor)

/-! ### Prediction -/

def bindex (pc : BitVec 64) : JInt := pc.setWidth 32 &&& mask p.LOGB

def F (A size : JInt) (bank : ℕ) : JInt :=
  let bank := BitVec.ofNat 32 bank
  let A := A &&& mask size
  let A1 := A &&& mask p.LOGG
  let A2 := shr A p.LOGG
  let A2 := (shl A2 bank &&& mask p.LOGG) + shr A2 (p.LOGG - bank)
  let A := A1 ^^^ A2
  (shl A bank &&& mask p.LOGG) + shr A (p.LOGG - bank)

def gindex (pc : BitVec 64) (bank : ℕ) : JInt :=
  let size := if 16 ≤ (m bank).toInt then 16 else m bank
  let shifted := shrLong pc (p.LOGG - BitVec.ofNat 32 (NHIST - bank - 1))
  let index := pc ^^^ shifted ^^^ (p.chI bank).comp.signExtend 64 ^^^
    (p.F p.phist size bank).signExtend 64
  index.setWidth 32 &&& mask p.LOGG

def gtag (pc : BitVec 64) (bank : ℕ) : JInt :=
  let tag := pc ^^^ (p.chT0 bank).comp.signExtend 64 ^^^
    (shl (p.chT1 bank).comp 1).signExtend 64
  tag.setWidth 32 &&& mask (tagBits bank)

def entry (i : ℕ) : Gentry := p.gtable i (p.GI i).toNat

def setEntry (i : ℕ) (e : Gentry) : Predictor :=
  let bank := Function.update (p.gtable i) (p.GI i).toNat e
  { p with gtable := Function.update p.gtable i bank }

def getbim : Bool := 0 < (p.btable p.BI.toNat).pred.toInt

/-- The first bank from the given one on whose entry has the tag, else `NHIST`. -/
def matchFrom (pc : BitVec 64) (first : ℕ) : ℕ :=
  (((List.range NHIST).drop first).find? (fun i => (p.entry i).tag = p.gtag pc i)).getD NHIST

/-- The entry has just been allocated. -/
def pseudoNew (i : ℕ) : Bool :=
  abs (2 * (p.entry i).ctr + 1) = 1 ∧ (p.entry i).ubit = 0

/-- `read_prediction`: the matching bank, the prediction and the alternate one. -/
def readPrediction (pc : BitVec 64) : ℕ × Bool × Bool :=
  let retbank := p.matchFrom pc 0
  let altbank := p.matchFrom pc (retbank + 1)
  if retbank < NHIST then
    let altpred := if altbank < NHIST then decide (0 ≤ (p.entry altbank).ctr.toInt) else p.getbim
    if p.PWIN.toInt < 0 ∨ p.pseudoNew retbank = false then
      (retbank, decide (0 ≤ (p.entry retbank).ctr.toInt), altpred)
    else (retbank, altpred, altpred)
  else (retbank, p.getbim, p.getbim)

/-- The table addresses of a branch. -/
def addressed (pc : BitVec 64) : Predictor :=
  { p with GI := fun i => p.gindex pc i, BI := p.bindex pc }

def getPrediction (pc : BitVec 64) : Predictor × Bool :=
  let q := p.addressed pc
  let r := q.readPrediction pc
  ({ q with bank := r.1, predTaken := r.2.1, alttaken := r.2.2 }, r.2.1)

/-! ### Update -/

def ctrupdate (ctr : JInt) (taken : Bool) (nbits : JInt) : JInt :=
  if taken then if ctr.toInt < (shl 1 (nbits - 1) - 1).toInt then 1 else 0
  else if (-shl 1 (nbits - 1)).toInt < ctr.toInt then -1 else 0

def baseupdate (taken : Bool) : Predictor :=
  let b := p.BI.toNat
  let h := (shr p.BI 2).toNat
  let setHyst (t : ℕ → Bentry) (v : JInt) : ℕ → Bentry :=
    Function.update t h { t h with hyst := v }
  if taken = p.getbim then
    if taken then
      if 0 < (p.btable b).pred.toInt then { p with btable := setHyst p.btable 1 } else p
    else if (p.btable b).pred = 0 then { p with btable := setHyst p.btable 0 } else p
  else
    let inter := shl (p.btable b).pred 1 + (p.btable h).hyst
    let inter := if taken then if inter.toInt < 3 then inter + 1 else inter
      else if 0 < inter.toInt then inter - 1 else inter
    let t := Function.update p.btable b { p.btable b with pred := shr inter 1 }
    { p with btable := setHyst t (inter &&& 1) }

/-- `MYRANDOM` -/
def nextSeed : JInt :=
  ((shl 1 14 + 1) * p.Seed + 0xf3f531) &&& mask 14

/-- The counter `PWIN` follows the alternate prediction of new entries. -/
def updatePWIN (taken loctaken : Bool) : Predictor :=
  if loctaken = p.alttaken then p
  else if p.alttaken = taken then
    if p.PWIN.toInt < 7 then { p with PWIN := p.PWIN + 1 } else p
  else if -8 < p.PWIN.toInt then { p with PWIN := p.PWIN - 1 } else p

/-- The smallest `ubit` of the banks before the one that predicted, at most 3. -/
def minUbit : ℕ → JInt
  | 0 => 3
  | i + 1 =>
    let least := minUbit i
    if (p.entry i).ubit.toInt < least.toInt then (p.entry i).ubit else least

/-- The entries of the banks below lose one use. -/
def ageBelow : Predictor → ℕ → Predictor
  | p, 0 => p
  | p, i + 1 => ageBelow (p.setEntry i { p.entry i with ubit := (p.entry i).ubit - 1 }) i

/-- `while ((Y & 1) != 0) { X--; Y >>= 1; }` -/
def lowerBank : ℕ → JInt → ℕ
  | 0, _ => 0
  | X + 1, Y => if Y &&& 1 ≠ 0 then lowerBank X (shr Y 1) else X + 1

/-- The first of the banks before `n`, from the top, whose entry is as little used as the
least one is allocated. -/
def allocateBelow (pc : BitVec 64) (taken : Bool) (least : JInt) : ℕ → Predictor
  | 0 => p
  | i + 1 =>
    if (p.entry i).ubit = least then
      p.setEntry i ⟨if taken then 0 else -1, p.gtag pc i, 0⟩
    else allocateBelow pc taken least i

def allocate (pc : BitVec 64) (taken : Bool) (NRAND : JInt) : Predictor :=
  let least := p.minUbit p.bank
  if 0 < least.toInt then ageBelow p p.bank
  else
    let Y := NRAND &&& mask (BitVec.ofNat 32 (p.bank - 1))
    p.allocateBelow pc taken least (lowerBank (p.bank - 1) Y + 1)

/-- The periodic reset of one bit of every `ubit`. -/
def resetUbits : Predictor :=
  let TICK := p.TICK + 1
  if TICK &&& mask 18 = 0 then
    let X := if shr TICK 18 &&& 1 = 0 then 2 else shr TICK 18 &&& 1
    { p with
      TICK := TICK
      gtable := fun i j => { p.gtable i j with ubit := (p.gtable i j).ubit &&& X } }
  else { p with TICK := TICK }

/-- The counter that gave the prediction. -/
def updateCounter (taken : Bool) : Predictor :=
  if p.bank < NHIST then
    let e := p.entry p.bank
    p.setEntry p.bank { e with ctr := e.ctr + ctrupdate e.ctr taken CBITS }
  else p.baseupdate taken

def updateUbit (taken : Bool) : Predictor :=
  if p.predTaken = p.alttaken then p
  else
    let e := p.entry p.bank
    if p.predTaken = taken then
      if e.ubit.toInt < 3 then p.setEntry p.bank { e with ubit := e.ubit + 1 } else p
    else if 0 < e.ubit.toInt then p.setEntry p.bank { e with ubit := e.ubit - 1 } else p

/-- `ghist` after a branch. -/
def shiftedHistory (taken : Bool) (i : ℕ) : JInt :=
  if i = 0 then if taken then 1 else 0 else if i < MAXHIST then p.ghist (i - 1) else p.ghist i

/-- The global history and the cyclic shift registers. -/
def updateHistories (pc : BitVec 64) (taken : Bool) : Predictor :=
  { p with
    ghist := p.shiftedHistory taken
    phist := (shl p.phist 1 + (pc &&& 1).setWidth 32) &&& mask 16
    chI := fun i => (p.chI i).update (p.shiftedHistory taken)
    chT0 := fun i => (p.chT0 i).update (p.shiftedHistory taken)
    chT1 := fun i => (p.chT1 i).update (p.shiftedHistory taken) }

/-- `update_predictor` once the random number is drawn. -/
def updateDrawn (pc : BitVec 64) (taken : Bool) : Predictor :=
  let wrong := p.predTaken ≠ taken ∧ 0 < p.bank
  let loctaken := decide (0 ≤ (p.entry p.bank).ctr.toInt)
  let new := decide (p.bank < NHIST) && p.pseudoNew p.bank
  let ALLOC := wrong ∧ ¬ (new = true ∧ loctaken = taken)
  let q := if new then p.updatePWIN taken loctaken else p
  let q := if ALLOC then q.allocate pc taken q.Seed else q
  let q := q.resetUbits
  let q := q.updateCounter taken
  let q := q.updateUbit taken
  q.updateHistories pc taken

def updatePredictor (pc : BitVec 64) (taken : Bool) : Predictor :=
  updateDrawn { p with Seed := p.nextSeed } pc taken

end Predictor

/-! ### Cores -/

/-- The constructors of the cores run one after the other and each replaces `PTAGE`. -/
def construct : List JInt → Option Predictor
  | [] => none
  | [PCBits] => Predictor.new PCBits
  | PCBits :: rest => (Predictor.new PCBits).bind (fun _ => construct rest)

/-- An executed branch. -/
structure Branch where
  address : BitVec 64
  outcome : Bool

/-- `predict` and `Train` of a branch of a core. -/
def execute {Core : Type} (PTAGE : Predictor) (_ : Core) (b : Branch) : Predictor × Bool :=
  let r := PTAGE.getPrediction b.address
  (r.1.updatePredictor b.address b.outcome, r.2)

end Tejas.Tage
