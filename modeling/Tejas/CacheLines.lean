import Mathlib

/-!
# The line array of a cache

`Cache.java` keeps its lines in one array. An address selects a set of `assoc` ways
by its index bits, and a way by the remaining bits, the tag. A line also stores the
whole address it was filled with; the line of the pending list of an address is found
by the block number of that address.
-/

namespace Tejas

abbrev Address := BitVec 64

/-- `MESI.java`. -/
inductive MESI where
  | modified
  | exclusive
  | shared
  | invalid
  deriving DecidableEq, Repr

/-- `CacheLine.java`. The last field is the sharer list of a directory entry, which
other caches do not have. -/
structure CacheLine (σ : Type) where
  tag : Address
  timestamp : ℕ
  address : Address
  state : MESI
  sharers : σ

def CacheLine.isValid {σ : Type} (cl : CacheLine σ) : Bool := cl.state ≠ .invalid

/-- What the constructor of `Cache` derives from the sizes, which are Java integers. -/
structure Geometry where
  numSetsBits : ℕ
  blockSizeBits : ℕ
  assoc : ℕ
  assoc_pos : 0 < assoc
  bits_lt : numSetsBits + blockSizeBits < 64

/-- The block number of an address, by the arithmetic shift of `MSHR.getLineAddr`. -/
def getLineAddr (blockSizeBits : ℕ) (addr : Address) : Address := addr.sshiftRight blockSizeBits

namespace Geometry

/-- One set of lines of 64 bytes. -/
theorem oneSet_bits : 0 + 6 < 64 := by decide

def computeTag (g : Geometry) (addr : Address) : Address :=
  addr >>> (g.numSetsBits + g.blockSizeBits)

def getStartIdx (g : Geometry) (addr : Address) : ℕ :=
  (addr >>> g.blockSizeBits).toNat &&& (1 <<< g.numSetsBits - 1)

def getNextIdx (g : Geometry) (startIdx idx : ℕ) : ℕ := startIdx + idx <<< g.numSetsBits

/-- The indices the loops over a set visit. -/
def ways (g : Geometry) (addr : Address) : List ℕ :=
  (List.range g.assoc).map (g.getNextIdx (g.getStartIdx addr))

def SameLine (g : Geometry) (a b : Address) : Prop :=
  getLineAddr g.blockSizeBits a = getLineAddr g.blockSizeBits b

instance (g : Geometry) (a b : Address) : Decidable (g.SameLine a b) :=
  inferInstanceAs (Decidable (_ = _))

end Geometry

/-- The line array of a cache and the clock its timestamps come from. -/
structure LineArray (σ : Type) where
  lines : ℕ → CacheLine σ
  timestamp : ℕ

namespace LineArray

variable {σ : Type}

def new (sharers : ℕ → σ) : LineArray σ := ⟨fun i => ⟨-1, 0, -1, .invalid, sharers i⟩, 0⟩

def access (l : LineArray σ) (g : Geometry) (addr : Address) : Option ℕ :=
  (g.ways addr).find? (fun i => (l.lines i).tag = g.computeTag addr)

def accessValid (l : LineArray σ) (g : Geometry) (addr : Address) : Option ℕ :=
  (l.access g addr).filter (fun i => (l.lines i).isValid)

def setLine (l : LineArray σ) (i : ℕ) (cl : CacheLine σ) : LineArray σ :=
  { l with lines := Function.update l.lines i cl }

/-- `mark(ll)`. -/
def mark (l : LineArray σ) (i : ℕ) : LineArray σ :=
  { l.setLine i { l.lines i with timestamp := l.timestamp } with timestamp := l.timestamp + 1 }

def accessAndMark (l : LineArray σ) (g : Geometry) (addr : Address) : Option ℕ × LineArray σ :=
  match l.accessValid g addr with
  | some i => (some i, l.mark i)
  | none => (none, l)

/-- The search of `fill` for the unlocked line with the least timestamp. -/
def leastRecent (l : LineArray σ) (locked : Address → Bool) : List ℕ → Option ℕ → Option ℕ
  | [], fillLine => fillLine
  | i :: rest, fillLine =>
    if locked (l.lines i).address then l.leastRecent locked rest fillLine
    else if fillLine.all (fun j => (l.lines j).timestamp > (l.lines i).timestamp) then
      l.leastRecent locked rest (some i)
    else l.leastRecent locked rest fillLine

/-- The line `fill` uses, and whether its content is evicted. -/
def fillLine (l : LineArray σ) (g : Geometry) (locked : Address → Bool) (addr : Address) :
    Option (ℕ × Bool) :=
  match l.access g addr with
  | some i => some (i, false)
  | none =>
    match (g.ways addr).find?
      (fun i => !(l.lines i).isValid && !locked (l.lines i).address) with
    | some i => some (i, false)
    | none => (l.leastRecent locked (g.ways addr) none).map (fun i => (i, true))

/-- The new fill line. -/
def place (l : LineArray σ) (g : Geometry) (i : ℕ) (addr : Address) (stateToSet : MESI) :
    LineArray σ :=
  { l.setLine i { l.lines i with
      state := stateToSet
      address := addr
      tag := g.computeTag addr
      timestamp := l.timestamp } with timestamp := l.timestamp + 1 }

/-- `fill`: the new lines and the copy of the evicted line. `none` is the exit "Unholy
mess". -/
def fill (l : LineArray σ) (g : Geometry) (locked : Address → Bool) (addr : Address)
    (stateToSet : MESI) : Option (LineArray σ × Option (CacheLine σ)) :=
  match l.fillLine g locked addr with
  | none => none
  | some (i, evicted) =>
    let evictedLine := { l.lines i with
      tag := (l.lines i).tag <<< g.numSetsBits + BitVec.ofNat 64 (g.getStartIdx addr / g.assoc) }
    some (l.place g i addr stateToSet, if evicted then some evictedLine else none)

/-- The first statements of `updateStateOfCacheLine`. -/
def setState (l : LineArray σ) (g : Geometry) (addr : Address) (newState : MESI) : LineArray σ :=
  match l.access g addr with
  | some i => l.setLine i { l.lines i with state := newState }
  | none => l

def isThereAnUnlockedOrInvalidEntryInCacheSet (l : LineArray σ) (g : Geometry)
    (locked : Address → Bool) (addr : Address) : Bool :=
  (g.ways addr).any (fun i => (l.lines i).address = addr ||
    !(l.lines i).isValid && !locked (l.lines i).address || !locked (l.lines i).address)

/-- The state in which the array holds the line of an address. -/
def stateAt (l : LineArray σ) (g : Geometry) (addr : Address) : MESI :=
  match l.access g addr with
  | some i => (l.lines i).state
  | none => .invalid

end LineArray

/-! ### Sets and tags name lines -/

namespace Geometry

variable {g : Geometry} {a b : Address} {i : ℕ}

theorem getLineAddr_eq_iff {s : ℕ} (hs : s < 64) :
    getLineAddr s a = getLineAddr s b ↔ a.toNat >>> s = b.toNat >>> s := by
  have hbits : a.toNat >>> s = b.toNat >>> s ↔ a >>> s = b >>> s := by
    rw [← BitVec.toNat_inj, BitVec.toNat_ushiftRight, BitVec.toNat_ushiftRight]
  rw [hbits]
  constructor
  · intro h
    apply BitVec.eq_of_getLsbD_eq
    intro i hi
    have hbit := congrArg (fun v => v.getLsbD i) h
    simp only [getLineAddr, BitVec.getLsbD_sshiftRight] at hbit
    simp only [BitVec.getLsbD_ushiftRight]
    by_cases hin : s + i < 64
    · simpa [Nat.not_le.mpr hi, hin] using hbit
    · rw [BitVec.getLsbD_of_ge a (s + i) (by omega), BitVec.getLsbD_of_ge b (s + i) (by omega)]
  · intro h
    have hbit : ∀ i, a.getLsbD (s + i) = b.getLsbD (s + i) := by
      intro i
      simpa [BitVec.getLsbD_ushiftRight] using congrArg (fun v => v.getLsbD i) h
    have hmsb : a.msb = b.msb := by
      have h63 := hbit (63 - s)
      have hsum : s + (63 - s) = 63 := by omega
      rw [hsum] at h63
      simpa [BitVec.msb_eq_getLsbD_last] using h63
    apply BitVec.eq_of_getLsbD_eq
    intro i hi
    simp only [getLineAddr, BitVec.getLsbD_sshiftRight, hbit, hmsb]

/-- Two addresses are in one line when their tags and their sets agree. -/
theorem sameLine_iff :
    g.SameLine a b ↔ g.computeTag a = g.computeTag b ∧ g.getStartIdx a = g.getStartIdx b := by
  have hbits := g.bits_lt
  have htag : g.computeTag a = g.computeTag b ↔
      (a.toNat >>> g.blockSizeBits) / 2 ^ g.numSetsBits =
        (b.toNat >>> g.blockSizeBits) / 2 ^ g.numSetsBits := by
    rw [← BitVec.toNat_inj, computeTag, computeTag, BitVec.toNat_ushiftRight,
      BitVec.toNat_ushiftRight, Nat.add_comm, Nat.shiftRight_add, Nat.shiftRight_add,
      Nat.shiftRight_eq_div_pow _ g.numSetsBits, Nat.shiftRight_eq_div_pow _ g.numSetsBits]
  have hidx : ∀ c, g.getStartIdx c = (c.toNat >>> g.blockSizeBits) % 2 ^ g.numSetsBits := by
    intro c
    rw [getStartIdx, Nat.one_shiftLeft, Nat.and_two_pow_sub_one_eq_mod, BitVec.toNat_ushiftRight]
  rw [SameLine, getLineAddr_eq_iff (by omega), htag, hidx, hidx]
  constructor
  · intro h
    rw [h]
    exact ⟨rfl, rfl⟩
  · rintro ⟨hdiv, hmod⟩
    rw [← Nat.div_add_mod (a.toNat >>> g.blockSizeBits) (2 ^ g.numSetsBits), hdiv, hmod,
      Nat.div_add_mod]

theorem getStartIdx_lt : g.getStartIdx a < 2 ^ g.numSetsBits := by
  rw [getStartIdx, Nat.one_shiftLeft, Nat.and_two_pow_sub_one_eq_mod]
  exact Nat.mod_lt _ (Nat.two_pow_pos _)

/-- A way belongs to one set. -/
theorem getStartIdx_eq_of_mem_ways (ha : i ∈ g.ways a) (hb : i ∈ g.ways b) :
    g.getStartIdx a = g.getStartIdx b := by
  have hmod : ∀ c, i ∈ g.ways c → g.getStartIdx c = i % 2 ^ g.numSetsBits := by
    intro c hc
    obtain ⟨idx, -, rfl⟩ := List.mem_map.mp hc
    rw [getNextIdx, Nat.shiftLeft_eq, Nat.add_mul_mod_self_right,
      Nat.mod_eq_of_lt getStartIdx_lt]
  rw [hmod a ha, hmod b hb]

theorem sameLine_of_mem_ways (ha : i ∈ g.ways a) (hb : i ∈ g.ways b)
    (htag : g.computeTag a = g.computeTag b) : g.SameLine a b :=
  sameLine_iff.mpr ⟨htag, getStartIdx_eq_of_mem_ways ha hb⟩

theorem SameLine.ways_eq (h : g.SameLine a b) : g.ways a = g.ways b := by
  rw [ways, ways, (sameLine_iff.mp h).2]

theorem SameLine.tag_eq (h : g.SameLine a b) : g.computeTag a = g.computeTag b :=
  (sameLine_iff.mp h).1

@[simp] theorem sameLine_refl (g : Geometry) (a : Address) : g.SameLine a a := rfl

theorem SameLine.symm (h : g.SameLine a b) : g.SameLine b a := Eq.symm h

theorem SameLine.trans {c : Address} (h : g.SameLine a b) (h' : g.SameLine b c) :
    g.SameLine a c := Eq.trans h h'

end Geometry

end Tejas
