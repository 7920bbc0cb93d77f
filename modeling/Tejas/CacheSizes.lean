import Tejas.CacheLines

/-!
# From sizes to indices

The constructor of `Cache` takes logarithms of the number of lines and of the number of
ways, which need not be powers of two, and lays the ways of a set out with a stride of
the number of sets. Two sets never share an index. The indices stay inside the array
exactly when the ways fill no more than the lines there are.
-/

namespace Tejas

/-- The loop of `logbase2`: `cnt` shifts have been made. -/
def logbase2Loop (val cnt : ℕ) : ℕ :=
  -- the loop starts at a positive value, so it leaves at 1
  if val ≤ 1 then cnt else logbase2Loop (val >>> 1) (cnt + 1)
termination_by val
decreasing_by
  rw [Nat.shiftRight_one]
  omega

/-- `Util.logbase2`. -/
def logbase2 (val : ℤ) : ℤ := if val ≤ 0 then -1 else logbase2Loop val.toNat 0

theorem logbase2Loop_eq (val cnt : ℕ) : logbase2Loop val cnt = cnt + Nat.log 2 val := by
  induction val, cnt using logbase2Loop.induct with
  | case1 val cnt hval =>
    rw [logbase2Loop, if_pos hval, Nat.log_of_lt (by omega), Nat.add_zero]
  | case2 val cnt hval ih =>
    have hlog : Nat.log 2 val = Nat.log 2 (val / 2) + 1 :=
      Nat.log_of_one_lt_of_le (by omega) (by omega)
    rw [logbase2Loop, if_neg hval, ih, Nat.shiftRight_one, hlog]
    omega

theorem logbase2_eq {val : ℕ} (h : 0 < val) : logbase2 val = Nat.log 2 val := by
  rw [logbase2, if_neg (by omega), Int.toNat_natCast, logbase2Loop_eq, Nat.zero_add]

/-- What the constructor of `Cache` is given, as positive Java integers. -/
structure CacheSizes where
  size : ℕ
  assoc : ℕ
  blockSize : ℕ
  assoc_pos : 0 < assoc
  blockSize_pos : 0 < blockSize
  size_lt : size < 2 ^ 31
  fits : blockSize * assoc ≤ size

namespace CacheSizes

variable {p : CacheSizes}

/-- `getNumLines`. -/
def numLines (p : CacheSizes) : ℕ := p.size / p.blockSize

def blockSizeBits (p : CacheSizes) : ℤ := logbase2 p.blockSize

def assocBits (p : CacheSizes) : ℤ := logbase2 p.assoc

def numLinesBits (p : CacheSizes) : ℤ := logbase2 p.numLines

def numSetsBits (p : CacheSizes) : ℤ := p.numLinesBits - p.assocBits

theorem assoc_le_numLines (p : CacheSizes) : p.assoc ≤ p.numLines := by
  rw [numLines, Nat.le_div_iff_mul_le p.blockSize_pos, Nat.mul_comm]
  exact p.fits

theorem numLines_pos (p : CacheSizes) : 0 < p.numLines :=
  lt_of_lt_of_le p.assoc_pos p.assoc_le_numLines

theorem numSetsBits_eq (p : CacheSizes) :
    p.numSetsBits = ((Nat.log 2 p.numLines - Nat.log 2 p.assoc : ℕ) : ℤ) := by
  have hle : Nat.log 2 p.assoc ≤ Nat.log 2 p.numLines := Nat.log_mono_right p.assoc_le_numLines
  rw [numSetsBits, numLinesBits, assocBits, logbase2_eq p.numLines_pos, logbase2_eq p.assoc_pos]
  omega

theorem blockSizeBits_eq (p : CacheSizes) : p.blockSizeBits = (Nat.log 2 p.blockSize : ℕ) :=
  logbase2_eq p.blockSize_pos

theorem bits_lt (p : CacheSizes) : p.numSetsBits.toNat + p.blockSizeBits.toNat < 64 := by
  have hlines : Nat.log 2 p.numLines < 31 :=
    Nat.log_lt_of_lt_pow p.numLines_pos.ne' ((Nat.div_le_self _ _).trans_lt p.size_lt)
  have hblock : Nat.log 2 p.blockSize < 31 := by
    apply Nat.log_lt_of_lt_pow p.blockSize_pos.ne'
    have hmul : p.blockSize ≤ p.blockSize * p.assoc := Nat.le_mul_of_pos_right _ p.assoc_pos
    exact (hmul.trans p.fits).trans_lt p.size_lt
  rw [numSetsBits_eq, blockSizeBits_eq]
  omega

def geometry (p : CacheSizes) : Geometry where
  numSetsBits := p.numSetsBits.toNat
  blockSizeBits := p.blockSizeBits.toNat
  assoc := p.assoc
  assoc_pos := p.assoc_pos
  bits_lt := p.bits_lt

/-- The number of sets that the bits allow for. -/
def numSets (p : CacheSizes) : ℕ := 2 ^ (Nat.log 2 p.numLines - Nat.log 2 p.assoc)

theorem numSets_eq (p : CacheSizes) : 2 ^ p.geometry.numSetsBits = p.numSets := by
  have hbits : p.geometry.numSetsBits = p.numSetsBits.toNat := rfl
  rw [hbits, numSets, numSetsBits_eq, Int.toNat_natCast]

/-- Every index of a set is one of the array. -/
def InBounds (p : CacheSizes) : Prop :=
  ∀ addr, ∀ i ∈ p.geometry.ways addr, i < p.numLines

/-- Sets of different numbers share no index. -/
def SetsDisjoint (p : CacheSizes) : Prop :=
  ∀ a b, p.geometry.getStartIdx a ≠ p.geometry.getStartIdx b →
    List.Disjoint (p.geometry.ways a) (p.geometry.ways b)

theorem setsDisjoint (p : CacheSizes) : p.SetsDisjoint := by
  intro a b hne i ha hb
  exact hne (Geometry.getStartIdx_eq_of_mem_ways ha hb)

/-- Every set number is that of an address. -/
theorem exists_startIdx {k : ℕ} (hk : k < p.numSets) : ∃ addr, p.geometry.getStartIdx addr = k := by
  have hbits := p.geometry.bits_lt
  rw [← numSets_eq] at hk
  have hpow : k * 2 ^ p.geometry.blockSizeBits < 2 ^ 64 := by
    have hmul : k * 2 ^ p.geometry.blockSizeBits <
        2 ^ p.geometry.numSetsBits * 2 ^ p.geometry.blockSizeBits :=
      Nat.mul_lt_mul_of_pos_right hk (Nat.two_pow_pos _)
    rw [← Nat.pow_add] at hmul
    exact hmul.trans (Nat.pow_lt_pow_right (by omega) hbits)
  refine ⟨BitVec.ofNat 64 (k * 2 ^ p.geometry.blockSizeBits), ?_⟩
  rw [Geometry.getStartIdx, Nat.one_shiftLeft, Nat.and_two_pow_sub_one_eq_mod,
    BitVec.toNat_ushiftRight, BitVec.toNat_ofNat, Nat.mod_eq_of_lt hpow,
    Nat.shiftRight_eq_div_pow, Nat.mul_div_cancel _ (Nat.two_pow_pos _), Nat.mod_eq_of_lt hk]

/-- The indices are the numbers below the ways times the sets. -/
theorem mem_ways_iff {i : ℕ} :
    (∃ addr, i ∈ p.geometry.ways addr) ↔ i < p.assoc * p.numSets := by
  have hsets : 0 < p.numSets := Nat.two_pow_pos _
  constructor
  · rintro ⟨addr, hi⟩
    obtain ⟨idx, hidx, rfl⟩ := List.mem_map.mp hi
    have hstart : p.geometry.getStartIdx addr < p.numSets := by
      rw [← numSets_eq]
      exact Geometry.getStartIdx_lt
    have hway : idx + 1 ≤ p.assoc := List.mem_range.mp hidx
    rw [Geometry.getNextIdx, Nat.shiftLeft_eq, numSets_eq]
    calc p.geometry.getStartIdx addr + idx * p.numSets
        < p.numSets + idx * p.numSets := Nat.add_lt_add_right hstart _
      _ = (idx + 1) * p.numSets := by rw [Nat.add_mul, Nat.one_mul, Nat.add_comm]
      _ ≤ p.assoc * p.numSets := Nat.mul_le_mul_right _ hway
  · intro hi
    obtain ⟨addr, haddr⟩ := exists_startIdx (p := p) (Nat.mod_lt i hsets)
    have hway : i / p.numSets < p.assoc :=
      Nat.div_lt_of_lt_mul (by rwa [Nat.mul_comm])
    refine ⟨addr, List.mem_map.mpr ⟨i / p.numSets, List.mem_range.mpr hway, ?_⟩⟩
    rw [haddr, Geometry.getNextIdx, Nat.shiftLeft_eq, numSets_eq, Nat.mul_comm]
    exact Nat.mod_add_div i p.numSets

theorem inBounds_iff : p.InBounds ↔ p.assoc * p.numSets ≤ p.numLines := by
  constructor
  · intro hbounds
    by_contra hlt
    obtain ⟨addr, hi⟩ := mem_ways_iff.mpr (Nat.not_le.mp hlt)
    exact Nat.lt_irrefl _ (hbounds addr _ hi)
  · intro hle addr i hi
    exact (mem_ways_iff.mp ⟨addr, hi⟩).trans_le hle

/-- With a power of two of ways the indices stay inside the array. -/
theorem inBounds_of_two_pow {k : ℕ} (h : p.assoc = 2 ^ k) : p.InBounds := by
  have hle : k ≤ Nat.log 2 p.numLines :=
    Nat.le_log_of_pow_le (by omega) (h ▸ p.assoc_le_numLines)
  rw [inBounds_iff, numSets, h, Nat.log_pow (by omega), ← Nat.pow_add, Nat.add_sub_cancel' hle]
  exact Nat.pow_log_le_self 2 p.numLines_pos.ne'

/-- The indices of all sets stay inside the array, and different sets are disjoint,
exactly when the ways of all sets together are no more than the lines. -/
theorem indices_in_bounds_iff (p : CacheSizes) :
    p.InBounds ∧ p.SetsDisjoint ↔
      p.assoc * 2 ^ (Nat.log 2 p.numLines - Nat.log 2 p.assoc) ≤ p.numLines := by
  constructor
  · rintro ⟨hbounds, -⟩
    exact inBounds_iff.mp hbounds
  · intro hle
    exact ⟨inBounds_iff.mpr hle, p.setsDisjoint⟩

/-- Four lines of 64 bytes and three ways: the third way of the second set is line 5. -/
theorem three_ways_out_of_bounds :
    ¬ ∀ p : CacheSizes, p.InBounds ∧ p.SetsDisjoint := by
  intro hall
  have hbounds := (hall ⟨256, 3, 64, by decide, by decide, by decide, by decide⟩).1
  have hlog4 : Nat.log 2 4 = 2 := by decide
  have hlog3 : Nat.log 2 3 = 1 := by decide
  have hle := inBounds_iff.mp hbounds
  simp [numLines, numSets, hlog4, hlog3] at hle

end CacheSizes

end Tejas
