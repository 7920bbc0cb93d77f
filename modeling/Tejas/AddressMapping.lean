import Tejas.DramCommands
import Mathlib.Algebra.Ring.Nat

/-!
# The mapping of addresses to the memory

An address is cut into channel, rank, bank, row and column by shifts. The low bits choose a
byte of a burst and are thrown away. `findChannelNumber` of the cache, which chooses the
controller, computes the channel once more by itself. An `int` is a vector of 32 bits and a
`long` one of 64; shifts of a `long` take the low six bits of the count.
-/

namespace Tejas

/-- The sizes of the memory, with those that the address mapping alone reads. -/
structure AddressConfig extends MainMemoryConfig where
  numChans : ℕ
  numRows : ℕ
  numCols : ℕ
  dataBusBytes : ℕ
  BL : ℕ
  numChans_lt : numChans < 2 ^ 31
  numRanks_lt : numRanks < 2 ^ 31
  numBanks_lt : numBanks < 2 ^ 31
  numRows_lt : numRows < 2 ^ 31
  numCols_lt : numCols < 2 ^ 31
  dataBusBytes_lt : dataBusBytes < 2 ^ 31
  BL_lt : BL < 2 ^ 31

/-- `(int) (Math.log(a) / Math.log(2))`; the logarithm of zero is cut to the least `int`. -/
def log2 (a : ℕ) : BitVec 32 := if a = 0 then BitVec.intMin 32 else BitVec.ofNat 32 a.log2

/-- `x >>> n` -/
def ushr (x : BitVec 64) (n : BitVec 32) : BitVec 64 := x >>> (n.toNat % 64)

/-- `x << n` -/
def shlLong (x : BitVec 64) (n : BitVec 32) : BitVec 64 := x <<< (n.toNat % 64)

/-- The low bits that a shift throws away, `(int) (tempA ^ tempB)`. -/
def lowBits (x : BitVec 64) (n : BitVec 32) : BitVec 32 :=
  (x ^^^ shlLong (ushr x n) n).setWidth 32

/-- The place of a burst in the memory. -/
structure DecodedAddress where
  decodedRow : BitVec 32
  decodedCol : BitVec 32
  decodedBank : BitVec 32
  decodedRank : BitVec 32
  decodedChan : BitVec 32
  deriving DecidableEq

namespace AddressConfig

variable (cfg : AddressConfig)

/-- `Cache.findChannelNumber` -/
def findChannelNumber (physicalAddress : BitVec 64) : BitVec 32 :=
  let channelBits := log2 cfg.numChans
  let dataBusBytesOffset := log2 cfg.dataBusBytes
  let colBytesOffset := log2 cfg.BL
  lowBits (ushr physicalAddress (dataBusBytesOffset + colBytesOffset)) channelBits

def addressMapping (physicalAddress : BitVec 64) : DecodedAddress :=
  let channelBits := log2 cfg.numChans
  let rankBits := log2 cfg.numRanks
  let bankBits := log2 cfg.numBanks
  let rowBits := log2 cfg.numRows
  let colBits := log2 cfg.numCols
  let dataBusBytesOffset := log2 cfg.dataBusBytes
  let colBytesOffset := log2 cfg.BL
  let burst := ushr physicalAddress (dataBusBytesOffset + colBytesOffset)
  let colEffectiveBits := colBits - colBytesOffset
  match cfg.rowBufferPolicy with
  | .openPage =>
    -- row:rank:bank:col:chan
    let aboveChan := ushr burst channelBits
    let aboveCol := ushr aboveChan colEffectiveBits
    let aboveBank := ushr aboveCol bankBits
    let aboveRank := ushr aboveBank rankBits
    { decodedChan := lowBits burst channelBits
      decodedCol := lowBits aboveChan colEffectiveBits
      decodedBank := lowBits aboveCol bankBits
      decodedRank := lowBits aboveBank rankBits
      decodedRow := lowBits aboveRank rowBits }
  | .closePage =>
    -- row:col:rank:bank:chan
    let aboveChan := ushr burst channelBits
    let aboveBank := ushr aboveChan bankBits
    let aboveRank := ushr aboveBank rankBits
    let aboveCol := ushr aboveRank colEffectiveBits
    { decodedChan := lowBits burst channelBits
      decodedBank := lowBits aboveChan bankBits
      decodedRank := lowBits aboveBank rankBits
      decodedCol := lowBits aboveRank colEffectiveBits
      decodedRow := lowBits aboveCol rowBits }

/-- The bytes of the memory. -/
def capacity : ℕ :=
  cfg.numChans * cfg.numRanks * cfg.numBanks * cfg.numRows * cfg.numCols * cfg.dataBusBytes

/-- The burst in which an address lies. -/
def burst (physicalAddress : BitVec 64) : ℕ := physicalAddress.toNat / (cfg.dataBusBytes * cfg.BL)

/-- The coordinates are within the sizes of the memory. -/
structure InRange (d : DecodedAddress) : Prop where
  chan : d.decodedChan.toNat < cfg.numChans
  rank : d.decodedRank.toNat < cfg.numRanks
  bank : d.decodedBank.toNat < cfg.numBanks
  row : d.decodedRow.toNat < cfg.numRows
  col : d.decodedCol.toNat < cfg.numCols

/-- Caches and controller agree on the channel, and every burst has a place of its own. -/
structure MapsBursts : Prop where
  sameChannel : ∀ a, cfg.findChannelNumber a = (cfg.addressMapping a).decodedChan
  inRange : ∀ a, cfg.InRange (cfg.addressMapping a)
  separate : ∀ a a', a.toNat < cfg.capacity → a'.toNat < cfg.capacity →
    cfg.burst a ≠ cfg.burst a' → cfg.addressMapping a ≠ cfg.addressMapping a'

structure SizesArePowers : Prop where
  chans : cfg.numChans.isPowerOfTwo
  ranks : cfg.numRanks.isPowerOfTwo
  banks : cfg.numBanks.isPowerOfTwo
  rows : cfg.numRows.isPowerOfTwo
  cols : cfg.numCols.isPowerOfTwo

/-- The burst, too, is a power of two, and a row holds it. -/
structure BurstsArePowers : Prop extends cfg.SizesArePowers where
  dataBusBytes : cfg.dataBusBytes.isPowerOfTwo
  BL : cfg.BL.isPowerOfTwo
  fits : cfg.BL ≤ cfg.numCols

end AddressConfig

section Bits

variable {k : ℕ} {x : BitVec 64}

theorem log2_two_pow (k : ℕ) : log2 (2 ^ k) = BitVec.ofNat 32 k := by
  rw [log2, if_neg (Nat.ne_of_gt (Nat.two_pow_pos k)), Nat.log2_two_pow]

theorem toNat_ushr (hk : k < 64) : (ushr x (BitVec.ofNat 32 k)).toNat = x.toNat / 2 ^ k := by
  have hmod : k % 2 ^ 32 % 64 = k := by omega
  rw [ushr, BitVec.toNat_ofNat, hmod, BitVec.toNat_ushiftRight, Nat.shiftRight_eq_div_pow]

/-- Taking away what is left above the low bits leaves them. -/
theorem xor_high {n : ℕ} : n ^^^ n / 2 ^ k * 2 ^ k = n % 2 ^ k := by
  apply Nat.eq_of_testBit_eq
  intro i
  rw [← Nat.shiftRight_eq_div_pow, ← Nat.shiftLeft_eq, Nat.testBit_xor, Nat.testBit_shiftLeft,
    Nat.testBit_mod_two_pow]
  by_cases hi : i < k
  · have hle : ¬ k ≤ i := by omega
    simp [hi, hle]
  · have hsum : k + (i - k) = i := by omega
    simp [hi, Nat.testBit_shiftRight, hsum]
    omega

theorem toNat_lowBits (hk : k ≤ 32) :
    (lowBits x (BitVec.ofNat 32 k)).toNat = x.toNat % 2 ^ k := by
  have hmod : k % 2 ^ 32 % 64 = k := by omega
  have hx : x.toNat < 2 ^ 64 := x.isLt
  have hhigh : x.toNat / 2 ^ k * 2 ^ k < 2 ^ 64 :=
    Nat.lt_of_le_of_lt (Nat.div_mul_le_self _ _) hx
  have hlow : x.toNat % 2 ^ k < 2 ^ 32 :=
    Nat.lt_of_lt_of_le (Nat.mod_lt _ (Nat.two_pow_pos k)) (Nat.pow_le_pow_right (by decide) hk)
  rw [lowBits, shlLong, BitVec.toNat_setWidth, BitVec.toNat_xor, BitVec.toNat_shiftLeft,
    toNat_ushr (by omega), BitVec.toNat_ofNat, hmod, Nat.shiftLeft_eq, Nat.mod_eq_of_lt hhigh,
    xor_high, Nat.mod_eq_of_lt hlow]

end Bits

namespace DecodedAddress

variable (d : DecodedAddress)

/-- The coordinates from the low end of an open page address. -/
def openPageFields : List ℕ :=
  [d.decodedChan.toNat, d.decodedCol.toNat, d.decodedBank.toNat, d.decodedRank.toNat,
    d.decodedRow.toNat]

/-- The coordinates from the low end of a close page address. -/
def closePageFields : List ℕ :=
  [d.decodedChan.toNat, d.decodedBank.toNat, d.decodedRank.toNat, d.decodedCol.toNat,
    d.decodedRow.toNat]

end DecodedAddress

section Cut

/-- A number cut into fields of the given widths, the lowest one first. -/
def cut : List ℕ → ℕ → List ℕ
  | [], _ => []
  | width :: rest, n => n % 2 ^ width :: cut rest (n / 2 ^ width)

/-- The lowest field of a word, and the fields of what a shift leaves. -/
theorem cut_word {x : BitVec 64} {width : ℕ} (rest : List ℕ) (hwidth : width ≤ 32) :
    cut (width :: rest) x.toNat =
      (lowBits x (BitVec.ofNat 32 width)).toNat ::
        cut rest (ushr x (BitVec.ofNat 32 width)).toNat := by
  rw [toNat_lowBits hwidth, toNat_ushr (by omega)]
  rfl

theorem cut_injective {widths : List ℕ} {m n : ℕ} (hm : m < 2 ^ widths.sum)
    (hn : n < 2 ^ widths.sum) (h : cut widths m = cut widths n) : m = n := by
  induction widths generalizing m n with
  | nil =>
    rw [List.sum_nil] at hm hn
    omega
  | cons width rest ih =>
    obtain ⟨hlow, hhigh⟩ := List.cons.inj h
    rw [List.sum_cons, Nat.pow_add] at hm hn
    exact Nat.ext_div_mod (ih (Nat.div_lt_of_lt_mul hm) (Nat.div_lt_of_lt_mul hn) hhigh) hlow

end Cut

namespace AddressConfig

variable {cfg : AddressConfig}

/-- The widths of the coordinates, and of the offset in a burst. -/
structure Widths (cfg : AddressConfig) where
  chan : ℕ
  rank : ℕ
  bank : ℕ
  row : ℕ
  col : ℕ
  bus : ℕ
  burst : ℕ
  numChans : cfg.numChans = 2 ^ chan
  numRanks : cfg.numRanks = 2 ^ rank
  numBanks : cfg.numBanks = 2 ^ bank
  numRows : cfg.numRows = 2 ^ row
  numCols : cfg.numCols = 2 ^ col
  dataBusBytes : cfg.dataBusBytes = 2 ^ bus
  BL : cfg.BL = 2 ^ burst
  fits : burst ≤ col

theorem BurstsArePowers.widths (h : cfg.BurstsArePowers) : Nonempty cfg.Widths := by
  obtain ⟨chan, hchan⟩ := h.chans
  obtain ⟨rank, hrank⟩ := h.ranks
  obtain ⟨bank, hbank⟩ := h.banks
  obtain ⟨row, hrow⟩ := h.rows
  obtain ⟨col, hcol⟩ := h.cols
  obtain ⟨bus, hbus⟩ := h.dataBusBytes
  obtain ⟨burst, hburst⟩ := h.BL
  have hfits : burst ≤ col := by
    have hle := h.fits
    rw [hburst, hcol] at hle
    exact (Nat.pow_le_pow_iff_right (by decide)).mp hle
  exact ⟨⟨chan, rank, bank, row, col, bus, burst, hchan, hrank, hbank, hrow, hcol, hbus, hburst,
    hfits⟩⟩

theorem width_lt {n k : ℕ} (h : n < 2 ^ 31) (hk : n = 2 ^ k) : k < 31 := by
  rw [hk] at h
  exact (Nat.pow_lt_pow_iff_right (by decide)).mp h

namespace Widths

theorem burst_eq (w : cfg.Widths) (a : BitVec 64) :
    cfg.burst a = a.toNat / 2 ^ (w.bus + w.burst) := by
  rw [AddressConfig.burst, w.dataBusBytes, w.BL, Nat.pow_add]

theorem toNat_offset (w : cfg.Widths) (a : BitVec 64) :
    (ushr a (log2 cfg.dataBusBytes + log2 cfg.BL)).toNat = cfg.burst a := by
  have hbus := width_lt cfg.dataBusBytes_lt w.dataBusBytes
  have hburst := width_lt cfg.BL_lt w.BL
  rw [w.burst_eq, w.dataBusBytes, w.BL, log2_two_pow, log2_two_pow, ← BitVec.ofNat_add,
    toNat_ushr (by omega)]

theorem colEffectiveBits (w : cfg.Widths) :
    log2 cfg.numCols - log2 cfg.BL = BitVec.ofNat 32 (w.col - w.burst) := by
  have hcol := width_lt cfg.numCols_lt w.numCols
  have hfits := w.fits
  rw [w.numCols, w.BL, log2_two_pow, log2_two_pow]
  bv_omega

theorem fields_lt (w : cfg.Widths) :
    w.chan < 31 ∧ w.rank < 31 ∧ w.bank < 31 ∧ w.row < 31 ∧ w.col < 31 :=
  ⟨width_lt cfg.numChans_lt w.numChans, width_lt cfg.numRanks_lt w.numRanks,
    width_lt cfg.numBanks_lt w.numBanks, width_lt cfg.numRows_lt w.numRows,
    width_lt cfg.numCols_lt w.numCols⟩

/-- The fields of an open page address are row, rank, bank, column and channel. -/
theorem addressMapping_openPage (w : cfg.Widths) (a : BitVec 64)
    (hpolicy : cfg.rowBufferPolicy = .openPage) :
    (cfg.addressMapping a).openPageFields =
      cut [w.chan, w.col - w.burst, w.bank, w.rank, w.row] (cfg.burst a) := by
  obtain ⟨hchan, hrank, hbank, hrow, hcol⟩ := w.fields_lt
  simp only [addressMapping, hpolicy, w.colEffectiveBits]
  rw [w.numChans, w.numBanks, w.numRanks, w.numRows]
  simp only [log2_two_pow]
  rw [← w.toNat_offset, cut_word _ (by omega), cut_word _ (by omega), cut_word _ (by omega),
    cut_word _ (by omega), cut_word _ (by omega)]
  rfl

/-- The fields of a close page address are row, column, rank, bank and channel. -/
theorem addressMapping_closePage (w : cfg.Widths) (a : BitVec 64)
    (hpolicy : cfg.rowBufferPolicy = .closePage) :
    (cfg.addressMapping a).closePageFields =
      cut [w.chan, w.bank, w.rank, w.col - w.burst, w.row] (cfg.burst a) := by
  obtain ⟨hchan, hrank, hbank, hrow, hcol⟩ := w.fields_lt
  simp only [addressMapping, hpolicy, w.colEffectiveBits]
  rw [w.numChans, w.numBanks, w.numRanks, w.numRows]
  simp only [log2_two_pow]
  rw [← w.toNat_offset, cut_word _ (by omega), cut_word _ (by omega), cut_word _ (by omega),
    cut_word _ (by omega), cut_word _ (by omega)]
  rfl

/-- An address of the memory has no bits above its fields. -/
theorem burst_lt (w : cfg.Widths) {a : BitVec 64} (ha : a.toNat < cfg.capacity) :
    cfg.burst a < 2 ^ (w.chan + (w.col - w.burst) + w.bank + w.rank + w.row) := by
  have hfits := w.fits
  rw [w.burst_eq]
  apply Nat.div_lt_of_lt_mul
  rw [capacity, w.numChans, w.numRanks, w.numBanks, w.numRows, w.numCols, w.dataBusBytes,
    ← Nat.pow_add, ← Nat.pow_add, ← Nat.pow_add, ← Nat.pow_add, ← Nat.pow_add] at ha
  rw [← Nat.pow_add]
  refine Nat.lt_of_lt_of_eq ha (congrArg (fun k => 2 ^ k) ?_)
  omega

theorem separate (w : cfg.Widths) {a a' : BitVec 64} (ha : a.toNat < cfg.capacity)
    (ha' : a'.toNat < cfg.capacity) (h : cfg.addressMapping a = cfg.addressMapping a') :
    cfg.burst a = cfg.burst a' := by
  have hlt := w.burst_lt ha
  have hlt' := w.burst_lt ha'
  cases hpolicy : cfg.rowBufferPolicy with
  | openPage =>
    have hsum : w.chan + (w.col - w.burst) + w.bank + w.rank + w.row =
        [w.chan, w.col - w.burst, w.bank, w.rank, w.row].sum := by
      simp only [List.sum_cons, List.sum_nil]
      omega
    have hfields := w.addressMapping_openPage a hpolicy
    rw [h, w.addressMapping_openPage a' hpolicy] at hfields
    rw [hsum] at hlt hlt'
    exact cut_injective hlt hlt' hfields.symm
  | closePage =>
    have hsum : w.chan + (w.col - w.burst) + w.bank + w.rank + w.row =
        [w.chan, w.bank, w.rank, w.col - w.burst, w.row].sum := by
      simp only [List.sum_cons, List.sum_nil]
      omega
    have hfields := w.addressMapping_closePage a hpolicy
    rw [h, w.addressMapping_closePage a' hpolicy] at hfields
    rw [hsum] at hlt hlt'
    exact cut_injective hlt hlt' hfields.symm

/-- A field is below the size of its coordinate. -/
theorem inRange (w : cfg.Widths) (a : BitVec 64) : cfg.InRange (cfg.addressMapping a) := by
  have hcol : 2 ^ (w.col - w.burst) ≤ 2 ^ w.col :=
    Nat.pow_le_pow_right (by decide) (Nat.sub_le _ _)
  have hfield : ∀ {field n k : ℕ}, field = n % 2 ^ k → field < 2 ^ k := by
    intro field n k h
    rw [h]
    exact Nat.mod_lt n (Nat.two_pow_pos k)
  cases hpolicy : cfg.rowBufferPolicy with
  | openPage =>
    have hfields := w.addressMapping_openPage a hpolicy
    simp only [DecodedAddress.openPageFields, cut, List.cons.injEq, and_true] at hfields
    obtain ⟨hchan, hcolumn, hbank, hrank, hrow⟩ := hfields
    exact ⟨w.numChans ▸ hfield hchan, w.numRanks ▸ hfield hrank, w.numBanks ▸ hfield hbank,
      w.numRows ▸ hfield hrow, w.numCols ▸ Nat.lt_of_lt_of_le (hfield hcolumn) hcol⟩
  | closePage =>
    have hfields := w.addressMapping_closePage a hpolicy
    simp only [DecodedAddress.closePageFields, cut, List.cons.injEq, and_true] at hfields
    obtain ⟨hchan, hbank, hrank, hcolumn, hrow⟩ := hfields
    exact ⟨w.numChans ▸ hfield hchan, w.numRanks ▸ hfield hrank, w.numBanks ▸ hfield hbank,
      w.numRows ▸ hfield hrow, w.numCols ▸ Nat.lt_of_lt_of_le (hfield hcolumn) hcol⟩

end Widths

/-- Both policies, for sizes that are powers of two and bursts that fit in a row: caches and
controller use the same channel, every coordinate is in range, and the addresses of different
bursts have different coordinates. -/
theorem mapsBursts_of_powers (h : cfg.BurstsArePowers) : cfg.MapsBursts := by
  obtain ⟨w⟩ := h.widths
  constructor
  case sameChannel =>
    intro a
    rw [findChannelNumber, addressMapping]
    split <;> rfl
  case inRange => exact w.inRange
  case separate => exact fun a a' ha ha' hburst hsame => hburst (w.separate ha ha' hsame)

/-- The packet that an address is mapped to, once the coordinates are known to be in range. -/
def packet (h : cfg.BurstsArePowers) (E : Type) (testid : ℕ) (a : BitVec 64) :
    MainMemoryBusPacket cfg.toMainMemoryConfig E :=
  let d := cfg.addressMapping a
  let hrange := (mapsBursts_of_powers h).inRange a
  ⟨d.decodedRow.toInt, d.decodedCol.toInt, ⟨d.decodedBank.toNat, hrange.bank⟩,
    ⟨d.decodedRank.toNat, hrange.rank⟩, a.toInt, .null, none, testid⟩

/-- One controller tells the bursts of its addresses apart by their packets. -/
theorem packet_separate (h : cfg.BurstsArePowers) {E : Type} {testid testid' : ℕ}
    {a a' : BitVec 64} (ha : a.toNat < cfg.capacity) (ha' : a'.toNat < cfg.capacity)
    (hchan : cfg.findChannelNumber a = cfg.findChannelNumber a')
    (hrow : (packet h E testid a).row = (packet h E testid' a').row)
    (hcolumn : (packet h E testid a).column = (packet h E testid' a').column)
    (hbank : (packet h E testid a).bank = (packet h E testid' a').bank)
    (hrank : (packet h E testid a).rank = (packet h E testid' a').rank) :
    cfg.burst a = cfg.burst a' := by
  have hmaps := mapsBursts_of_powers h
  rw [hmaps.sameChannel, hmaps.sameChannel] at hchan
  have hrow' := BitVec.toInt_inj.mp hrow
  have hcolumn' := BitVec.toInt_inj.mp hcolumn
  have hbankNat : (cfg.addressMapping a).decodedBank.toNat =
      (cfg.addressMapping a').decodedBank.toNat := congrArg (fun bank : cfg.Bank => bank.val) hbank
  have hrankNat : (cfg.addressMapping a).decodedRank.toNat =
      (cfg.addressMapping a').decodedRank.toNat := congrArg (fun rank : cfg.Rank => rank.val) hrank
  have hbank' := BitVec.eq_of_toNat_eq hbankNat
  have hrank' := BitVec.eq_of_toNat_eq hrankNat
  have hsame : cfg.addressMapping a = cfg.addressMapping a' := by
    cases hd : cfg.addressMapping a with
    | mk row col bank rank chan =>
      cases hd' : cfg.addressMapping a' with
      | mk row' col' bank' rank' chan' =>
        rw [hd, hd'] at hrow' hcolumn' hbank' hrank' hchan
        exact DecodedAddress.mk.injEq .. ▸ ⟨hrow', hcolumn', hbank', hrank', hchan⟩
  by_contra hburst
  exact hmaps.separate a a' ha ha' hburst hsame

/-- A memory of one bank. -/
def oneBank : MainMemoryConfig where
  rowBufferPolicy := .openPage
  schedulingPolicy := .rankThenBankRoundRobin
  queuingStructure := .perRank
  numRanks := 1
  numBanks := 1
  numRanks_pos := Nat.one_pos
  numBanks_pos := Nat.one_pos
  totalRowAccesses := 4
  cpuRamRatio := 4
  tCCD := 16
  tBL := 32
  tCL := 44
  tAL := 0
  tRP := 44
  tCMD := 4
  tRC := 156
  tRCD := 44
  tRAS := 112
  tRFC := 352
  tRTRS := 4
  tRRD := 20
  tFAW := 24
  tRTP := 24
  tWTR := 24
  tWR := 48
  refreshCycles := 6240

/-- One bank with one row. The bytes of the bus and the columns may be anything up to 2048. -/
def oneRow (numChans numCols dataBusBytes BL : ℕ) (hchans : numChans ≤ 2048)
    (hcols : numCols ≤ 2048) (hbus : dataBusBytes ≤ 2048) (hBL : BL ≤ 2048) : AddressConfig :=
  { oneBank with
    numChans := numChans
    numRows := 1
    numCols := numCols
    dataBusBytes := dataBusBytes
    BL := BL
    numChans_lt := Nat.lt_of_le_of_lt hchans (Nat.le_of_ble_eq_true rfl)
    numRanks_lt := Nat.le_of_ble_eq_true rfl
    numBanks_lt := Nat.le_of_ble_eq_true rfl
    numRows_lt := Nat.le_of_ble_eq_true rfl
    numCols_lt := Nat.lt_of_le_of_lt hcols (Nat.le_of_ble_eq_true rfl)
    dataBusBytes_lt := Nat.lt_of_le_of_lt hbus (Nat.le_of_ble_eq_true rfl)
    BL_lt := Nat.lt_of_le_of_lt hBL (Nat.le_of_ble_eq_true rfl) }

/-- The sizes of two channels with rows of 2048 columns. -/
def twoChannels : AddressConfig :=
  oneRow 2 2048 8 8 (Nat.le_of_ble_eq_true rfl) (Nat.le_refl _) (Nat.le_of_ble_eq_true rfl)
    (Nat.le_of_ble_eq_true rfl)

/-- A burst of eight columns, in a row of one. -/
def longBurst : AddressConfig :=
  oneRow 1 1 8 8 (Nat.le_of_ble_eq_true rfl) (Nat.le_of_ble_eq_true rfl)
    (Nat.le_of_ble_eq_true rfl) (Nat.le_of_ble_eq_true rfl)

/-- A bus of three bytes. -/
def oddBus : AddressConfig :=
  oneRow 1 2 3 1 (Nat.le_of_ble_eq_true rfl) (Nat.le_of_ble_eq_true rfl)
    (Nat.le_of_ble_eq_true rfl) (Nat.le_of_ble_eq_true rfl)

/-- A burst of three columns. -/
def oddBurst : AddressConfig :=
  oneRow 1 8 1 3 (Nat.le_of_ble_eq_true rfl) (Nat.le_of_ble_eq_true rfl)
    (Nat.le_of_ble_eq_true rfl) (Nat.le_of_ble_eq_true rfl)

theorem mapsBursts_twoChannels : twoChannels.MapsBursts := by
  refine mapsBursts_of_powers ⟨⟨⟨1, rfl⟩, ⟨0, rfl⟩, ⟨0, rfl⟩, ⟨0, rfl⟩, ⟨11, rfl⟩⟩, ⟨3, rfl⟩,
    ⟨3, rfl⟩, ?_⟩
  decide

/-- Powers of two alone are not enough: the burst has to be one too, and to fit in a row. -/
theorem not_mapsBursts :
    (longBurst.SizesArePowers ∧ ¬ longBurst.MapsBursts) ∧
    (oddBus.SizesArePowers ∧ ¬ oddBus.MapsBursts) ∧
    (oddBurst.SizesArePowers ∧ ¬ oddBurst.MapsBursts) := by
  refine ⟨⟨⟨⟨0, rfl⟩, ⟨0, rfl⟩, ⟨0, rfl⟩, ⟨0, rfl⟩, ⟨0, rfl⟩⟩, fun h => ?_⟩,
    ⟨⟨⟨0, rfl⟩, ⟨0, rfl⟩, ⟨0, rfl⟩, ⟨0, rfl⟩, ⟨1, rfl⟩⟩, fun h => ?_⟩,
    ⟨⟨⟨0, rfl⟩, ⟨0, rfl⟩, ⟨0, rfl⟩, ⟨0, rfl⟩, ⟨3, rfl⟩⟩, fun h => ?_⟩⟩
  · exact absurd (h.inRange 64#64).col (by decide)
  · exact h.separate 0#64 4#64 (by decide) (by decide) (by decide) (by decide)
  · exact h.separate 2#64 3#64 (by decide) (by decide) (by decide) (by decide)

end AddressConfig

end Tejas
