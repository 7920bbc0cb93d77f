import Mathlib.Data.Nat.Digits.Lemmas
import Mathlib.Tactic.IntervalCases
import Mathlib.Tactic.Ring
import Tejas.TraceFile

/-!
# The numbers of a trace file

`Long.parseLong` reads every number as it was printed. `Util.parseLong` does so for the
numbers without a sign and for a single one with a sign.
-/

namespace Tejas.TraceFile

/-- The digits of a number as they stand in `decimal`, the lowest first. -/
structure DigitsOf (n : ℕ) (ds : List ℕ) : Prop where
  digit : ∀ d ∈ ds, d < 10
  nonempty : ds ≠ []
  value : Nat.ofDigits 10 ds = n
  low : 10 ^ ds.length ≤ 10 * max n 1
  high : n < 10 ^ ds.length
  printed : decimal n = (ds.map digitByte).reverse

theorem exists_digitsOf (n : ℕ) : ∃ ds, DigitsOf n ds := by
  by_cases hn : n = 0
  · subst hn
    exact ⟨[0], ⟨by decide, by decide, rfl, by decide, by decide, rfl⟩⟩
  · exact
      ⟨Nat.digits 10 n,
        { digit := fun d hd => Nat.digits_lt_base (by decide) hd
          nonempty := Nat.digits_ne_nil_iff_ne_zero.mpr hn
          value := Nat.ofDigits_digits 10 n
          low := by
            have hpow := Nat.base_pow_length_digits_le 10 n (by decide) hn
            omega
          high := Nat.lt_base_pow_length_digits (by decide)
          printed := if_neg hn }⟩

/-- A `long` has less than twenty digits. -/
theorem DigitsOf.length_lt {x : Long} {ds : List ℕ} (hds : DigitsOf x.1.natAbs ds) :
    ds.length < 20 := by
  have hbelow := x.2.1
  have habove := x.2.2
  have hlow := hds.low
  by_contra hlong
  have hpow : (10 : ℕ) ^ 20 ≤ 10 ^ ds.length := Nat.pow_le_pow_right (by decide) (by omega)
  omega

theorem toNat_digitByte {d : ℕ} (hd : d < 10) : (digitByte d).toNat = 48 + d := by
  rw [digitByte, UInt8.toNat_ofNat', Nat.mod_eq_of_lt (by omega)]

/-- The bytes of a number without a sign are digits. -/
theorem decimal_digits {n : ℕ} {c : UInt8} (hc : c ∈ decimal n) :
    48 ≤ c.toNat ∧ c.toNat ≤ 57 := by
  obtain ⟨ds, hds⟩ := exists_digitsOf n
  rw [hds.printed, List.mem_reverse, List.mem_map] at hc
  obtain ⟨d, hd, rfl⟩ := hc
  have hlt := hds.digit d hd
  rw [toNat_digitByte hlt]
  omega

theorem decimal_ne_nil (n : ℕ) : decimal n ≠ [] := by
  obtain ⟨ds, hds⟩ := exists_digitsOf n
  rw [hds.printed]
  simpa using hds.nonempty

/-- One step of `Util.parseLong`. -/
def shiftIn (ret : ℤ) (c : UInt8) : ℤ := Long.wrap (Long.wrap (ret * 10) + (c.toNat - 48))

theorem wrap_shiftIn (ret : ℤ) {d : ℕ} (hd : d < 10) :
    Long.wrap (shiftIn ret (digitByte d)) = Long.wrap (Long.wrap ret * 10 + d) := by
  have hdigit : (((digitByte d).toNat : ℤ) - 48) = d := by
    rw [toNat_digitByte hd]
    omega
  rw [shiftIn, hdigit, Long.wrap_wrap]
  simp only [Long.wrap]
  rw [Int.bmod_add_bmod, ← Int.bmod_add_bmod, ← Int.bmod_mul_bmod, Int.bmod_add_bmod]

theorem wrap_foldl_shiftIn {ds : List ℕ} (hds : ∀ d ∈ ds, d < 10) (v : ℤ) :
    Long.wrap ((ds.map digitByte).reverse.foldl shiftIn v) =
      Long.wrap (v * 10 ^ ds.length + (Nat.ofDigits 10 ds : ℕ)) := by
  induction ds with
  | nil => simp
  | cons d ds ih =>
    have ih := ih (fun d' hd' => hds d' (List.mem_cons_of_mem _ hd'))
    rw [List.map_cons, List.reverse_cons, List.foldl_append, List.foldl_cons, List.foldl_nil,
      wrap_shiftIn _ (hds d List.mem_cons_self), ih]
    simp only [Long.wrap]
    rw [← Int.bmod_add_bmod, Int.bmod_mul_bmod, Int.bmod_add_bmod, Nat.ofDigits_cons]
    congr 1
    push_cast
    rw [List.length_cons]
    ring

/-- What `Util.parseLong` returns is a `long`. -/
theorem wrap_parseLong (s : List UInt8) : Long.wrap (parseLong s) = parseLong s := by
  rcases List.eq_nil_or_concat s with rfl | ⟨front, c, rfl⟩
  · rfl
  · rw [parseLong, List.concat_eq_append, List.foldl_append, List.foldl_cons, List.foldl_nil]
    exact Long.wrap_wrap _

theorem parseLong_eq (s : List UInt8) : parseLong s = s.foldl shiftIn 0 := rfl

theorem parseLong_decimal (n : ℕ) : parseLong (decimal n) = Long.wrap n := by
  obtain ⟨ds, hds⟩ := exists_digitsOf n
  rw [← wrap_parseLong, parseLong_eq, hds.printed, wrap_foldl_shiftIn hds.digit, hds.value]
  simp

/-- The minus sign counts as the digit `-3`. -/
theorem parseLong_minus {n : ℕ} {ds : List ℕ} (hds : DigitsOf n ds) :
    parseLong (minus :: decimal n) = Long.wrap (-3 * 10 ^ ds.length + n) := by
  have hsign : shiftIn 0 minus = -3 := by decide
  rw [← wrap_parseLong, parseLong_eq, List.foldl_cons, hsign, hds.printed,
    wrap_foldl_shiftIn hds.digit, hds.value]

/-- A number without a sign is read as it was printed. -/
theorem parse_print_of_nonneg {x : Long} (hx : 0 ≤ x.1) : parseLong (printLong x.1) = x.1 := by
  rw [printLong, if_neg (not_lt.mpr hx), parseLong_decimal, Int.natAbs_of_nonneg hx,
    Long.wrap_val]

theorem wrap_eq_iff (x : Long) (y : ℤ) : Long.wrap y = x.1 ↔ (2 ^ 64 : ℤ) ∣ x.1 - y := by
  have hlow := x.2.1
  have hhigh := x.2.2
  rw [Long.wrap, Int.bmod_eq_iff (by decide)]
  refine ⟨fun h => h.2.2, fun h => ⟨by omega, by omega, h⟩⟩

/-- A number with a sign is read as it was printed when the error made for the sign, three
times a power of ten, is undone by the overflow. -/
theorem parse_print_neg_iff {x : Long} (hx : x.1 < 0) :
    parseLong (printLong x.1) = x.1 ↔ x.1 = -5776627963145224192 := by
  obtain ⟨ds, hds⟩ := exists_digitsOf x.1.natAbs
  have hbound := x.2.1
  have hhigh := hds.high
  have hlow := hds.low
  have hlen := hds.length_lt
  have habs : (x.1.natAbs : ℤ) = -x.1 := Int.ofNat_natAbs_of_nonpos hx.le
  rw [printLong, if_pos hx, parseLong_minus hds, wrap_eq_iff, habs]
  generalize ds.length = k at hhigh hlow hlen
  interval_cases k <;> omega

/-- The numbers `Util.parseLong` reads as they were printed. -/
theorem parse_print_iff (x : Long) : parseLong (printLong x.1) = x.1 ↔ Readable x := by
  rw [Readable]
  rcases lt_or_ge x.1 0 with hneg | hnonneg
  · rw [parse_print_neg_iff hneg]
    omega
  · simp [parse_print_of_nonneg hnonneg, hnonneg]

theorem foldl_digits {ds : List ℕ} (hds : ∀ d ∈ ds, d < 10) (v : ℕ) :
    (ds.map digitByte).reverse.foldl (fun n c => n * 10 + (c.toNat - 48)) v =
      v * 10 ^ ds.length + Nat.ofDigits 10 ds := by
  induction ds with
  | nil => simp
  | cons d ds ih =>
    have hd := hds d List.mem_cons_self
    rw [List.map_cons, List.reverse_cons, List.foldl_append, List.foldl_cons, List.foldl_nil,
      ih (fun d' hd' => hds d' (List.mem_cons_of_mem _ hd')), toNat_digitByte hd,
      Nat.ofDigits_cons, List.length_cons, Nat.add_sub_cancel_left]
    ring

theorem digitsValue_decimal (n : ℕ) : digitsValue (decimal n) = some n := by
  have hall : (decimal n).all isDigit = true := by
    rw [List.all_eq_true]
    intro c hc
    obtain ⟨hlow, hhigh⟩ := decimal_digits hc
    simp [isDigit, hlow, hhigh]
  obtain ⟨ds, hds⟩ := exists_digitsOf n
  rw [digitsValue, if_pos ⟨decimal_ne_nil n, hall⟩, hds.printed, foldl_digits hds.digit,
    hds.value, zero_mul, zero_add]

theorem inRange_val (x : Long) : inRange x.1 = some x.1 := if_pos x.2

/-- `Long.parseLong` reads every number as it was printed. -/
theorem javaParseLong_print (x : Long) : javaParseLong (printLong x.1) = some x.1 := by
  rw [printLong]
  rcases lt_or_ge x.1 0 with hneg | hnonneg
  · have habs : -(x.1.natAbs : ℤ) = x.1 := by omega
    rw [if_pos hneg, javaParseLong, if_pos rfl, digitsValue_decimal, Option.bind_some, habs,
      inRange_val]
  · have habs : (x.1.natAbs : ℤ) = x.1 := by omega
    rw [if_neg (not_lt.mpr hnonneg)]
    cases hdecimal : decimal x.1.natAbs with
    | nil => exact absurd hdecimal (decimal_ne_nil _)
    | cons c s =>
      have hdigit := decimal_digits (c := c) (n := x.1.natAbs) (by rw [hdecimal]; simp)
      have hminus : c ≠ minus := by
        intro heq
        rw [heq] at hdigit
        exact absurd hdigit (by decide)
      have hplus : c ≠ plus := by
        intro heq
        rw [heq] at hdigit
        exact absurd hdigit (by decide)
      rw [javaParseLong, if_neg hminus, if_neg hplus, ← hdecimal, digitsValue_decimal,
        Option.bind_some, habs, inRange_val]

/-- A printed number is a minus sign, perhaps, and digits. -/
theorem mem_printLong {x : ℤ} {c : UInt8} (hc : c ∈ printLong x) :
    c = minus ∨ (48 ≤ c.toNat ∧ c.toNat ≤ 57) := by
  rw [printLong] at hc
  split at hc
  · rcases List.mem_cons.mp hc with rfl | hc
    · exact .inl rfl
    · exact .inr (decimal_digits hc)
  · exact .inr (decimal_digits hc)

theorem printLong_ne_nil (x : ℤ) : printLong x ≠ [] := by
  rw [printLong]
  split
  · exact List.cons_ne_nil _ _
  · exact decimal_ne_nil _

/-- No byte of a number parts tokens or lines, or closes a text. -/
theorem printLong_not_special {x : ℤ} {c : UInt8} (hc : c ∈ printLong x) :
    c ∉ blanks ∧ c ≠ 0 ∧ c ≠ newline ∧ c ≠ carriageReturn := by
  have hspecial : ∀ b ∈ ([0, 9, 10, 12, 13, 32] : List UInt8), c ≠ b := by
    intro b hb heq
    subst heq
    rcases mem_printLong hc with rfl | hdigit
    · exact absurd hb (by decide)
    · have hsmall : c.toNat ≤ 32 := by
        have hall : ∀ b ∈ ([0, 9, 10, 12, 13, 32] : List UInt8), b.toNat ≤ 32 := by simp
        exact hall c hb
      omega
  refine ⟨?_, hspecial 0 (by decide), hspecial 10 (by decide), hspecial 13 (by decide)⟩
  intro hblank
  have hmem : c ∈ ([0, 9, 10, 12, 13, 32] : List UInt8) := by
    simp [blanks] at hblank
    rcases hblank with h | h | h | h | h <;> simp [h]
  exact hspecial c hmem rfl

/-- A printed `long` has at most twenty characters. -/
theorem length_printLong (x : Long) : (printLong x.1).length ≤ 20 := by
  obtain ⟨ds, hds⟩ := exists_digitsOf x.1.natAbs
  have hlen := hds.length_lt
  have hdecimal : (decimal x.1.natAbs).length = ds.length := by
    rw [hds.printed]
    simp
  rw [printLong]
  split
  · rw [List.length_cons]
    omega
  · omega

end Tejas.TraceFile
