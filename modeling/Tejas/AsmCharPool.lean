import Mathlib.Data.Int.Notation
import Tejas.CircularQueue

/-!
# Longs, and the pool of assembly texts

What the readers of packets share: the arithmetic of Java's `long`, and the rows of
`CustomAsmCharPool`, in which assembly texts wait beside the packets they belong to. The
pool itself is a circular queue of such rows.
-/

namespace Tejas

/-- The values of a Java `long`. -/
def Long : Type := { x : ℤ // -2 ^ 63 ≤ x ∧ x < 2 ^ 63 }

/-- Java's arithmetic on `long`. -/
def Long.wrap (x : ℤ) : ℤ := Int.bmod x (2 ^ 64)

theorem Long.wrap_val (x : Long) : Long.wrap x.1 = x.1 := by
  have hlow := x.2.1
  have hhigh := x.2.2
  exact Int.bmod_eq_of_le (by omega) (by omega)

theorem Long.wrap_wrap (x : ℤ) : Long.wrap (Long.wrap x) = Long.wrap x := Int.bmod_bmod

namespace CustomAsmCharPool

def bufferSize : ℕ := 2 * 1024

/-- A row of the pool while up to 64 bytes are copied to it, from byte `offset` of an
array of `length` bytes on. A short array is closed with a zero. -/
def copyRow (inputBytes : ℕ → UInt8) (length offset : ℕ) (row : ℕ → UInt8) : ℕ → UInt8 :=
  fun i =>
    if 64 ≤ i then row i
    else if offset + i < length then inputBytes (offset + i)
    else if i = length - offset then 0
    else row i

/-- The 64 bytes of a row. -/
def rowBytes (row : ℕ → UInt8) : List UInt8 := (List.range 64).map row

/-- The text of a row: a zero closes it. -/
def rowText (row : ℕ → UInt8) : List UInt8 := (rowBytes row).takeWhile (· ≠ 0)

end CustomAsmCharPool

end Tejas
