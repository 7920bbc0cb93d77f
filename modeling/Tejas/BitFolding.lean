import Mathlib.Algebra.Ring.Nat

/-!
# Folding bits onto a short register

The bits of a history, newest first, are folded onto `C` bits: bit `i` goes to position
`i % C`. When a bit enters the history the folded register is shifted by one, the new bit is
inserted, the bit that leaves the history is taken out, and what stands beyond the `C` bits
is wrapped onto the low ones.
-/

namespace Tejas.BitFolding

variable {C O b k x y : ℕ} {h h' : ℕ → ℕ}

/-- The xor over `i < O` of `h i <<< (i % C)`. -/
def folding (C : ℕ) (h : ℕ → ℕ) : ℕ → ℕ
  | 0 => 0
  | i + 1 => folding C h i ^^^ h i <<< (i % C)

/-- What stands beyond the low `C` bits is wrapped onto them. -/
def wrap (C x : ℕ) : ℕ := (x ^^^ x >>> C) % 2 ^ C

theorem bit_shift_lt (hb : b ≤ 1) (hk : k < C) : b <<< k < 2 ^ C := by
  rw [Nat.shiftLeft_eq]
  calc b * 2 ^ k ≤ 1 * 2 ^ k := Nat.mul_le_mul_right _ hb
    _ = 2 ^ k := Nat.one_mul _
    _ < 2 ^ C := Nat.pow_lt_pow_right (by decide) hk

theorem folding_lt (hC : 1 ≤ C) (hh : ∀ i, h i ≤ 1) : folding C h O < 2 ^ C := by
  induction O with
  | zero => exact Nat.two_pow_pos C
  | succ i ih => exact Nat.xor_lt_two_pow ih (bit_shift_lt (hh i) (Nat.mod_lt i hC))

theorem wrap_xor : wrap C (x ^^^ y) = wrap C x ^^^ wrap C y := by
  have hswap : (x ^^^ y) ^^^ (x >>> C ^^^ y >>> C) = (x ^^^ x >>> C) ^^^ (y ^^^ y >>> C) := by
    rw [Nat.xor_assoc, ← Nat.xor_assoc y, Nat.xor_comm y, Nat.xor_assoc (x >>> C),
      ← Nat.xor_assoc x]
  rw [wrap, Nat.shiftRight_xor_distrib, hswap, Nat.xor_mod_two_pow]
  rfl

theorem wrap_of_lt (hx : x < 2 ^ C) : wrap C x = x := by
  rw [wrap, Nat.shiftRight_eq_div_pow, Nat.div_eq_of_lt hx, Nat.xor_zero, Nat.mod_eq_of_lt hx]

/-- A single bit at position `C` is wrapped to position 0. -/
theorem wrap_bit (hC : 1 ≤ C) (hb : b ≤ 1) (hk : k ≤ C) : wrap C (b <<< k) = b <<< (k % C) := by
  rcases Nat.lt_or_eq_of_le hk with hlt | rfl
  · rw [Nat.mod_eq_of_lt hlt, wrap_of_lt (bit_shift_lt hb hlt)]
  · have hlow : b <<< k % 2 ^ k = 0 := by
      rw [Nat.shiftLeft_eq]
      exact Nat.mul_mod_left b _
    have hb' : b < 2 ^ k := Nat.lt_of_le_of_lt hb (Nat.one_lt_two_pow (by omega))
    rw [Nat.mod_self, wrap, Nat.xor_mod_two_pow, hlow, Nat.zero_xor, Nat.shiftLeft_shiftRight,
      Nat.mod_eq_of_lt hb']
    rfl

/-- The register after a bit entered the history is the folding of the new history. -/
theorem wrap_folding (hC : 1 ≤ C) (hh : ∀ i, h' i ≤ 1) (hnext : ∀ i < O, h' (i + 1) = h i) :
    wrap C (folding C h O <<< 1 ^^^ h' 0 ^^^ h' O <<< (O % C)) = folding C h' O := by
  induction O with
  | zero =>
    rw [folding, Nat.zero_shiftLeft, Nat.zero_xor, Nat.zero_mod, Nat.shiftLeft_zero,
      Nat.xor_self]
    exact wrap_of_lt (Nat.two_pow_pos C)
  | succ i ih =>
    have hprior := ih (fun j hj => hnext j (Nat.lt_succ_of_lt hj))
    have hmod : i % C < C := Nat.mod_lt i hC
    rw [wrap_xor, wrap_bit hC (hh i) (Nat.le_of_lt hmod), Nat.mod_mod] at hprior
    have hshifted : folding C h (i + 1) <<< 1 =
        folding C h i <<< 1 ^^^ h' (i + 1) <<< (i % C + 1) := by
      rw [folding, Nat.shiftLeft_xor_distrib, ← hnext i (Nat.lt_succ_self i), Nat.shiftLeft_add]
    have hout : wrap C (h' (i + 1) <<< (i % C + 1)) = wrap C (h' (i + 1) <<< ((i + 1) % C)) := by
      have hmod' : (i + 1) % C < C := Nat.mod_lt (i + 1) hC
      have hlast : i % C + 1 ≤ C := hmod
      rw [wrap_bit hC (hh (i + 1)) hlast, wrap_bit hC (hh (i + 1)) (Nat.le_of_lt hmod'),
        Nat.mod_mod, Nat.mod_add_mod]
    calc wrap C (folding C h (i + 1) <<< 1 ^^^ h' 0 ^^^ h' (i + 1) <<< ((i + 1) % C))
        = wrap C (folding C h i <<< 1 ^^^ h' 0) ^^^ wrap C (h' (i + 1) <<< (i % C + 1)) ^^^
            wrap C (h' (i + 1) <<< ((i + 1) % C)) := by
          rw [hshifted, Nat.xor_assoc (folding C h i <<< 1), Nat.xor_comm (_ <<< (i % C + 1)),
            ← Nat.xor_assoc (folding C h i <<< 1), wrap_xor, wrap_xor]
      _ = wrap C (folding C h i <<< 1 ^^^ h' 0) := by
          rw [hout, Nat.xor_assoc, Nat.xor_self, Nat.xor_zero]
      _ = folding C h' i ^^^ h' i <<< (i % C) := by
          rw [← hprior, Nat.xor_assoc, Nat.xor_self, Nat.xor_zero]
      _ = folding C h' (i + 1) := rfl

end Tejas.BitFolding
