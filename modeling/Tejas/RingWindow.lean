import Mathlib.Data.Nat.ModEq
import Mathlib.Data.List.Nodup

/-!
# Windows of a ring buffer

A ring of `n` slots is read from a head. Position `k` of the ring is the slot `k`
steps after the head. Any `n` consecutive positions name each slot once.
-/

namespace Tejas.RingWindow

variable {n head i j k m : ℕ}

/-- The slot `k` steps after the head. -/
def slot (n head k : ℕ) : ℕ := (head + k) % n

theorem slot_lt (hn : 0 < n) (head k : ℕ) : slot n head k < n := Nat.mod_lt _ hn

@[simp] theorem slot_zero (h : head < n) : slot n head 0 = head := Nat.mod_eq_of_lt h

theorem slot_next (n head k : ℕ) : (slot n head k + 1) % n = slot n head (k + 1) := by
  simp [slot, Nat.add_assoc]

/-- Moving the head on by one shifts every position by one. -/
theorem slot_head_next (n head k : ℕ) : slot n ((head + 1) % n) k = slot n head (k + 1) := by
  simp [slot, Nat.add_assoc, Nat.add_comm 1 k]

/-- A position behind the head, counted from the next head. -/
theorem slot_behind_head (hm : m = n) (h : head < n)
    (hne : ¬ head = slot n head k) :
    k ≠ 0 ∧ slot n head k = slot m ((head + 1) % n) (k - 1) := by
  have hpos : k ≠ 0 := by
    rintro rfl
    exact hne (slot_zero h).symm
  refine ⟨hpos, ?_⟩
  rw [hm, slot_head_next, Nat.sub_add_cancel (Nat.pos_of_ne_zero hpos)]

/-- Going once round the ring comes back to the same slot. -/
theorem slot_add_size (n head k : ℕ) : slot n head (k + n) = slot n head k := by
  simp [slot, ← Nat.add_assoc]

theorem slot_inj_of_le (hjk : j ≤ k) (hk : k < j + n) (h : slot n head j = slot n head k) :
    j = k := by
  have hmod : j ≡ k [MOD n] := Nat.ModEq.add_left_cancel' head h
  have hdvd : n ∣ k - j := (Nat.modEq_iff_dvd' hjk).mp hmod
  have hzero : k - j = 0 := Nat.eq_zero_of_dvd_of_lt hdvd (by omega)
  omega

/-- Positions of one window name different slots. -/
theorem slot_inj (hj : j < n) (hk : k < n) : slot n head j = slot n head k ↔ j = k := by
  refine ⟨fun h => ?_, fun h => h ▸ rfl⟩
  rcases Nat.le_total j k with hjk | hkj
  · exact slot_inj_of_le hjk (by omega) h
  · exact (slot_inj_of_le hkj (by omega) h.symm).symm

/-- Every slot has a position. -/
theorem exists_slot (hi : i < n) (hhead : head < n) : ∃ k < n, slot n head k = i := by
  rcases Nat.lt_or_ge i head with h | h
  · refine ⟨n + i - head, by omega, ?_⟩
    have hsum : head + (n + i - head) = i + n := by omega
    rw [slot, hsum, Nat.add_mod_right, Nat.mod_eq_of_lt hi]
  · refine ⟨i - head, by omega, ?_⟩
    have hsum : head + (i - head) = i := by omega
    rw [slot, hsum, Nat.mod_eq_of_lt hi]

/-- The `m` slots from position `k` on. -/
def slotsFrom (n head k m : ℕ) : List ℕ := (List.range m).map (fun d => slot n head (k + d))

theorem slotsFrom_succ (n head k m : ℕ) :
    slotsFrom n head k (m + 1) = slot n head k :: slotsFrom n head (k + 1) m := by
  rw [slotsFrom, List.range_succ_eq_map, List.map_cons, List.map_map, slotsFrom]
  congr 1
  apply List.map_congr_left
  intro d _
  simp only [Function.comp_apply]
  congr 1
  omega

theorem slotsFrom_add (n head k l m : ℕ) :
    slotsFrom n head k (l + m) = slotsFrom n head k l ++ slotsFrom n head (k + l) m := by
  simp [slotsFrom, List.range_add, Nat.add_assoc]

theorem slotsFrom_add_size (n head k m : ℕ) :
    slotsFrom n head (k + n) m = slotsFrom n head k m := by
  apply List.map_congr_left
  intro d _
  rw [show k + n + d = (k + d) + n by omega, slot_add_size]

theorem mem_slotsFrom : i ∈ slotsFrom n head k m ↔ ∃ d < m, slot n head (k + d) = i := by
  simp [slotsFrom]

/-- At most `n` consecutive slots are all different. -/
theorem slotsFrom_nodup (hm : m ≤ n) : (slotsFrom n head k m).Nodup := by
  refine List.Nodup.map_on ?_ List.nodup_range
  intro a ha b hb heq
  rw [List.mem_range] at ha hb
  rcases Nat.le_total a b with hab | hba
  · have := slot_inj_of_le (by omega : k + a ≤ k + b) (by omega) heq
    omega
  · have := slot_inj_of_le (by omega : k + b ≤ k + a) (by omega) heq.symm
    omega

end Tejas.RingWindow
