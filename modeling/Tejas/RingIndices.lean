import Tejas.RingWindow
import Mathlib.Data.Int.Notation

/-!
# Indices of a ring that is empty at `-1`

A ring of `n` slots keeps the index of its first and of its last occupied slot, and
`-1` for both when no slot is occupied. A slot is added after the tail and removed at
the head.
-/

namespace Tejas.RingIndices
open RingWindow

variable {n i : ℕ} {head tail : ℤ}

/-- The number of occupied slots. -/
def size (n : ℕ) (head tail : ℤ) : ℕ :=
  if head = -1 then 0
  else if tail ≥ head then (tail - head + 1).toNat
  else (n - head + tail + 1).toNat

/-- The occupied slots from the head to the tail. -/
def occupied (n : ℕ) (head tail : ℤ) : List ℕ := slotsFrom n head.toNat 0 (size n head tail)

/-- Both indices name slots, or the ring is empty. A ring without slots may keep its
head at the first slot it would have. -/
def Bounded (n : ℕ) (head tail : ℤ) : Prop :=
  (head = -1 ∧ tail = -1) ∨ (0 ≤ head ∧ head < n ∧ 0 ≤ tail ∧ tail < n) ∨
    (n = 0 ∧ head = 0 ∧ tail = -1)

def pushHead (head : ℤ) : ℤ := if head = -1 then 0 else head

def pushTail (n : ℕ) (tail : ℤ) : ℤ := (tail + 1) % n

def popHead (n : ℕ) (head tail : ℤ) : ℤ := if head = tail then -1 else (head + 1) % n

def popTail (head tail : ℤ) : ℤ := if head = tail then -1 else tail

def popBackHead (head tail : ℤ) : ℤ := if head = tail then -1 else head

def popBackTail (n : ℕ) (head tail : ℤ) : ℤ :=
  if head = tail then -1 else if tail = 0 then n - 1 else tail - 1

@[simp] theorem size_empty (n : ℕ) (tail : ℤ) : size n (-1) tail = 0 := by simp [size]

@[simp] theorem length_occupied (n : ℕ) (head tail : ℤ) :
    (occupied n head tail).length = size n head tail := by
  simp [occupied, slotsFrom]

theorem Bounded.size_le (h : Bounded n head tail) : size n head tail ≤ n := by
  rcases h with ⟨rfl, rfl⟩ | ⟨h0, hn, t0, tn⟩ | ⟨rfl, rfl, rfl⟩
  · simp
  · rw [size]
    split_ifs <;> omega
  · simp [size]

theorem Bounded.occupied_nodup (h : Bounded n head tail) : (occupied n head tail).Nodup :=
  slotsFrom_nodup h.size_le

theorem Bounded.lt_of_mem_occupied (h : Bounded n head tail) (hi : i ∈ occupied n head tail) :
    i < n := by
  obtain ⟨d, hd, rfl⟩ := mem_slotsFrom.mp hi
  exact slot_lt (lt_of_lt_of_le (Nat.zero_lt_of_lt hd) h.size_le) _ _

/-- The ring is empty exactly when it has no slot, or its head is `-1`. -/
theorem Bounded.size_eq_zero_iff (h : Bounded n head tail) (hn : 0 < n) :
    size n head tail = 0 ↔ head = -1 := by
  rcases h with ⟨rfl, rfl⟩ | ⟨h0, hlt, t0, tn⟩ | ⟨rfl, rfl, rfl⟩
  · simp
  · rw [size]
    split_ifs <;> omega
  · omega

theorem Bounded.pushTail_eq (h : Bounded n head tail) (hn : 0 < n) :
    pushTail n tail = if tail + 1 = n then 0 else tail + 1 := by
  rw [pushTail]
  split
  · rename_i heq
    rw [heq, Int.emod_self]
  · apply Int.emod_eq_of_lt
    all_goals rcases h with ⟨rfl, rfl⟩ | ⟨h0, hlt, t0, tn⟩ | ⟨rfl, rfl, rfl⟩ <;> omega

theorem Bounded.push (h : Bounded n head tail) (hn : 0 < n) :
    Bounded n (pushHead head) (pushTail n tail) := by
  rw [h.pushTail_eq hn, pushHead]
  right
  left
  rcases h with ⟨rfl, rfl⟩ | ⟨h0, hlt, t0, tn⟩ | ⟨rfl, rfl, rfl⟩
  · split_ifs <;> omega
  · split_ifs <;> omega
  · omega

theorem Bounded.size_push (h : Bounded n head tail) (hfull : size n head tail < n) :
    size n (pushHead head) (pushTail n tail) = size n head tail + 1 := by
  rw [h.pushTail_eq (by omega), pushHead]
  rcases h with ⟨rfl, rfl⟩ | ⟨h0, hlt, t0, tn⟩ | ⟨rfl, rfl, rfl⟩
  · simp only [size]
    split_ifs <;> omega
  · simp only [size] at hfull ⊢
    split_ifs at hfull ⊢ <;> omega
  · omega

/-- The slot after the last occupied one. -/
theorem Bounded.slot_size (h : Bounded n head tail) (hfull : size n head tail < n) :
    slot n head.toNat (size n head tail) = (pushTail n tail).toNat := by
  rw [h.pushTail_eq (by omega)]
  rcases h with ⟨rfl, rfl⟩ | ⟨h0, hlt, t0, tn⟩ | ⟨rfl, rfl, rfl⟩
  · have hn : 0 < n := by omega
    rw [size_empty, slot]
    split_ifs <;> simp
  · have hsum : head.toNat + size n head tail = (tail + 1).toNat ∨
        head.toNat + size n head tail = n + (tail + 1).toNat := by
      rw [size]
      split_ifs <;> omega
    have hmod : slot n head.toNat (size n head tail) = (tail + 1).toNat % n := by
      rcases hsum with hsum | hsum
      · rw [slot, hsum]
      · rw [slot, hsum, Nat.add_mod_left]
    rw [hmod]
    split
    · rename_i heq
      rw [heq, Int.toNat_natCast, Nat.mod_self]
      rfl
    · exact Nat.mod_eq_of_lt (by omega)
  · omega

/-- Adding a slot puts it behind the others. -/
theorem Bounded.occupied_push (h : Bounded n head tail) (hfull : size n head tail < n) :
    occupied n (pushHead head) (pushTail n tail) =
      occupied n head tail ++ [(pushTail n tail).toNat] := by
  have hhead : (pushHead head).toNat = head.toNat := by
    rw [pushHead]
    split_ifs with heq
    · simp [heq]
    · rfl
  rw [occupied, occupied, h.size_push hfull, hhead, slotsFrom_add, ← h.slot_size hfull]
  simp [slotsFrom]

/-- The slot that is added was not occupied. -/
theorem Bounded.pushTail_not_mem (h : Bounded n head tail) (hfull : size n head tail < n) :
    (pushTail n tail).toNat ∉ occupied n head tail := by
  have hnodup := (h.push (by omega)).occupied_nodup
  rw [h.occupied_push hfull] at hnodup
  intro hmem
  exact (List.nodup_append.mp hnodup).2.2 _ hmem _ (List.mem_singleton_self _) rfl

theorem Bounded.pop (h : Bounded n head tail) (hpos : 0 < size n head tail) :
    Bounded n (popHead n head tail) (popTail head tail) := by
  rw [popHead, popTail]
  split
  · exact .inl ⟨rfl, rfl⟩
  · rcases h with ⟨rfl, rfl⟩ | ⟨h0, hlt, t0, tn⟩ | ⟨rfl, rfl, rfl⟩
    · simp at hpos
    · have hn : (0 : ℤ) < n := by omega
      exact .inr (.inl ⟨Int.emod_nonneg _ (by omega), Int.emod_lt_of_pos _ hn, t0, tn⟩)
    · simp [size] at hpos

/-- Removing at the head takes the first slot away. -/
theorem Bounded.occupied_pop (h : Bounded n head tail) (hpos : 0 < size n head tail) :
    occupied n head tail = head.toNat :: occupied n (popHead n head tail) (popTail head tail) := by
  rcases h with ⟨rfl, rfl⟩ | ⟨h0, hlt, t0, tn⟩ | ⟨rfl, rfl, rfl⟩
  · simp at hpos
  · have hnext : head ≠ tail → size n (popHead n head tail) (popTail head tail) + 1 =
        size n head tail ∧ (popHead n head tail).toNat = (head.toNat + 1) % n := by
      intro hne
      have htail : popTail head tail = tail := if_neg hne
      rw [htail, popHead, if_neg hne]
      by_cases hlast : head + 1 = n
      · have hmod : head.toNat + 1 = n := by omega
        rw [hlast, Int.emod_self, hmod, Nat.mod_self]
        refine ⟨?_, rfl⟩
        rw [size, size, if_neg (by decide), if_pos t0]
        split_ifs <;> omega
      · rw [Int.emod_eq_of_lt (by omega) (by omega), Nat.mod_eq_of_lt (by omega)]
        refine ⟨?_, by omega⟩
        simp only [size]
        split_ifs <;> omega
    have hfirst : slot n head.toNat 0 = head.toNat := slot_zero (by omega)
    by_cases heq : head = tail
    · subst heq
      have hone : size n head head = 1 := by
        rw [size]
        split_ifs <;> omega
      simp [occupied, hone, popHead, slotsFrom, hfirst]
    · obtain ⟨hsize, hhead⟩ := hnext heq
      rw [occupied, ← hsize, slotsFrom_succ, hfirst, occupied, hhead]
      congr 1
      apply List.map_congr_left
      intro d _
      rw [slot_head_next]
      congr 1
      omega
  · simp [size] at hpos

theorem Bounded.popBack (h : Bounded n head tail) (hpos : 0 < size n head tail) :
    Bounded n (popBackHead head tail) (popBackTail n head tail) := by
  rw [popBackHead, popBackTail]
  rcases h with ⟨rfl, rfl⟩ | ⟨h0, hn, t0, tn⟩ | ⟨rfl, rfl, rfl⟩
  · simp at hpos
  · split
    · exact .inl ⟨rfl, rfl⟩
    · right
      left
      split_ifs <;> omega
  · simp [size] at hpos

/-- Removing at the tail takes the last slot away. -/
theorem Bounded.occupied_popBack (h : Bounded n head tail) (hpos : 0 < size n head tail) :
    occupied n head tail =
      occupied n (popBackHead head tail) (popBackTail n head tail) ++ [tail.toNat] := by
  have hrange : 0 ≤ head ∧ head < n ∧ 0 ≤ tail ∧ tail < n := by
    rcases h with ⟨rfl, rfl⟩ | hrange | ⟨rfl, rfl, rfl⟩
    · simp at hpos
    · exact hrange
    · simp [size] at hpos
  obtain ⟨h0, hn, t0, tn⟩ := hrange
  by_cases heq : head = tail
  · subst heq
    have hone : size n head head = 1 := by
      rw [size]
      split_ifs <;> omega
    have hfirst : slot n head.toNat 0 = head.toNat := slot_zero (by omega)
    simp [occupied, hone, popBackHead, slotsFrom, hfirst]
  · have hpopped := h.popBack hpos
    have hhead : pushHead (popBackHead head tail) = head := by
      rw [popBackHead, if_neg heq, pushHead, if_neg (by omega)]
    have htail : pushTail n (popBackTail n head tail) = tail := by
      rw [hpopped.pushTail_eq (by omega), popBackTail, if_neg heq]
      split_ifs <;> omega
    have hsize : size n (popBackHead head tail) (popBackTail n head tail) < n := by
      rw [popBackHead, popBackTail, if_neg heq, if_neg heq, size]
      split_ifs <;> omega
    have hpush := hpopped.occupied_push hsize
    rwa [hhead, htail] at hpush

end Tejas.RingIndices
