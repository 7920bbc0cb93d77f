import Tejas.ReorderBuffer

/-!
# Which entries a result is announced to

The loop of `wakeUpLogic` goes round the reorder buffer from the entry behind the
producer. It passes over the issued entries, and stops at an entry that is not renamed
or that writes to the same physical register.
-/

namespace Tejas
open RingWindow RingIndices

namespace ReorderBuffer

variable {b b' : ReorderBuffer} {opndType : OperandType} {p : Option ℕ} {i j n : ℕ} {l : List ℕ}

/-- The positions of the list whose entries are told. -/
def scanned (b : ReorderBuffer) (opndType : OperandType) (p : Option ℕ) : List ℕ → List ℕ
  | [] => []
  | i :: l =>
    if (b.ROB i).isValid = false ∨ (b.ROB i).isRenameDone = false then []
    else if (b.ROB i).isIssued then scanned b opndType p l
    else if (b.ROB i).alsoWrites opndType p then [i]
    else i :: scanned b opndType p l

theorem scanned_congr (h : ∀ i ∈ l, b'.ROB i = b.ROB i) :
    b'.scanned opndType p l = b.scanned opndType p l := by
  induction l with
  | nil => rfl
  | cons i l ih =>
    rw [scanned, scanned, h i List.mem_cons_self,
      ih fun j hj => h j (List.mem_cons_of_mem _ hj)]

theorem mem_of_mem_scanned (h : j ∈ b.scanned opndType p l) :
    j ∈ l ∧ (b.ROB j).isValid = true ∧ (b.ROB j).isRenameDone = true ∧
      (b.ROB j).isIssued = false := by
  induction l with
  | nil => cases h
  | cons i l ih =>
    rw [scanned] at h
    split_ifs at h with hstop hissued halso
    · cases h
    · obtain ⟨hmem, hflags⟩ := ih h
      exact ⟨List.mem_cons_of_mem _ hmem, hflags⟩
    · rw [List.mem_singleton] at h
      subst h
      simp only [not_or, Bool.not_eq_false] at hstop
      exact ⟨List.mem_cons_self, hstop.1, hstop.2, by simpa using hissued⟩
    · simp only [not_or, Bool.not_eq_false] at hstop
      rcases List.mem_cons.mp h with rfl | h
      · exact ⟨List.mem_cons_self, hstop.1, hstop.2, by simpa using hissued⟩
      · obtain ⟨hmem, hflags⟩ := ih h
        exact ⟨List.mem_cons_of_mem _ hmem, hflags⟩

/-- An entry is told when no entry before it stops the loop. -/
theorem mem_scanned {before after : List ℕ} (hl : l = before ++ j :: after)
    (hbefore : ∀ i ∈ before, (b.ROB i).isValid = true ∧ (b.ROB i).isRenameDone = true ∧
      ((b.ROB i).isIssued = true ∨ (b.ROB i).alsoWrites opndType p = false))
    (hvalid : (b.ROB j).isValid = true) (hrenamed : (b.ROB j).isRenameDone = true)
    (hissued : (b.ROB j).isIssued = false) : j ∈ b.scanned opndType p l := by
  subst hl
  induction before with
  | nil =>
    rw [List.nil_append, scanned, if_neg (by simp [hvalid, hrenamed]), if_neg (by simp [hissued])]
    split_ifs
    · exact List.mem_singleton_self j
    · exact List.mem_cons_self
  | cons i before ih =>
    obtain ⟨hv, hr, hpass⟩ := hbefore i List.mem_cons_self
    have hrest := ih fun k hk => hbefore k (List.mem_cons_of_mem _ hk)
    rw [List.cons_append, scanned, if_neg (by simp [hv, hr])]
    split_ifs with hiss halso
    · exact hrest
    · rcases hpass with hpass | hpass
      · exact absurd hpass hiss
      · rw [hpass] at halso
        cases halso
    · exact List.mem_cons_of_mem _ hrest

/-- The loop wakes the entries that are told and changes nothing else. -/
theorem wakeUpScan_spec {fuel : ℕ} (hi : i < b.MaxROBSize) (hfuel : fuel ≤ b.MaxROBSize) :
    ∃ ROB, b.wakeUpScan opndType p i fuel = { b with ROB := ROB } ∧
      ∀ j, ROB j = if j ∈ b.scanned opndType p (slotsFrom b.MaxROBSize i 0 fuel)
        then (b.ROB j).wake opndType p else b.ROB j := by
  induction fuel generalizing b i with
  | zero => exact ⟨b.ROB, rfl, fun j => by simp [slotsFrom, scanned]⟩
  | succ fuel ih =>
    have hnext : (i + 1) % b.MaxROBSize < b.MaxROBSize := Nat.mod_lt _ (by omega)
    have hslots : slotsFrom b.MaxROBSize i 0 (fuel + 1) =
        i :: slotsFrom b.MaxROBSize ((i + 1) % b.MaxROBSize) 0 fuel := by
      rw [slotsFrom_succ, slot_zero hi]
      congr 1
      apply List.map_congr_left
      intro d _
      rw [slot_head_next, Nat.zero_add, Nat.zero_add, Nat.add_comm]
    have hnot : i ∉ slotsFrom b.MaxROBSize ((i + 1) % b.MaxROBSize) 0 fuel := by
      have hnodup : (slotsFrom b.MaxROBSize i 0 (fuel + 1)).Nodup := slotsFrom_nodup hfuel
      rw [hslots] at hnodup
      exact (List.nodup_cons.mp hnodup).1
    rw [wakeUpScan, hslots, scanned]
    by_cases hvalid : (b.ROB i).isValid = true
    · by_cases hrenamed : (b.ROB i).isRenameDone = true
      · simp only [hvalid, hrenamed, not_true_eq_false, ↓reduceIte, Bool.true_eq_false, or_self]
        by_cases hissued : (b.ROB i).isIssued = true
        · simp only [hissued, ↓reduceIte]
          exact ih hnext (by omega)
        · simp only [hissued]
          have hkept : ∀ j, j ≠ i →
              (b.setEntry i ((b.ROB i).wake opndType p)).ROB j = b.ROB j :=
            fun j hj => Function.update_of_ne hj _ _
          have hself : (b.setEntry i ((b.ROB i).wake opndType p)).ROB i =
              (b.ROB i).wake opndType p := Function.update_self _ _ _
          by_cases halso : (b.ROB i).alsoWrites opndType p = true
          · simp only [halso, ↓reduceIte, Bool.false_eq_true]
            refine ⟨_, rfl, fun j => ?_⟩
            by_cases hj : j = i
            · subst hj
              simp
            · simp [hj]
          · simp only [halso, Bool.false_eq_true, ↓reduceIte]
            obtain ⟨ROB, heq, hROB⟩ := ih (b := b.setEntry i ((b.ROB i).wake opndType p))
              hnext (by simp only [setEntry]; omega)
            have hcongr : (b.setEntry i ((b.ROB i).wake opndType p)).scanned opndType p
                (slotsFrom b.MaxROBSize ((i + 1) % b.MaxROBSize) 0 fuel) =
                b.scanned opndType p
                  (slotsFrom b.MaxROBSize ((i + 1) % b.MaxROBSize) 0 fuel) :=
              scanned_congr fun j hj => hkept j fun hji => hnot (hji ▸ hj)
            refine ⟨ROB, heq, fun j => ?_⟩
            rw [hROB j]
            change (if j ∈ (b.setEntry i ((b.ROB i).wake opndType p)).scanned opndType p
              (slotsFrom b.MaxROBSize ((i + 1) % b.MaxROBSize) 0 fuel) then _ else _) = _
            rw [hcongr]
            by_cases hj : j = i
            · subst hj
              have hout : j ∉ b.scanned opndType p
                  (slotsFrom b.MaxROBSize ((j + 1) % b.MaxROBSize) 0 fuel) :=
                fun hmem => hnot (mem_of_mem_scanned hmem).1
              simp [hout, hself]
            · simp [hj, hkept j hj]
      · simp only [hvalid, hrenamed]
        exact ⟨b.ROB, by simp, fun j => by simp⟩
    · simp only [hvalid]
      exact ⟨b.ROB, by simp, fun j => by simp⟩

/-- Going round from the entry behind `j` the loop first meets the younger entries. -/
theorem slots_behind (h : Bounded b.MaxROBSize b.head b.tail) {before after : List ℕ}
    (hwindow : b.window = before ++ j :: after) :
    ∃ rest, slotsFrom b.MaxROBSize ((j + 1) % b.MaxROBSize) 0 b.MaxROBSize = after ++ rest := by
  have hle := h.size_le
  have hlength := congrArg List.length hwindow
  rw [window, length_occupied, List.length_append, List.length_cons] at hlength
  have hsplit : b.window = slotsFrom b.MaxROBSize b.head.toNat 0 before.length ++
      slot b.MaxROBSize b.head.toNat before.length ::
        slotsFrom b.MaxROBSize b.head.toNat (before.length + 1) after.length := by
    rw [window, occupied, hlength, slotsFrom_add, slotsFrom_succ, Nat.zero_add]
  have hparts := List.append_inj (hwindow.symm.trans hsplit) (by simp [slotsFrom])
  obtain ⟨hj, hafter⟩ := List.cons.inj hparts.2
  have hround : slotsFrom b.MaxROBSize ((j + 1) % b.MaxROBSize) 0 b.MaxROBSize =
      slotsFrom b.MaxROBSize b.head.toNat (before.length + 1) b.MaxROBSize := by
    apply List.map_congr_left
    intro d _
    rw [hj, slot_next]
    simp [slot, Nat.add_assoc]
  have hsum : b.MaxROBSize = after.length + (b.MaxROBSize - after.length) := by omega
  refine ⟨slotsFrom b.MaxROBSize b.head.toNat (before.length + 1 + after.length)
    (b.MaxROBSize - after.length), ?_⟩
  calc slotsFrom b.MaxROBSize ((j + 1) % b.MaxROBSize) 0 b.MaxROBSize
      = slotsFrom b.MaxROBSize b.head.toNat (before.length + 1)
          (after.length + (b.MaxROBSize - after.length)) := by rw [hround, ← hsum]
    _ = _ := by rw [slotsFrom_add, ← hafter]

end ReorderBuffer

end Tejas
