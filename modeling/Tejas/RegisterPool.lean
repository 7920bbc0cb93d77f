import Mathlib.Data.Finset.Card
import Mathlib.Data.Finset.Prod
import Mathlib.Logic.Function.Basic

/-!
# Renaming names to registers of a pool

Every name is mapped to a register. A new version of a name takes a register from the
free list and is pending until its value is written. The register of the old version
goes back to the list at once when its own value is there, and otherwise when that
value is written. So every register is free, mapped, or unmapped with a write pending.
-/

namespace Tejas.RegisterPool

open scoped Classical

universe u v

/-- The free registers, the register of each name, and the registers whose value has
not been written yet. -/
@[ext] structure Pool (A : Type u) (P : Type v) where
  free : List P
  mapping : A → P
  pending : P → Prop

variable {A : Type u} {P : Type v} {names : Finset A} {registers : Finset P} {s : Pool A P}
  {a : A} {p q : P}

namespace Pool

/-- The register is the current version of a name. -/
def Mapped (names : Finset A) (s : Pool A P) (p : P) : Prop := ∃ a ∈ names, s.mapping a = p

/-- A new version of a name takes the free register `p`, with `rest` left over. -/
noncomputable def allocate (s : Pool A P) (a : A) (p : P) (rest : List P) : Pool A P where
  free := if s.pending (s.mapping a) then rest else rest ++ [s.mapping a]
  mapping := Function.update s.mapping a p
  pending q := q = p ∨ s.pending q

/-- The value of a pending register is written. -/
noncomputable def settle (names : Finset A) (s : Pool A P) (p : P) : Pool A P where
  free := if s.Mapped names p then s.free else s.free ++ [p]
  mapping := s.mapping
  pending q := s.pending q ∧ q ≠ p

/-- After a new version the registers of the other names are mapped, and the new one. -/
theorem mapped_allocate (ha : a ∈ names) {rest : List P} :
    (s.allocate a p rest).Mapped names q ↔ q = p ∨ ∃ b ∈ names, b ≠ a ∧ s.mapping b = q := by
  constructor
  · rintro ⟨b, hb, hbq⟩
    by_cases hba : b = a
    · subst hba
      left
      rw [← hbq]
      simp [allocate]
    · right
      exact ⟨b, hb, hba, by simpa [allocate, hba] using hbq⟩
  · rintro (rfl | ⟨b, hb, hba, hbq⟩)
    · exact ⟨a, ha, by simp [allocate]⟩
    · exact ⟨b, hb, by simpa [allocate, hba] using hbq⟩

end Pool

/-- No register is lost and none is in two places. -/
structure Conserved (names : Finset A) (registers : Finset P) (s : Pool A P) : Prop where
  free_nodup : s.free.Nodup
  free_registers : ∀ p ∈ s.free, p ∈ registers
  free_unmapped : ∀ p ∈ s.free, ¬ s.Mapped names p
  free_settled : ∀ p ∈ s.free, ¬ s.pending p
  mapping_registers : ∀ a ∈ names, s.mapping a ∈ registers
  mapping_injective : ∀ a ∈ names, ∀ b ∈ names, s.mapping a = s.mapping b → a = b
  pending_registers : ∀ p, s.pending p → p ∈ registers
  covered : ∀ p ∈ registers, p ∈ s.free ∨ s.Mapped names p ∨ s.pending p

namespace Conserved

/-- The free and the mapped registers are at most all registers. -/
theorem length_free_le (h : Conserved names registers s) :
    s.free.length + names.card ≤ registers.card := by
  have hfree : s.free.toFinset.card = s.free.length := List.toFinset_card_of_nodup h.free_nodup
  have hmapped : (names.image s.mapping).card = names.card :=
    Finset.card_image_of_injOn fun a ha b hb hab => h.mapping_injective a ha b hb hab
  have hdisjoint : Disjoint s.free.toFinset (names.image s.mapping) := by
    rw [Finset.disjoint_left]
    intro p hp hm
    exact h.free_unmapped p (List.mem_toFinset.mp hp) (Finset.mem_image.mp hm)
  rw [← hfree, ← hmapped, ← Finset.card_union_of_disjoint hdisjoint]
  apply Finset.card_le_card
  intro p hp
  rcases Finset.mem_union.mp hp with hp | hp
  · exact h.free_registers p (List.mem_toFinset.mp hp)
  · obtain ⟨a, ha, rfl⟩ := Finset.mem_image.mp hp
    exact h.mapping_registers a ha

/-- When every value is written, the registers that are not mapped are free. -/
theorem card_le_length_free (h : Conserved names registers s) (hsettled : ∀ p, ¬ s.pending p) :
    registers.card ≤ s.free.length + names.card := by
  have hcovered : registers ⊆ s.free.toFinset ∪ names.image s.mapping := by
    intro p hp
    rw [Finset.mem_union, List.mem_toFinset, Finset.mem_image]
    exact (h.covered p hp).imp_right fun hrest => hrest.resolve_right (hsettled p)
  calc registers.card
    _ ≤ (s.free.toFinset ∪ names.image s.mapping).card := Finset.card_le_card hcovered
    _ ≤ s.free.toFinset.card + (names.image s.mapping).card := Finset.card_union_le _ _
    _ ≤ s.free.length + names.card :=
        Nat.add_le_add (List.toFinset_card_le _) Finset.card_image_le

/-- The name of a mapped register is its only one. -/
theorem existsUnique_name (h : Conserved names registers s) (hm : s.Mapped names p) :
    ∃! a, a ∈ names ∧ s.mapping a = p := by
  obtain ⟨a, ha, hap⟩ := hm
  exact ⟨a, ⟨ha, hap⟩, fun b hb => h.mapping_injective b hb.1 a ha (hb.2.trans hap.symm)⟩

/-- The register of the old version is the only one that is no longer mapped. -/
theorem mapped_allocate (h : Conserved names registers s) (ha : a ∈ names) {rest : List P} :
    (s.allocate a p rest).Mapped names q ↔ q = p ∨ q ≠ s.mapping a ∧ s.Mapped names q := by
  rw [Pool.mapped_allocate ha]
  constructor
  · rintro (hq | ⟨b, hb, hba, hbq⟩)
    · exact .inl hq
    · refine .inr ⟨fun hqa => hba ?_, b, hb, hbq⟩
      exact h.mapping_injective b hb a ha (hbq.trans hqa)
  · rintro (hq | ⟨hqa, b, hb, hbq⟩)
    · exact .inl hq
    · refine .inr ⟨b, hb, ?_, hbq⟩
      rintro rfl
      exact hqa hbq.symm

/-- A new version of a name conserves the registers. -/
theorem allocate (h : Conserved names registers s) (ha : a ∈ names) {rest : List P}
    (hfree : s.free = p :: rest) : Conserved names registers (s.allocate a p rest) := by
  have hp : p ∈ s.free := by rw [hfree]; exact List.mem_cons_self
  have hnodup := h.free_nodup
  rw [hfree] at hnodup
  obtain ⟨hprest, hrest⟩ := List.nodup_cons.mp hnodup
  have hrest_free : ∀ q ∈ rest, q ∈ s.free := fun q hq => by
    rw [hfree]
    exact List.mem_cons_of_mem _ hq
  have hold : s.mapping a ∉ s.free := fun hq => h.free_unmapped _ hq ⟨a, ha, rfl⟩
  have hmem : ∀ q, q ∈ (s.allocate a p rest).free ↔
      q ∈ rest ∨ (q = s.mapping a ∧ ¬ s.pending (s.mapping a)) := by
    intro q
    simp only [Pool.allocate]
    split_ifs with hpend <;> simp [hpend]
  have hmapped : ∀ q, (s.allocate a p rest).Mapped names q ↔
      q = p ∨ ∃ b ∈ names, b ≠ a ∧ s.mapping b = q := fun q => Pool.mapped_allocate ha
  refine ⟨?_, ?_, ?_, ?_, ?_, ?_, ?_, ?_⟩
  · simp only [Pool.allocate]
    split_ifs
    · exact hrest
    · refine List.nodup_append.mpr ⟨hrest, List.nodup_singleton _, ?_⟩
      intro q hq r hr heq
      rw [List.mem_singleton.mp hr] at heq
      exact hold (heq ▸ hrest_free q hq)
  · intro q hq
    rcases (hmem q).mp hq with hq | ⟨rfl, -⟩
    · exact h.free_registers q (hrest_free q hq)
    · exact h.mapping_registers a ha
  · intro q hq hm
    rcases (hmem q).mp hq with hleft | ⟨rfl, -⟩
    · rcases (hmapped q).mp hm with rfl | ⟨b, hb, -, hbq⟩
      · exact hprest hleft
      · exact h.free_unmapped q (hrest_free q hleft) ⟨b, hb, hbq⟩
    · rcases (hmapped _).mp hm with heq | ⟨b, hb, hba, hbq⟩
      · exact hold (heq ▸ hp)
      · exact hba (h.mapping_injective b hb a ha hbq)
  · intro q hq hpend
    rcases (hmem q).mp hq with hleft | ⟨rfl, hsettled⟩
    · rcases hpend with rfl | hpend
      · exact hprest hleft
      · exact h.free_settled q (hrest_free q hleft) hpend
    · rcases hpend with heq | hpend
      · exact hold (heq ▸ hp)
      · exact hsettled hpend
  · intro b hb
    by_cases hba : b = a
    · subst hba
      simpa [Pool.allocate] using h.free_registers p hp
    · simpa [Pool.allocate, hba] using h.mapping_registers b hb
  · intro b hb c hc heq
    have hnew : ∀ d ∈ names, d ≠ a → s.mapping d ≠ p :=
      fun d hd _ hdp => h.free_unmapped p hp ⟨d, hd, hdp⟩
    by_cases hba : b = a <;> by_cases hca : c = a
    · rw [hba, hca]
    · subst hba
      simp only [Pool.allocate, Function.update_self, Function.update_of_ne hca] at heq
      exact absurd heq.symm (hnew c hc hca)
    · subst hca
      simp only [Pool.allocate, Function.update_self, Function.update_of_ne hba] at heq
      exact absurd heq (hnew b hb hba)
    · simp only [Pool.allocate, Function.update_of_ne hba, Function.update_of_ne hca] at heq
      exact h.mapping_injective b hb c hc heq
  · rintro q (rfl | hq)
    · exact h.free_registers _ hp
    · exact h.pending_registers q hq
  · intro q hq
    rcases h.covered q hq with hf | ⟨b, hb, hbq⟩ | hpend
    · rw [hfree, List.mem_cons] at hf
      rcases hf with rfl | hf
      · exact .inr (.inl ((hmapped _).mpr (.inl rfl)))
      · exact .inl ((hmem q).mpr (.inl hf))
    · by_cases hba : b = a
      · subst hba
        by_cases hpend : s.pending (s.mapping b)
        · exact .inr (.inr (.inr (hbq ▸ hpend)))
        · exact .inl ((hmem q).mpr (.inr ⟨hbq.symm, hpend⟩))
      · exact .inr (.inl ((hmapped q).mpr (.inr ⟨b, hb, hba, hbq⟩)))
    · exact .inr (.inr (.inr hpend))

/-- Writing a pending value conserves the registers. -/
theorem settle (h : Conserved names registers s) (hp : s.pending p) :
    Conserved names registers (s.settle names p) := by
  have hmem : ∀ q, q ∈ (s.settle names p).free ↔
      q ∈ s.free ∨ (q = p ∧ ¬ s.Mapped names p) := by
    intro q
    simp only [Pool.settle]
    split_ifs with hm <;> simp [hm]
  refine ⟨?_, ?_, ?_, ?_, h.mapping_registers, h.mapping_injective,
    fun q hq => h.pending_registers q hq.1, ?_⟩
  · simp only [Pool.settle]
    split_ifs
    · exact h.free_nodup
    · refine List.nodup_append.mpr ⟨h.free_nodup, List.nodup_singleton p, ?_⟩
      intro q hq r hr heq
      rw [List.mem_singleton.mp hr] at heq
      exact h.free_settled q hq (heq ▸ hp)
  · intro q hq
    rcases (hmem q).mp hq with hq | ⟨rfl, -⟩
    · exact h.free_registers q hq
    · exact h.pending_registers _ hp
  · intro q hq
    rcases (hmem q).mp hq with hq | ⟨rfl, hunmapped⟩
    · exact h.free_unmapped q hq
    · exact hunmapped
  · intro q hq hpend
    rcases (hmem q).mp hq with hq | ⟨rfl, -⟩
    · exact h.free_settled q hq hpend.1
    · exact hpend.2 rfl
  · intro q hq
    rcases h.covered q hq with hf | hm | hpend
    · exact .inl ((hmem q).mpr (.inl hf))
    · exact .inr (.inl hm)
    · by_cases hqp : q = p
      · subst hqp
        by_cases hm : s.Mapped names q
        · exact .inr (.inl hm)
        · exact .inl ((hmem q).mpr (.inr ⟨rfl, hm⟩))
      · exact .inr (.inr ⟨hpend, hqp⟩)

/-- A pending register without a name leaves room for one more free register. -/
theorem length_free_lt (h : Conserved names registers s) (hp : s.pending p)
    (hunmapped : ¬ s.Mapped names p) : s.free.length + names.card < registers.card := by
  have hle := (h.settle hp).length_free_le
  rw [Pool.settle, if_neg hunmapped, List.length_append, List.length_singleton] at hle
  omega

end Conserved

end Tejas.RegisterPool
