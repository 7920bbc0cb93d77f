import Tejas.CacheLines
import Mathlib.Data.List.Find

/-!
# What a fill does to the other lines

A cache never holds two valid lines under one tag of a set, and a line found for an
address is stored under an address of the same line. With this a fill at one line
changes what the cache knows of at most one other line, the victim, which was not
locked.
-/

namespace Tejas.LineArray

variable {σ : Type} {l l' : LineArray σ} {g : Geometry} {addr a : Address} {i j : ℕ}
  {locked : Address → Bool} {state : MESI}

/-- The discipline of tags. -/
structure Tagged (l : LineArray σ) (g : Geometry) : Prop where
  stored : ∀ a, ∀ i ∈ g.ways a, (l.lines i).tag = g.computeTag a →
    g.SameLine (l.lines i).address a
  home : ∀ i, (l.lines i).state ≠ .invalid →
    i ∈ g.ways (l.lines i).address ∧ (l.lines i).tag = g.computeTag (l.lines i).address
  single : ∀ a i j, l.access g a = some i → j ∈ g.ways a → (l.lines j).tag = g.computeTag a →
    j ≠ i → (l.lines j).state = .invalid

theorem access_eq_some (h : l.access g addr = some i) :
    i ∈ g.ways addr ∧ (l.lines i).tag = g.computeTag addr := by
  exact ⟨List.mem_of_find?_eq_some h, by simpa using List.find?_some h⟩

theorem access_eq_none_iff :
    l.access g addr = none ↔ ∀ i ∈ g.ways addr, (l.lines i).tag ≠ g.computeTag addr := by
  simp [access, List.find?_eq_none]

theorem access_congr (h : g.SameLine a addr) : l.access g a = l.access g addr := by
  rw [access, access, h.ways_eq, h.tag_eq]

theorem stateAt_congr (h : g.SameLine a addr) : l.stateAt g a = l.stateAt g addr := by
  rw [stateAt, stateAt, access_congr h]

/-- Only the tags matter to a search. -/
theorem access_of_tags (h : ∀ i ∈ g.ways a, (l'.lines i).tag = (l.lines i).tag) :
    l'.access g a = l.access g a :=
  List.find?_congr (fun i hi => by rw [h i hi])

theorem accessValid_eq_some_iff : (l.accessValid g addr).isSome ↔ l.stateAt g addr ≠ .invalid := by
  rw [accessValid, stateAt]
  cases h : l.access g addr <;> simp [CacheLine.isValid]

/-- The tag of an unused line is no tag of an address, or tags are whole addresses. -/
theorem tag_neg_one (h : (-1 : Address) = g.computeTag a) : g.SameLine (-1) a := by
  rcases Nat.eq_zero_or_pos (g.numSetsBits + g.blockSizeBits) with hzero | hpos
  · rw [Geometry.computeTag, hzero] at h
    have heq : (-1 : Address) = a := by simpa using h
    rw [heq]
    exact rfl
  · have hmsb : (-1 : Address).msb = true := by decide
    rw [h, Geometry.computeTag, BitVec.msb_ushiftRight] at hmsb
    simp at hmsb
    omega

theorem tagged_new (sharers : ℕ → σ) : (new sharers).Tagged g where
  stored _ _ _ htag := tag_neg_one htag
  home _ hi := absurd rfl hi
  single _ _ _ _ _ _ _ := rfl

/-- Narrowing a search keeps its result if the result still qualifies. -/
theorem find?_of_le {α : Type} {p p' : α → Bool} {xs : List α} {x : α} (h : xs.find? p = some x)
    (hx : p' x = true) (hle : ∀ y ∈ xs, p' y = true → p y = true) : xs.find? p' = some x := by
  obtain ⟨-, before, after, rfl, hbefore⟩ := List.find?_eq_some_iff_append.mp h
  refine List.find?_eq_some_iff_append.mpr ⟨hx, before, after, rfl, fun y hy => ?_⟩
  have hnot := hbefore y hy
  by_contra hy'
  have := hle y (by simp [hy]) (by simpa using hy')
  simp [this] at hnot

/-! ### The state of a line -/

section SetState

theorem setState_tags (newState : MESI) (i : ℕ) :
    ((l.setState g addr newState).lines i).tag = (l.lines i).tag ∧
      ((l.setState g addr newState).lines i).address = (l.lines i).address := by
  rw [setState]
  split
  · rename_i j _
    by_cases hi : i = j
    · subst hi
      simp [setLine]
    · simp [setLine, hi]
  · exact ⟨rfl, rfl⟩

theorem setState_access (newState : MESI) :
    (l.setState g addr newState).access g a = l.access g a :=
  access_of_tags (fun i _ => (setState_tags newState i).1)

/-- A state change reaches the line only if it has a way. -/
theorem stateAt_setState (newState : MESI) :
    (l.setState g addr newState).stateAt g a =
      if g.SameLine a addr ∧ (l.access g addr).isSome then newState else l.stateAt g a := by
  rw [stateAt, setState_access]
  cases ha : l.access g a with
  | none =>
    have hnot : ¬ (g.SameLine a addr ∧ (l.access g addr).isSome) := by
      rintro ⟨hsame, hsome⟩
      rw [← access_congr hsame, ha] at hsome
      simp at hsome
    simp [stateAt, ha, hnot]
  | some i =>
    by_cases hsame : g.SameLine a addr
    · have haddr : l.access g addr = some i := by rw [← access_congr hsame, ha]
      simp [hsame, haddr, setState, setLine]
    · have hne : l.access g addr ≠ some i := by
        intro haddr
        obtain ⟨hia, htag⟩ := access_eq_some ha
        obtain ⟨hib, htag'⟩ := access_eq_some haddr
        exact hsame (Geometry.sameLine_of_mem_ways hia hib (htag.symm.trans htag'))
      simp only [hsame, false_and, if_false, stateAt, ha]
      rw [setState]
      split
      · rename_i j hj
        have hij : i ≠ j := fun heq => hne (heq ▸ hj)
        simp [setLine, hij]
      · rfl

theorem tagged_setState (ht : l.Tagged g) (newState : MESI) :
    (l.setState g addr newState).Tagged g where
  stored a i hi htag := by
    rw [(setState_tags newState i).1] at htag
    rw [(setState_tags newState i).2]
    exact ht.stored a i hi htag
  home i hi := by
    rw [(setState_tags newState i).1, (setState_tags newState i).2]
    rw [setState] at hi
    split at hi
    · rename_i j hj
      obtain ⟨hways, htag⟩ := access_eq_some hj
      by_cases hij : i = j
      · subst hij
        have hsame := ht.stored addr i hways htag
        exact ⟨hsame.ways_eq ▸ hways, htag.trans hsame.tag_eq.symm⟩
      · exact ht.home i (by simpa [setLine, hij] using hi)
    · exact ht.home i hi
  single a i j ha hj htag hne := by
    rw [setState_access] at ha
    rw [(setState_tags newState j).1] at htag
    have hold := ht.single a i j ha hj htag hne
    rw [setState]
    split
    · rename_i m hm
      have hjm : j ≠ m := by
        rintro rfl
        obtain ⟨hways, htag'⟩ := access_eq_some hm
        have hsame := Geometry.sameLine_of_mem_ways hj hways (htag.symm.trans htag')
        rw [← access_congr hsame, ha] at hm
        exact hne (Option.some.inj hm).symm
      simpa [setLine, hjm] using hold
    · exact hold

end SetState

/-! ### Filling a line -/

theorem leastRecent_eq_some {ways : List ℕ} {best : Option ℕ}
    (h : l.leastRecent locked ways best = some i) :
    i ∈ ways ∧ locked (l.lines i).address = false ∨ best = some i := by
  induction ways generalizing best with
  | nil => exact Or.inr h
  | cons j ways ih =>
    rw [leastRecent] at h
    cases hj : locked (l.lines j).address with
    | true =>
      rw [if_pos hj] at h
      rcases ih h with ⟨hmem, hun⟩ | hbest
      · exact Or.inl ⟨List.mem_cons_of_mem _ hmem, hun⟩
      · exact Or.inr hbest
    | false =>
      rw [if_neg (by simp [hj])] at h
      split at h
      · rcases ih h with ⟨hmem, hun⟩ | hbest
        · exact Or.inl ⟨List.mem_cons_of_mem _ hmem, hun⟩
        · cases hbest
          exact Or.inl ⟨List.mem_cons_self, hj⟩
      · rcases ih h with ⟨hmem, hun⟩ | hbest
        · exact Or.inl ⟨List.mem_cons_of_mem _ hmem, hun⟩
        · exact Or.inr hbest

theorem leastRecent_isSome {ways : List ℕ} {best : Option ℕ}
    (h : best.isSome ∨ ∃ i ∈ ways, locked (l.lines i).address = false) :
    (l.leastRecent locked ways best).isSome := by
  induction ways generalizing best with
  | nil => simpa [leastRecent] using h
  | cons j ways ih =>
    rw [leastRecent]
    split
    · rename_i hj
      refine ih (h.imp_right ?_)
      rintro ⟨i, hi, hun⟩
      rcases List.mem_cons.mp hi with rfl | hi
      · simp [hj] at hun
      · exact ⟨i, hi, hun⟩
    · split
      · exact ih (Or.inl rfl)
      · rename_i hbest
        cases best with
        | none => simp at hbest
        | some m => exact ih (Or.inl rfl)

/-- The line of a fill: the one with the tag, else an invalid one, else a valid victim that
is not locked. -/
theorem fillLine_eq_some {evicted : Bool} (h : l.fillLine g locked addr = some (i, evicted)) :
    i ∈ g.ways addr ∧
      (evicted = false ∧ (l.access g addr = some i ∨
        l.access g addr = none ∧ (l.lines i).state = .invalid) ∨
      evicted = true ∧ l.access g addr = none ∧ (l.lines i).state ≠ .invalid ∧
        locked (l.lines i).address = false) := by
  rw [fillLine] at h
  split at h
  · rename_i j hj
    cases h
    exact ⟨(access_eq_some hj).1, Or.inl ⟨rfl, Or.inl hj⟩⟩
  · rename_i hnone
    split at h
    · rename_i j hj
      cases h
      have hfound := List.find?_some hj
      simp only [CacheLine.isValid, Bool.and_eq_true, Bool.not_eq_true', decide_eq_false_iff_not,
        Decidable.not_not] at hfound
      exact ⟨List.mem_of_find?_eq_some hj, Or.inl ⟨rfl, Or.inr ⟨hnone, hfound.1⟩⟩⟩
    · rename_i hfree
      obtain ⟨j, hj, heq⟩ := Option.map_eq_some_iff.mp h
      cases heq
      rcases leastRecent_eq_some hj with ⟨hmem, hun⟩ | hbest
      · refine ⟨hmem, Or.inr ⟨rfl, hnone, fun hinvalid => ?_, hun⟩⟩
        have := List.find?_eq_none.mp hfree i hmem
        simp [CacheLine.isValid, hinvalid, hun] at this
      · cases hbest

/-- With nothing locked a fill always finds a line. -/
theorem fillLine_isSome (locked : Address → Bool)
    (hlocked : ∀ i ∈ g.ways addr, locked (l.lines i).address = false) :
    (l.fillLine g locked addr).isSome := by
  rw [fillLine]
  split
  · rfl
  · split
    · rfl
    · have hways : g.getNextIdx (g.getStartIdx addr) 0 ∈ g.ways addr :=
        List.mem_map.mpr ⟨0, List.mem_range.mpr g.assoc_pos, rfl⟩
      rw [Option.isSome_map]
      exact leastRecent_isSome (Or.inr ⟨_, hways, hlocked _ hways⟩)

section Place

variable (state : MESI) (hi : i ∈ g.ways addr)
include hi

/-- What a search finds once a way has been given to another line. -/
theorem access_place (hsame : ¬ g.SameLine a addr) :
    (l.place g i addr state).access g a = l.access g a ∨
      l.access g a = some i ∧ (l.place g i addr state).access g a ≠ some i := by
  have hnew : i ∈ g.ways a → ((l.place g i addr state).lines i).tag ≠ g.computeTag a := by
    intro hia heq
    simp only [place, setLine, Function.update_self] at heq
    exact hsame (Geometry.sameLine_of_mem_ways hia hi heq.symm)
  have hold : ∀ j, j ≠ i → ((l.place g i addr state).lines j).tag = (l.lines j).tag := by
    intro j hj
    simp [place, setLine, hj]
  have hle : ∀ j ∈ g.ways a,
      decide (((l.place g i addr state).lines j).tag = g.computeTag a) = true →
      decide ((l.lines j).tag = g.computeTag a) = true := by
    intro j hj hjt
    have hjt' := of_decide_eq_true hjt
    have hji : j ≠ i := by
      rintro rfl
      exact hnew hj hjt'
    simpa [hold j hji] using hjt'
  cases ha : l.access g a with
  | none =>
    left
    rw [access_eq_none_iff] at ha ⊢
    exact fun j hj heq => ha j hj (by simpa using hle j hj (by simpa using heq))
  | some m =>
    by_cases hm : m = i
    · subst hm
      right
      refine ⟨rfl, fun heq => ?_⟩
      obtain ⟨hway, htag'⟩ := access_eq_some heq
      exact hnew hway htag'
    · left
      have hmt := (access_eq_some ha).2
      exact find?_of_le ha (by simpa [hold m hm] using hmt) hle

theorem stateAt_place (ht : l.Tagged g) (hsame : ¬ g.SameLine a addr) :
    (l.place g i addr state).stateAt g a =
      if l.access g a = some i then .invalid else l.stateAt g a := by
  rcases access_place state hi hsame with heq | ⟨hold, hne⟩
  · by_cases ha : l.access g a = some i
    · exfalso
      obtain ⟨hway, htag⟩ := access_eq_some (heq.trans ha)
      simp only [place, setLine, Function.update_self] at htag
      exact hsame (Geometry.sameLine_of_mem_ways hway hi htag.symm)
    · rw [if_neg ha, stateAt, stateAt, heq]
      cases hm : l.access g a with
      | none => rfl
      | some m =>
        have hmi : m ≠ i := fun h => ha (h ▸ hm)
        simp [place, setLine, hmi]
  · rw [if_pos hold, stateAt]
    cases hm : (l.place g i addr state).access g a with
    | none => rfl
    | some m =>
      have hmi : m ≠ i := fun h => hne (h ▸ hm)
      obtain ⟨hway, htag⟩ := access_eq_some hm
      simp only [place, setLine, Function.update_of_ne hmi] at htag ⊢
      exact ht.single a i m hold hway htag hmi

variable (hfound : l.access g addr = some i ∨ l.access g addr = none)
include hfound

/-- The line that took the way is found there. -/
theorem access_place_self : (l.place g i addr state).access g addr = some i := by
  rcases hfound with h | h
  · rw [← h]
    apply access_of_tags
    intro j hj
    by_cases hji : j = i
    · subst hji
      simp [place, setLine, (access_eq_some h).2]
    · simp [place, setLine, hji]
  · rw [access_eq_none_iff] at h
    cases hm : (l.place g i addr state).access g addr with
    | none =>
      rw [access_eq_none_iff] at hm
      exact absurd (by simp [place, setLine]) (hm i hi)
    | some m =>
      obtain ⟨hway, htag⟩ := access_eq_some hm
      by_cases hmi : m = i
      · rw [hmi]
      · simp only [place, setLine, Function.update_of_ne hmi] at htag
        exact absurd htag (h m hway)

theorem tagged_place (ht : l.Tagged g) : (l.place g i addr state).Tagged g where
  stored a j hj hjt := by
    by_cases hji : j = i
    · subst hji
      simp only [place, setLine, Function.update_self] at hjt ⊢
      exact Geometry.sameLine_of_mem_ways hi hj hjt
    · simp only [place, setLine, Function.update_of_ne hji] at hjt ⊢
      exact ht.stored a j hj hjt
  home j hj := by
    by_cases hji : j = i
    · subst hji
      simpa [place, setLine] using hi
    · simp only [place, setLine, Function.update_of_ne hji] at hj ⊢
      exact ht.home j hj
  single a m j ha hj hjt hne := by
    by_cases hsame : g.SameLine a addr
    · rw [access_congr hsame, access_place_self state hi hfound] at ha
      cases ha
      simp only [place, setLine, Function.update_of_ne hne] at hjt ⊢
      rw [hsame.ways_eq] at hj
      rw [hsame.tag_eq] at hjt
      rcases hfound with h | h
      · exact ht.single addr i j h hj hjt hne
      · exact absurd hjt (access_eq_none_iff.mp h j hj)
    · have hji : j ≠ i := by
        rintro rfl
        simp only [place, setLine, Function.update_self] at hjt
        exact hsame (Geometry.sameLine_of_mem_ways hj hi hjt.symm)
      have hjt' : (l.lines j).tag = g.computeTag a := by
        simpa [place, setLine, hji] using hjt
      have hinvalid : (l.lines j).state = .invalid := by
        rcases access_place state hi hsame with heq | ⟨hold, -⟩
        · exact ht.single a m j (heq ▸ ha) hj hjt' hne
        · exact ht.single a i j hold hj hjt' hji
      simpa [place, setLine, hji] using hinvalid

end Place

/-- A valid line is found under its own address. -/
theorem Tagged.access_home (ht : l.Tagged g) (hvalid : (l.lines i).state ≠ .invalid) :
    l.access g (l.lines i).address = some i := by
  obtain ⟨hhome, hhometag⟩ := ht.home i hvalid
  cases hm : l.access g (l.lines i).address with
  | none => exact absurd hhometag (access_eq_none_iff.mp hm i hhome)
  | some m =>
    by_contra hne
    have him : i ≠ m := fun heq => hne (by rw [heq])
    exact hvalid (ht.single _ m i hm hhome hhometag him)

/-- What a fill at an address has done. -/
structure Filled (l : LineArray σ) (g : Geometry) (locked : Address → Bool) (addr : Address)
    (state : MESI) (l' : LineArray σ) (evicted : Option (CacheLine σ)) : Prop where
  tagged : l'.Tagged g
  filled : ∀ a, g.SameLine a addr → l'.stateAt g a = state
  kept : evicted = none → ∀ a, ¬ g.SameLine a addr → l'.stateAt g a = l.stateAt g a
  victim : ∀ e, evicted = some e → e.state ≠ .invalid ∧ locked e.address = false ∧
    ¬ g.SameLine e.address addr ∧ l.stateAt g e.address = e.state ∧
    ∀ a, ¬ g.SameLine a addr → l'.stateAt g a =
      if g.SameLine a e.address then .invalid else l.stateAt g a

/-- A fill keeps the discipline of tags, gives its line the state asked for, and takes at
most one other line away: a valid one that was not locked. -/
theorem fill_spec {evicted : Option (CacheLine σ)} (ht : l.Tagged g)
    (h : l.fill g locked addr state = some (l', evicted)) :
    l.Filled g locked addr state l' evicted := by
  rw [fill] at h
  split at h
  · cases h
  · rename_i i ev hfill
    obtain ⟨hi, hcases⟩ := fillLine_eq_some hfill
    simp only [Option.some.injEq, Prod.mk.injEq] at h
    obtain ⟨rfl, hev⟩ := h
    have hfound : l.access g addr = some i ∨ l.access g addr = none := by
      rcases hcases with ⟨-, h | ⟨h, -⟩⟩ | ⟨-, h, -⟩
      · exact Or.inl h
      · exact Or.inr h
      · exact Or.inr h
    refine ⟨tagged_place state hi hfound ht, fun a ha => ?_, fun hnone a ha => ?_, fun e he => ?_⟩
    · rw [stateAt_congr ha, stateAt, access_place_self state hi hfound]
      simp [place, setLine]
    · rw [stateAt_place state hi ht ha]
      split
      · rename_i hacc
        rcases hcases with ⟨-, h | ⟨-, h⟩⟩ | ⟨rfl, -⟩
        · exact absurd (Geometry.sameLine_of_mem_ways (access_eq_some hacc).1 hi
            ((access_eq_some hacc).2.symm.trans (access_eq_some h).2)) ha
        · simp [stateAt, hacc, h]
        · rw [← hev] at hnone
          cases hnone
      · rfl
    · rcases hcases with ⟨rfl, -⟩ | ⟨rfl, hnone, hvalid, hun⟩
      · rw [← hev] at he
        cases he
      · rw [← hev] at he
        cases he
        obtain ⟨hhome, hhometag⟩ := ht.home i hvalid
        have haccess := ht.access_home hvalid
        refine ⟨hvalid, hun, fun hsame => ?_, by simp [stateAt, haccess], fun a ha => ?_⟩
        · rw [access_congr hsame, hnone] at haccess
          cases haccess
        · rw [stateAt_place state hi ht ha]
          by_cases hsame : g.SameLine a (l.lines i).address
          · rw [if_pos ((access_congr hsame).trans haccess), if_pos hsame]
          · rw [if_neg hsame, if_neg]
            intro hacc
            obtain ⟨hia, htaga⟩ := access_eq_some hacc
            exact hsame (Geometry.sameLine_of_mem_ways hia hhome (htaga.symm.trans hhometag))

end Tejas.LineArray
