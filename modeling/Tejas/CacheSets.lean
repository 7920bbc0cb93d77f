import Tejas.CacheFill
import Tejas.DNuca
import Tejas.LabelledRuns

/-!
# The lines of a set over a sequence of calls

A cache starts with lines that carry the tag -1 and are filled, marked and changed in
any order, while the MSHR locks any lines it likes. No two lines of a set carry one tag
other than -1, a tag and an address always belong together, and a fill takes away the line
that was marked longest ago. The list of the marks is kept beside the array; no call
reads it. The guard of a memory response compares addresses where the fill compares tags.
-/

namespace Tejas
open LabelledRuns

namespace LineArray

variable {σ : Type}

/-- A call, with the addresses the MSHR locks at the time. -/
inductive SetCall where
  | fill (locked : Address → Bool) (addr : Address) (stateToSet : MESI)
  | accessAndMark (addr : Address)
  | updateStateOfCacheLine (locked : Address → Bool) (addr : Address) (newState : MESI)

/-- The array and the lines that have been marked, in order. -/
structure Marked (σ : Type) where
  array : LineArray σ
  marks : List ℕ

def Marked.new (sharers : ℕ → σ) : Marked σ := ⟨.new sharers, []⟩

/-- `none` is an exit of the simulator. -/
def Marked.next (g : Geometry) (s : Marked σ) : SetCall → Option (Marked σ)
  | .fill locked addr stateToSet =>
    match s.array.fillLine g locked addr, s.array.fill g locked addr stateToSet with
    | some (i, _), some (array, _) => some ⟨array, s.marks ++ [i]⟩
    | _, _ => none
  | .accessAndMark addr =>
    match s.array.accessAndMark g addr with
    | (some i, array) => some ⟨array, s.marks ++ [i]⟩
    | (none, array) => some ⟨array, s.marks⟩
  | .updateStateOfCacheLine locked addr newState =>
    if newState = .invalid ∧ locked addr = true ∧ (s.array.access g addr).isSome then none
    else some ⟨s.array.setState g addr newState, s.marks⟩

/-- The line `j` has been marked since the last mark of `i`. -/
def MarkedBefore (marks : List ℕ) (i j : ℕ) : Prop :=
  ∃ before after, marks = before ++ after ∧ i ∉ after ∧ j ∈ after

/-- The discipline of the sets. -/
structure Disciplined (g : Geometry) (s : Marked σ) : Prop where
  /-- At most one line of a set carries a tag. -/
  single : ∀ addr, ∀ i ∈ g.ways addr, ∀ j ∈ g.ways addr, (s.array.lines i).tag ≠ -1 →
    (s.array.lines i).tag = (s.array.lines j).tag → i = j
  /-- A line stores an address of its set and of its tag. -/
  stored : ∀ i, (s.array.lines i).tag ≠ -1 →
    g.getStartIdx (s.array.lines i).address = i % 2 ^ g.numSetsBits ∧
      g.computeTag (s.array.lines i).address = (s.array.lines i).tag
  /-- A fill evicts only in a set without the tag and without an invalid unlocked line. -/
  evicts : ∀ locked addr stateToSet array victim,
    s.array.fill g locked addr stateToSet = some (array, some victim) →
      ∀ i ∈ g.ways addr, (s.array.lines i).tag ≠ g.computeTag addr ∧
        ((s.array.lines i).state = .invalid → locked (s.array.lines i).address = true)
  /-- The victim is the unlocked line of the set that was marked longest ago. -/
  leastRecent : ∀ locked addr stateToSet array victim,
    s.array.fill g locked addr stateToSet = some (array, some victim) →
      ∃ i ∈ g.ways addr, s.array.fillLine g locked addr = some (i, true) ∧
        victim.address = (s.array.lines i).address ∧
        locked (s.array.lines i).address = false ∧
        ∀ j ∈ g.ways addr, j ≠ i → locked (s.array.lines j).address = false → j ∈ s.marks →
          MarkedBefore s.marks i j
  /-- What has been filled with a valid state is found. -/
  found : ∀ locked addr stateToSet array evicted, stateToSet ≠ .invalid →
    s.array.fill g locked addr stateToSet = some (array, evicted) →
      ∃ i isEvicted, s.array.fillLine g locked addr = some (i, isEvicted) ∧
        array.accessValid g addr = some i ∧ (array.lines i).address = addr

variable {g : Geometry} {l l' : LineArray σ} {s t : Marked σ} {addr : Address} {i j : ℕ}
  {locked : Address → Bool} {marks : List ℕ} {stateToSet newState : MESI} {call : SetCall}

/-! ### Tags -/

/-- A line with a tag is in the set and has the tag of its address. -/
def Home (g : Geometry) (l : LineArray σ) : Prop :=
  ∀ i, (l.lines i).tag ≠ -1 →
    i ∈ g.ways (l.lines i).address ∧ (l.lines i).tag = g.computeTag (l.lines i).address

def SingleTags (g : Geometry) (l : LineArray σ) : Prop :=
  ∀ addr, ∀ i ∈ g.ways addr, ∀ j ∈ g.ways addr, (l.lines i).tag ≠ -1 →
    (l.lines i).tag = (l.lines j).tag → i = j

theorem lines_place_self : (l.place g i addr stateToSet).lines i =
    { l.lines i with
      state := stateToSet
      address := addr
      tag := g.computeTag addr
      timestamp := l.timestamp } := by
  simp [place, setLine]

theorem lines_place_of_ne (h : j ≠ i) : (l.place g i addr stateToSet).lines j = l.lines j := by
  simp [place, setLine, h]

theorem lines_mark_self : (l.mark i).lines i = { l.lines i with timestamp := l.timestamp } := by
  simp [mark, setLine]

theorem lines_mark_of_ne (h : j ≠ i) : (l.mark i).lines j = l.lines j := by
  simp [mark, setLine, h]

theorem home_of_tags (h : Home g l)
    (htags : ∀ i, (l'.lines i).tag = (l.lines i).tag ∧ (l'.lines i).address = (l.lines i).address) :
    Home g l' := by
  intro i hi
  rw [(htags i).1] at hi ⊢
  rw [(htags i).2]
  exact h i hi

theorem singleTags_of_tags (h : SingleTags g l)
    (htags : ∀ i, (l'.lines i).tag = (l.lines i).tag) : SingleTags g l' := by
  intro addr i hi j hj hne heq
  rw [htags i] at hne heq
  rw [htags j] at heq
  exact h addr i hi j hj hne heq

theorem home_place (h : Home g l) (hi : i ∈ g.ways addr) :
    Home g (l.place g i addr stateToSet) := by
  intro j hj
  by_cases hji : j = i
  · subst hji
    rw [lines_place_self]
    exact ⟨hi, rfl⟩
  · rw [lines_place_of_ne hji] at hj ⊢
    exact h j hj

/-- The line of a fill is the only one that can carry the tag. -/
theorem eq_of_tag (hsingle : SingleTags g l)
    (hfound : l.access g addr = some i ∨ l.access g addr = none) (hj : j ∈ g.ways addr)
    (htag : (l.lines j).tag = g.computeTag addr) (hne : (l.lines j).tag ≠ -1) : j = i := by
  rcases hfound with hsome | hnone
  · obtain ⟨hi, hitag⟩ := access_eq_some hsome
    exact hsingle addr j hj i hi hne (htag.trans hitag.symm)
  · exact absurd htag (access_eq_none_iff.mp hnone j hj)

theorem singleTags_place (h : SingleTags g l) (hi : i ∈ g.ways addr)
    (hfound : l.access g addr = some i ∨ l.access g addr = none) :
    SingleTags g (l.place g i addr stateToSet) := by
  -- a line of the set with the new tag is the line that was placed
  have hnew : ∀ a j, i ∈ g.ways a → j ∈ g.ways a → (l.lines j).tag = g.computeTag addr →
      (l.lines j).tag ≠ -1 → j = i := by
    intro a j hia hja htag hne
    have hstart := Geometry.getStartIdx_eq_of_mem_ways hia hi
    have hways : g.ways a = g.ways addr := by rw [Geometry.ways, Geometry.ways, hstart]
    exact eq_of_tag h hfound (hways ▸ hja) htag hne
  intro a j hj k hk hne heq
  by_cases hji : j = i
  · subst hji
    by_cases hki : k = j
    · exact hki.symm
    · rw [lines_place_self] at hne heq
      rw [lines_place_of_ne hki] at heq
      dsimp only at hne heq
      exact (hnew a k hj hk heq.symm (heq ▸ hne)).symm
  · rw [lines_place_of_ne hji] at hne heq
    by_cases hki : k = i
    · subst hki
      rw [lines_place_self] at heq
      exact hnew a j hk hj heq hne
    · rw [lines_place_of_ne hki] at heq
      exact h a j hj k hk hne heq

/-! ### Marks -/

/-- The timestamp of a marked line is the place of its last mark. -/
def Clocked (s : Marked σ) : Prop :=
  s.array.timestamp = s.marks.length ∧
    ∀ i ∈ s.marks, ∃ before after, s.marks = before ++ i :: after ∧ i ∉ after ∧
      (s.array.lines i).timestamp = before.length

theorem Clocked.marked (h : Clocked s) (hclock : l.timestamp = s.array.timestamp + 1)
    (hself : (l.lines i).timestamp = s.array.timestamp)
    (hother : ∀ j, j ≠ i → (l.lines j).timestamp = (s.array.lines j).timestamp) :
    Clocked ⟨l, s.marks ++ [i]⟩ := by
  obtain ⟨htime, hlast⟩ := h
  refine ⟨?_, ?_⟩
  · rw [hclock, htime, List.length_append, List.length_singleton]
  · intro j hj
    by_cases hji : j = i
    · subst hji
      exact ⟨s.marks, [], rfl, List.not_mem_nil, hself.trans htime⟩
    · have hold : j ∈ s.marks := by
        rcases List.mem_append.mp hj with hj | hj
        · exact hj
        · exact absurd (List.mem_singleton.mp hj) hji
      obtain ⟨before, after, hsplit, hafter, hts⟩ := hlast j hold
      refine ⟨before, after ++ [i], ?_, ?_, (hother j hji).trans hts⟩
      · dsimp only
        rw [hsplit, List.append_assoc, List.cons_append]
      · intro hmem
        rcases List.mem_append.mp hmem with hmem | hmem
        · exact hafter hmem
        · exact hji (List.mem_singleton.mp hmem)

/-- Smaller timestamps are older marks. -/
theorem Clocked.markedBefore (h : Clocked s) (hj : j ∈ s.marks) (hne : j ≠ i)
    (hle : (s.array.lines i).timestamp ≤ (s.array.lines j).timestamp) :
    MarkedBefore s.marks i j := by
  by_cases hi : i ∈ s.marks
  · obtain ⟨before, after, hsplit, hafter, hts⟩ := h.2 i hi
    obtain ⟨before', after', hsplit', -, hts'⟩ := h.2 j hj
    rw [hts, hts'] at hle
    refine ⟨before ++ [i], after, by rw [hsplit, List.append_assoc, List.singleton_append],
      hafter, ?_⟩
    -- the last mark of `j` lies behind the last mark of `i`
    have hlt : before.length < before'.length := by
      rcases Nat.lt_or_eq_of_le hle with hlt | heq
      · exact hlt
      · exact absurd (List.cons.inj (List.append_inj (hsplit.symm.trans hsplit') heq).2).1.symm hne
    have hget : s.marks[before'.length]? = some j := by
      rw [hsplit', List.getElem?_append_right (Nat.le_refl _), Nat.sub_self,
        List.getElem?_cons_zero]
    rw [hsplit, List.getElem?_append_right (by omega)] at hget
    have hpos : before'.length - before.length = before'.length - before.length - 1 + 1 := by omega
    rw [hpos, List.getElem?_cons_succ] at hget
    exact List.mem_of_getElem? hget
  · exact ⟨[], s.marks, rfl, hi, hj⟩

/-- The search of a fill finds an unlocked line with the least timestamp. -/
theorem leastRecent_le {ways : List ℕ} {best : Option ℕ}
    (h : l.leastRecent locked ways best = some i) :
    (∀ j ∈ ways, locked (l.lines j).address = false →
      (l.lines i).timestamp ≤ (l.lines j).timestamp) ∧
    ∀ j, best = some j → (l.lines i).timestamp ≤ (l.lines j).timestamp := by
  induction ways generalizing best with
  | nil =>
    cases h
    refine ⟨by simp, ?_⟩
    intro j hj
    cases hj
    exact Nat.le_refl _
  | cons k ways ih =>
    rw [leastRecent] at h
    split at h
    · rename_i hlocked
      obtain ⟨hways, hbest⟩ := ih h
      refine ⟨?_, hbest⟩
      intro j hj hunlocked
      rcases List.mem_cons.mp hj with rfl | hj
      · rw [hlocked] at hunlocked
        cases hunlocked
      · exact hways j hj hunlocked
    · split at h
      · rename_i hless
        obtain ⟨hways, hbest⟩ := ih h
        have hk := hbest k rfl
        refine ⟨?_, ?_⟩
        · intro j hj hunlocked
          rcases List.mem_cons.mp hj with rfl | hj
          · exact hk
          · exact hways j hj hunlocked
        · intro j hj
          subst hj
          simp only [Option.all_some, gt_iff_lt, decide_eq_true_eq] at hless
          exact hk.trans hless.le
      · rename_i hless
        obtain ⟨hways, hbest⟩ := ih h
        refine ⟨?_, hbest⟩
        intro j hj hunlocked
        rcases List.mem_cons.mp hj with rfl | hj
        · cases hb : best with
          | none => simp [hb] at hless
          | some m =>
            simp only [hb, Option.all_some, gt_iff_lt, decide_eq_true_eq, Nat.not_lt] at hless
            exact (hbest m hb).trans hless
        · exact hways j hj hunlocked

/-! ### Whole sequences -/

/-- A fill puts its line in the place that the search has found. -/
theorem fill_eq_some {evicted : Option (CacheLine σ)}
    (h : l.fill g locked addr stateToSet = some (l', evicted)) :
    ∃ i isEvicted, l.fillLine g locked addr = some (i, isEvicted) ∧
      l' = l.place g i addr stateToSet ∧ (evicted.isSome = true ↔ isEvicted = true) ∧
      ∀ victim, evicted = some victim → victim.address = (l.lines i).address := by
  rw [fill] at h
  split at h
  · cases h
  · rename_i i isEvicted hline
    cases h
    refine ⟨i, isEvicted, hline, rfl, ?_, ?_⟩
    · cases isEvicted <;> simp
    · intro victim hvictim
      cases isEvicted with
      | true =>
        cases hvictim
        rfl
      | false => cases hvictim

theorem found_of_fillLine {isEvicted : Bool} (h : l.fillLine g locked addr = some (i, isEvicted)) :
    i ∈ g.ways addr ∧ (l.access g addr = some i ∨ l.access g addr = none) := by
  obtain ⟨hi, hcases⟩ := fillLine_eq_some h
  refine ⟨hi, ?_⟩
  rcases hcases with ⟨-, hsome | ⟨hnone, -⟩⟩ | ⟨-, hnone, -⟩
  · exact Or.inl hsome
  · exact Or.inr hnone
  · exact Or.inr hnone

/-- What every call keeps. -/
structure Kept (g : Geometry) (s : Marked σ) : Prop where
  home : Home g s.array
  single : SingleTags g s.array
  clocked : Clocked s

theorem kept_new (g : Geometry) (sharers : ℕ → σ) : Kept g (Marked.new sharers) where
  home _ hi := absurd rfl hi
  single _ _ _ _ _ hne _ := absurd rfl hne
  clocked := ⟨rfl, by simp [Marked.new]⟩

theorem Kept.fill {isEvicted : Bool} (h : Kept g s)
    (hline : s.array.fillLine g locked addr = some (i, isEvicted)) :
    Kept g ⟨s.array.place g i addr stateToSet, s.marks ++ [i]⟩ := by
  obtain ⟨hi, hfound⟩ := found_of_fillLine hline
  refine ⟨home_place h.home hi, singleTags_place h.single hi hfound, h.clocked.marked rfl ?_ ?_⟩
  · rw [lines_place_self]
  · intro j hj
    rw [lines_place_of_ne hj]

theorem Kept.mark (h : Kept g s) (i : ℕ) : Kept g ⟨s.array.mark i, s.marks ++ [i]⟩ := by
  have htags : ∀ j, ((s.array.mark i).lines j).tag = (s.array.lines j).tag ∧
      ((s.array.mark i).lines j).address = (s.array.lines j).address := by
    intro j
    by_cases hj : j = i
    · subst hj
      rw [lines_mark_self]
      exact ⟨rfl, rfl⟩
    · rw [lines_mark_of_ne hj]
      exact ⟨rfl, rfl⟩
  refine ⟨home_of_tags h.home htags, singleTags_of_tags h.single (fun j => (htags j).1),
    h.clocked.marked rfl ?_ ?_⟩
  · rw [lines_mark_self]
  · intro j hj
    rw [lines_mark_of_ne hj]

theorem Kept.setState (h : Kept g s) :
    Kept g ⟨s.array.setState g addr newState, s.marks⟩ := by
  have hlines : ∀ j, ((s.array.setState g addr newState).lines j).timestamp =
      (s.array.lines j).timestamp := by
    intro j
    rw [LineArray.setState]
    split
    · rename_i i _
      by_cases hj : j = i
      · subst hj
        simp [setLine]
      · simp [setLine, hj]
    · rfl
  have hclock : (s.array.setState g addr newState).timestamp = s.array.timestamp := by
    rw [LineArray.setState]
    split <;> rfl
  refine ⟨home_of_tags h.home (setState_tags newState),
    singleTags_of_tags h.single (fun j => (setState_tags newState j).1), ?_, ?_⟩
  · exact hclock.trans h.clocked.1
  · intro i hi
    obtain ⟨before, after, hsplit, hafter, hts⟩ := h.clocked.2 i hi
    exact ⟨before, after, hsplit, hafter, (hlines i).trans hts⟩

theorem Kept.step (h : Kept g s) (hstep : s.next g call = some t) : Kept g t := by
  cases call with
  | fill locked addr stateToSet =>
    rw [Marked.next] at hstep
    split at hstep
    · rename_i i isEvicted array _ hline hfill
      cases hstep
      obtain ⟨i', isEvicted', hline', harray, -⟩ := fill_eq_some hfill
      rw [hline] at hline'
      cases hline'
      rw [harray]
      exact h.fill hline
    · cases hstep
  | accessAndMark addr =>
    rw [Marked.next, accessAndMark] at hstep
    cases hvalid : s.array.accessValid g addr with
    | none =>
      rw [hvalid] at hstep
      cases hstep
      exact h
    | some i =>
      rw [hvalid] at hstep
      cases hstep
      exact h.mark i
  | updateStateOfCacheLine locked addr newState =>
    rw [Marked.next] at hstep
    split at hstep
    · cases hstep
    · cases hstep
      exact h.setState

theorem Kept.disciplined (h : Kept g s) : Disciplined g s where
  single := h.single
  stored := by
    intro i hi
    obtain ⟨hways, htag⟩ := h.home i hi
    obtain ⟨idx, -, hidx⟩ := List.mem_map.mp hways
    have hmod : g.getNextIdx (g.getStartIdx (s.array.lines i).address) idx % 2 ^ g.numSetsBits =
        g.getStartIdx (s.array.lines i).address := by
      rw [Geometry.getNextIdx, Nat.shiftLeft_eq, Nat.add_mul_mod_self_right,
        Nat.mod_eq_of_lt Geometry.getStartIdx_lt]
    rw [hidx] at hmod
    exact ⟨hmod.symm, htag.symm⟩
  evicts := by
    intro locked addr stateToSet array victim hfill j hj
    obtain ⟨i, isEvicted, hline, -, hevicted, -⟩ := fill_eq_some hfill
    rw [hevicted.mp rfl, fillLine] at hline
    split at hline
    · cases hline
    · rename_i hnone
      refine ⟨access_eq_none_iff.mp hnone j hj, ?_⟩
      split at hline
      · cases hline
      · rename_i hfree
        intro hinvalid
        have hnot := List.find?_eq_none.mp hfree j hj
        simpa [CacheLine.isValid, hinvalid] using hnot
  leastRecent := by
    intro locked addr stateToSet array victim hfill
    obtain ⟨i, isEvicted, hline, -, hevicted, haddress⟩ := fill_eq_some hfill
    rw [hevicted.mp rfl] at hline
    obtain ⟨hi, hcases⟩ := fillLine_eq_some hline
    have hunlocked : locked (s.array.lines i).address = false := by
      rcases hcases with ⟨hfalse, -⟩ | ⟨-, -, -, hunlocked⟩
      · cases hfalse
      · exact hunlocked
    refine ⟨i, hi, hline, haddress victim rfl, hunlocked, ?_⟩
    intro j hj hne hfree hmarked
    apply h.clocked.markedBefore hmarked hne
    rw [fillLine] at hline
    split at hline
    · cases hline
    · split at hline
      · cases hline
      · obtain ⟨m, hm, heq⟩ := Option.map_eq_some_iff.mp hline
        cases heq
        exact (leastRecent_le hm).1 j hj hfree
  found := by
    intro locked addr stateToSet array evicted hvalid hfill
    obtain ⟨i, isEvicted, hline, harray, -⟩ := fill_eq_some hfill
    obtain ⟨hi, hfound⟩ := found_of_fillLine hline
    subst harray
    refine ⟨i, isEvicted, hline, ?_, ?_⟩
    · rw [accessValid, access_place_self stateToSet hi hfound, Option.filter_some,
        lines_place_self]
      simp [CacheLine.isValid, hvalid]
    · rw [lines_place_self]

/-- After every sequence of calls the sets are in order. -/
theorem sets_disciplined {sharers : ℕ → σ} {calls : List SetCall}
    (run : Run (StepOf (Marked.next g)) (Marked.new sharers) calls s) : Disciplined g s := by
  have hkept : Kept g s :=
    run.invariant (kept_new g sharers) (fun _ _ _ h hstep => h.step hstep)
  exact hkept.disciplined

/-- One set of two lines of 64 bytes. -/
def twoWays : Geometry := ⟨0, 6, 2, Nat.two_pos, Geometry.oneSet_bits⟩

theorem sets_disciplined_twoWays :
    ∃ s : Marked Unit, s.marks = [0, 1, 0, 1] ∧ Disciplined twoWays s := by
  have hrun : (exec (Marked.next twoWays) (Marked.new fun _ => ())
      [.fill (fun _ => false) 0 .shared, .fill (fun _ => false) 64 .shared, .accessAndMark 0,
        .fill (fun _ => false) 128 .modified]).any (fun s => s.marks = [0, 1, 0, 1]) = true := by
    decide
  obtain ⟨s, hexec, hmarks⟩ := (Option.any_eq_true _ _).mp hrun
  exact ⟨s, of_decide_eq_true hmarks, sets_disciplined (run_of_exec hexec)⟩

/-- The lines of an empty set all carry the tag -1. -/
theorem empty_lines_share_a_tag :
    ¬ ∀ (g : Geometry) (calls : List SetCall) (s : Marked Unit),
      Run (StepOf (Marked.next g)) (Marked.new fun _ => ()) calls s →
        ∀ addr, ∀ i ∈ g.ways addr, ∀ j ∈ g.ways addr,
          (s.array.lines i).tag = (s.array.lines j).tag → i = j := by
  intro hclaim
  have h := hclaim twoWays [] (Marked.new fun _ => ()) .nil 0 0 (by decide) 1 (by decide) rfl
  cases h

/-! ### The guard of a response -/

/-- Some line of the set has the tag of the address. -/
def HoldsTag (l : LineArray σ) (g : Geometry) (addr : Address) : Prop :=
  ∃ i ∈ g.ways addr, (l.lines i).tag = g.computeTag addr

/-- Some line of the set stores the very address. -/
def HoldsAddress (l : LineArray σ) (g : Geometry) (addr : Address) : Prop :=
  ∃ i ∈ g.ways addr, (l.lines i).address = addr

def HoldsUnlocked (l : LineArray σ) (g : Geometry) (locked : Address → Bool) (addr : Address) :
    Prop :=
  ∃ i ∈ g.ways addr, locked (l.lines i).address = false

def HoldsInvalid (l : LineArray σ) (g : Geometry) (addr : Address) : Prop :=
  ∃ i ∈ g.ways addr, (l.lines i).isValid = false

theorem holdsTag_iff : l.HoldsTag g addr ↔ (l.access g addr).isSome = true := by
  rw [← Option.ne_none_iff_isSome, Ne, access_eq_none_iff, HoldsTag]
  simp

/-- The search for the least recent line fails only in a locked set. -/
theorem leastRecent_isSome_iff :
    (l.leastRecent locked (g.ways addr) none).isSome = true ↔ l.HoldsUnlocked g locked addr := by
  constructor
  · intro h
    obtain ⟨i, hi⟩ := Option.isSome_iff_exists.mp h
    rcases leastRecent_eq_some hi with ⟨hmem, hunlocked⟩ | hnone
    · exact ⟨i, hmem, hunlocked⟩
    · cases hnone
  · intro h
    exact leastRecent_isSome (Or.inr h)

theorem fill_isSome_iff :
    (l.fill g locked addr stateToSet).isSome = true ↔
      l.HoldsTag g addr ∨ l.HoldsUnlocked g locked addr := by
  have hfill : (l.fill g locked addr stateToSet).isSome = (l.fillLine g locked addr).isSome := by
    rw [fill]
    cases l.fillLine g locked addr <;> rfl
  rw [hfill, fillLine, holdsTag_iff]
  cases l.access g addr with
  | some i => simp
  | none =>
    cases hfree : (g.ways addr).find?
        (fun i => !(l.lines i).isValid && !locked (l.lines i).address) with
    | some i =>
      have hfound := List.find?_some hfree
      simp only [Bool.and_eq_true, Bool.not_eq_true'] at hfound
      have hunlocked : l.HoldsUnlocked g locked addr :=
        ⟨i, List.mem_of_find?_eq_some hfree, hfound.2⟩
      simp [hunlocked]
    | none => simp [leastRecent_isSome_iff]

theorem guard_iff :
    l.isThereAnUnlockedOrInvalidEntryInCacheSet g locked addr = true ↔
      l.HoldsAddress g addr ∨ l.HoldsUnlocked g locked addr := by
  rw [isThereAnUnlockedOrInvalidEntryInCacheSet, List.any_eq_true]
  constructor
  · rintro ⟨i, hi, h⟩
    simp only [Bool.or_eq_true, decide_eq_true_eq, Bool.and_eq_true, Bool.not_eq_true'] at h
    rcases h with (h | h) | h
    · exact Or.inl ⟨i, hi, h⟩
    · exact Or.inr ⟨i, hi, h.2⟩
    · exact Or.inr ⟨i, hi, h⟩
  · rintro (⟨i, hi, h⟩ | ⟨i, hi, h⟩)
    · exact ⟨i, hi, by simp [h]⟩
    · exact ⟨i, hi, by simp [h]⟩

theorem nucaFill_isSome_iff :
    (l.nucaFill g locked addr stateToSet).isSome = true ↔
      l.HoldsTag g addr ∨ l.HoldsInvalid g addr ∨ l.HoldsUnlocked g locked addr := by
  have hfill : (l.nucaFill g locked addr stateToSet).isSome =
      (l.nucaFillLine g locked addr).isSome := by
    rw [nucaFill]
    cases l.nucaFillLine g locked addr <;> rfl
  rw [hfill, nucaFillLine, holdsTag_iff]
  cases l.access g addr with
  | some i => simp
  | none =>
    cases hfree : (g.ways addr).find? (fun i => !(l.lines i).isValid) with
    | some i =>
      have hfound := List.find?_some hfree
      simp only [Bool.not_eq_true'] at hfound
      have hinvalid : l.HoldsInvalid g addr := ⟨i, List.mem_of_find?_eq_some hfree, hfound⟩
      simp [hinvalid]
    | none =>
      have hinvalid : ¬ l.HoldsInvalid g addr := by
        rintro ⟨i, hi, h⟩
        have hnot := List.find?_eq_none.mp hfree i hi
        simp [h] at hnot
      simp [leastRecent_isSome_iff, hinvalid]

theorem nucaGuard_iff :
    l.hasNucaEntry g locked addr = true ↔
      l.HoldsAddress g addr ∨ l.HoldsInvalid g addr ∨ l.HoldsUnlocked g locked addr := by
  rw [hasNucaEntry, List.any_eq_true]
  constructor
  · rintro ⟨i, hi, h⟩
    simp only [Bool.or_eq_true, decide_eq_true_eq, Bool.not_eq_true'] at h
    rcases h with (h | h) | h
    · exact Or.inl ⟨i, hi, h⟩
    · exact Or.inr (Or.inl ⟨i, hi, h⟩)
    · exact Or.inr (Or.inr ⟨i, hi, h⟩)
  · rintro (⟨i, hi, h⟩ | ⟨i, hi, h⟩ | ⟨i, hi, h⟩)
    · exact ⟨i, hi, by simp [h]⟩
    · exact ⟨i, hi, by simp [h]⟩
    · exact ⟨i, hi, by simp [h]⟩

/-- Two tests that share one alternative agree exactly where it holds or the others do. -/
theorem or_iff_or_iff {p q r : Prop} : (p ∨ r ↔ q ∨ r) ↔ r ∨ (p ↔ q) := by
  by_cases hr : r <;> simp [hr]

/-- The guard of a response finds a line exactly when the fill does, in a plain cache and in
a NUCA bank, if and only if some line of the set is free or a line with the tag of the
address stores the very address. -/
theorem guard_agrees_iff (l : LineArray σ) (g : Geometry) (locked : Address → Bool)
    (addr : Address) (stateToSet : MESI) :
    ((l.isThereAnUnlockedOrInvalidEntryInCacheSet g locked addr = true ↔
        (l.fill g locked addr stateToSet).isSome = true) ↔
      l.HoldsUnlocked g locked addr ∨ (l.HoldsAddress g addr ↔ l.HoldsTag g addr)) ∧
    ((l.hasNucaEntry g locked addr = true ↔
        (l.nucaFill g locked addr stateToSet).isSome = true) ↔
      (l.HoldsInvalid g addr ∨ l.HoldsUnlocked g locked addr) ∨
        (l.HoldsAddress g addr ↔ l.HoldsTag g addr)) := by
  rw [guard_iff, fill_isSome_iff, nucaGuard_iff, nucaFill_isSome_iff]
  exact ⟨or_iff_or_iff, or_iff_or_iff⟩

/-- Both lines of a set are locked, and a response comes for another word of the first. -/
theorem guard_refuses_other_word :
    ¬ ∀ (l : LineArray Unit) (g : Geometry) (locked : Address → Bool) (addr : Address)
      (stateToSet : MESI), l.isThereAnUnlockedOrInvalidEntryInCacheSet g locked addr = true ↔
        (l.fill g locked addr stateToSet).isSome = true := by
  intro hclaim
  have hrun : ((exec (Marked.next twoWays) (Marked.new fun _ => ())
      [.fill (fun _ => false) 0 .shared, .fill (fun _ => false) 64 .shared]).any
      (fun s => !s.array.isThereAnUnlockedOrInvalidEntryInCacheSet twoWays (fun _ => true) 8 &&
        (s.array.fill twoWays (fun _ => true) 8 .shared).isSome)) = true := by
    decide
  obtain ⟨s, -, hs⟩ := (Option.any_eq_true _ _).mp hrun
  rw [Bool.and_eq_true, Bool.not_eq_true'] at hs
  have hguard := (hclaim s.array twoWays (fun _ => true) 8 .shared).mpr hs.2
  rw [hs.1] at hguard
  cases hguard

end LineArray

end Tejas
