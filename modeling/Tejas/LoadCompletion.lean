import Tejas.LoadResolution
import Mathlib.Data.List.Perm.Basic

/-!
# No load is stranded

No operation is issued before the older fences have left the queue, so no fence stands
between a valid load and the older stores. Then the three routes cover all loads: a valid
load without its value waits for the youngest older store to its address, or there is no
such store and a read is on its way whose response reaches it.
-/

namespace Tejas.LSQ
open LabelledRuns RingWindow ListSearch

variable {s t : LSQ} {f i j k : ℕ} {m m' : Traffic} {attempts ready : List ℕ} {reads : List ℤ}

/-! ### Where the scans go -/

theorem loadResolve_clear {older younger : List ℕ} (h : s.RingAt f)
    (hsplit : s.window = older ++ i :: younger) (hclear : ∀ j ∈ older, s.isFence j = false) :
    s.loadResolve i = some (s.searchStatus (s.lsqueue i).addr older) := by
  rw [loadResolve_eq h hsplit, unfenced_eq_self hclear]

/-- The response completes the loads before the first store to its address. -/
theorem responseScan_eq (executed : ℕ → Bool) (address : ℤ) (left : ℕ) (hleft : left ≤ s.lsqSize)
    (hlive : ∀ j ∈ slotsFrom s.lsqSize f k left, (s.lsqueue j).removed = false) :
    (s.responseScan executed address (slot s.lsqSize f k) left).1 =
      s.forwardAll (hitsUntil (s.StoreAt address) (s.Waits address)
        (slotsFrom s.lsqSize f k left)) := by
  induction left generalizing s k with
  | zero =>
    rw [responseScan]
    simp [slotsFrom]
  | succ left ih =>
    have hnot : slot s.lsqSize f k ∉ slotsFrom s.lsqSize f (k + 1) left := by
      have hnodup : (slotsFrom s.lsqSize f k (left + 1)).Nodup := slotsFrom_nodup hleft
      rw [slotsFrom_succ] at hnodup
      exact (List.nodup_cons.mp hnodup).1
    rw [slotsFrom_succ] at hlive ⊢
    rw [responseScan]
    dsimp only
    cases hstore : s.StoreAt address (slot s.lsqSize f k) with
    | true =>
      rw [hitsUntil_cons_stop hstore, if_pos (of_decide_eq_true hstore), forwardAll_nil]
    | false =>
      rw [if_neg (of_decide_eq_false hstore), slot_next]
      have hremoved := hlive _ List.mem_cons_self
      have hmark : (if (s.lsqueue (slot s.lsqSize f k)).type = .load ∧
          (s.lsqueue (slot s.lsqSize f k)).removed = false ∧
          (s.lsqueue (slot s.lsqSize f k)).forwarded = false ∧
          (s.lsqueue (slot s.lsqSize f k)).addr = address ∧
          (s.lsqueue (slot s.lsqSize f k)).valid = true
          then s.setEntry (slot s.lsqSize f k)
            { s.lsqueue (slot s.lsqSize f k) with forwarded := true }
          else s) = s.scanMark address (slot s.lsqSize f k) := by
        unfold scanMark Waits
        simp only [hremoved, true_and, decide_eq_true_eq]
        congr 1
        apply propext
        constructor
        · exact fun hall => ⟨hall.1, hall.2.2.1, hall.2.2.2, hall.2.1⟩
        · exact fun hall => ⟨hall.1, hall.2.2.2, hall.2.1, hall.2.2.1⟩
      rw [hmark]
      have hsub : hitsUntil (s.StoreAt address) (s.Waits address)
          (slotsFrom s.lsqSize f (k + 1) left) ⊆ slotsFrom s.lsqSize f (k + 1) left :=
        hitsUntil_subset
      have hentry : ∀ j ∈ slotsFrom s.lsqSize f (k + 1) left,
          (s.scanMark address (slot s.lsqSize f k)).lsqueue j = s.lsqueue j := by
        intro j hj
        exact scanMark_entry (fun heq => hnot (heq ▸ hj))
      have hrest := ih (s := s.scanMark address (slot s.lsqSize f k)) (k := k + 1)
        (by rw [scanMark_size]; omega) (by
          intro j hj
          rw [scanMark_size] at hj
          rw [hentry j hj]
          exact hlive j (List.mem_cons_of_mem _ hj))
      rw [scanMark_size] at hrest
      have hhits : hitsUntil ((s.scanMark address (slot s.lsqSize f k)).StoreAt address)
          ((s.scanMark address (slot s.lsqSize f k)).Waits address)
          (slotsFrom s.lsqSize f (k + 1) left) =
            hitsUntil (s.StoreAt address) (s.Waits address)
              (slotsFrom s.lsqSize f (k + 1) left) := by
        refine hitsUntil_congr (fun j hj => ?_) (fun j hj => ?_)
        · simp only [StoreAt, hentry j hj]
        · simp only [Waits, hentry j hj]
      rw [hhits] at hrest
      rw [hrest]
      cases hwaits : s.Waits address (slot s.lsqSize f k) with
      | true =>
        rw [hitsUntil_cons_hit hstore hwaits, ← forwardAll_cons (fun hj => hnot (hsub hj))]
        simp [scanMark, hwaits]
      | false =>
        rw [hitsUntil_cons_pass hstore hwaits]
        simp [scanMark, hwaits]

theorem handleMemResponse_eq (h : s.RingAt f) (executed : ℕ → Bool) (address : ℤ) :
    (s.handleMemResponse executed address).1 =
      s.forwardAll (hitsUntil (s.StoreAt address) (s.Waits address) s.window) := by
  rcases Nat.eq_zero_or_pos s.curSize with hcur | hcur
  · unfold handleMemResponse
    rw [hcur, responseScan]
    simp [h.window_eq, hcur, slotsFrom]
  · have hlive : ∀ j ∈ slotsFrom s.lsqSize f 0 s.curSize, (s.lsqueue j).removed = false := by
      intro j hj
      rw [← h.window_eq] at hj
      exact (h.mem_window.mp hj).2
    have hscan := responseScan_eq (f := f) (k := 0) executed address s.curSize h.cur_le hlive
    unfold handleMemResponse
    rw [h.window_eq, h.head_getD hcur]
    rw [slot_zero h.first_lt] at hscan
    exact hscan

/-! ### The invariant -/

/-- Counts bound the fences before an entry, issued operations have none, and every valid
load without its value is served. -/
structure Orderly (ready attempts : List ℕ) (reads : List ℤ) (s : LSQ) : Prop where
  deps : ∀ older i younger, s.window = older ++ i :: younger →
    (older.countP s.isFence : ℤ) ≤ (s.lsqueue i).mfenceDependencies
  count : (s.window.countP s.isFence : ℤ) ≤ s.mfenceCount
  clear : ∀ older i younger, s.window = older ++ i :: younger → (s.lsqueue i).valid = true →
    older.countP s.isFence = 0
  ready : ∀ i ∈ ready, i ∈ s.window →
    (s.lsqueue i).valid = false ∧ (s.lsqueue i).mfenceDependencies = 0
  served : ∀ older i younger, s.window = older ++ i :: younger →
    s.Waits (s.lsqueue i).addr i = true → s.Served attempts reads older i

/-- Flags have changed, and nothing that says which entries wait for which. -/
structure Relabels (s t : LSQ) : Prop where
  window : t.window = s.window
  count : t.mfenceCount = s.mfenceCount
  type : ∀ j, (t.lsqueue j).type = (s.lsqueue j).type
  addr : ∀ j, (t.lsqueue j).addr = (s.lsqueue j).addr
  deps : ∀ j, (t.lsqueue j).mfenceDependencies = (s.lsqueue j).mfenceDependencies

theorem Relabels.youngestStore (h : Relabels s t) (address : ℤ) (older : List ℕ) :
    t.youngestStore address older = s.youngestStore address older := by
  refine youngestStore_congr (fun j _ => ?_)
  unfold StoreAt
  rw [h.type, h.addr]

/-- What a change of flags has to respect. -/
theorem Orderly.relabel {ready' attempts' : List ℕ} {reads' : List ℤ}
    (h : Orderly ready attempts reads s) (hst : Relabels s t)
    (hvalid : ∀ j, (t.lsqueue j).valid = true →
      (s.lsqueue j).valid = true ∨ (s.lsqueue j).mfenceDependencies = 0)
    (hready : ∀ i ∈ ready', i ∈ ready ∧
      ((s.lsqueue i).valid = false → (t.lsqueue i).valid = false))
    (hserved : ∀ older i younger, s.window = older ++ i :: younger →
      t.Waits (s.lsqueue i).addr i = true → t.Served attempts' reads' older i) :
    Orderly ready' attempts' reads' t := by
  have hfences : ∀ slots : List ℕ, slots.countP t.isFence = slots.countP s.isFence :=
    fun slots => countP_isFence_congr (fun j _ => hst.type j)
  constructor
  case deps =>
    intro older i younger hsplit
    rw [hst.window] at hsplit
    rw [hfences, hst.deps]
    exact h.deps older i younger hsplit
  case count =>
    rw [hst.window, hfences, hst.count]
    exact h.count
  case clear =>
    intro older i younger hsplit hi
    rw [hst.window] at hsplit
    rw [hfences]
    rcases hvalid i hi with hwas | hzero
    · exact h.clear older i younger hsplit hwas
    · have hbound := h.deps older i younger hsplit
      rw [hzero] at hbound
      omega
  case ready =>
    intro i hi hmem
    rw [hst.window] at hmem
    obtain ⟨hin, hstill⟩ := hready i hi
    obtain ⟨hnot, hdeps⟩ := h.ready i hin hmem
    rw [hst.deps]
    exact ⟨hstill hnot, hdeps⟩
  case served =>
    intro older i younger hsplit hwaits
    rw [hst.window] at hsplit
    rw [hst.addr] at hwaits
    exact hserved older i younger hsplit hwaits

theorem Relabels.refl (s : LSQ) : Relabels s s :=
  ⟨rfl, rfl, fun _ => rfl, fun _ => rfl, fun _ => rfl⟩

theorem Relabels.trans {u : LSQ} (h : Relabels s t) (h' : Relabels t u) : Relabels s u :=
  ⟨h'.window.trans h.window, h'.count.trans h.count, fun j => (h'.type j).trans (h.type j),
    fun j => (h'.addr j).trans (h.addr j), fun j => (h'.deps j).trans (h.deps j)⟩

theorem forwardAll_entry (s : LSQ) (loads : List ℕ) (j : ℕ) :
    (s.forwardAll loads).lsqueue j =
      { s.lsqueue j with forwarded := (s.lsqueue j).forwarded || decide (j ∈ loads) } := by
  unfold forwardAll
  dsimp only
  split
  · rename_i hj
    simp [hj]
  · rename_i hj
    simp [hj]

theorem relabels_forwardAll (s : LSQ) (loads : List ℕ) : Relabels s (s.forwardAll loads) := by
  refine ⟨rfl, rfl, fun j => ?_, fun j => ?_, fun j => ?_⟩
  · rw [forwardAll_entry]
  · rw [forwardAll_entry]
  · rw [forwardAll_entry]

theorem relabels_setEntry {e : LSQEntry} (htype : e.type = (s.lsqueue i).type)
    (haddr : e.addr = (s.lsqueue i).addr)
    (hdeps : e.mfenceDependencies = (s.lsqueue i).mfenceDependencies) :
    Relabels s (s.setEntry i e) := by
  refine ⟨rfl, rfl, fun j => ?_, fun j => ?_, fun j => ?_⟩
  · by_cases hj : j = i
    · simp [setEntry, hj, htype]
    · simp [setEntry, hj]
  · by_cases hj : j = i
    · simp [setEntry, hj, haddr]
    · simp [setEntry, hj]
  · by_cases hj : j = i
    · simp [setEntry, hj, hdeps]
    · simp [setEntry, hj]

/-- A served load stays served while the stores before it wait and its reads are on their
way. -/
theorem Served.relabel {attempts' : List ℕ} {reads' : List ℤ} {older : List ℕ}
    (h : s.Served attempts reads older i) (hst : Relabels s t)
    (hstore : ∀ j, s.youngestStore (s.lsqueue i).addr older = some j →
      (s.lsqueue j).valid = false → (t.lsqueue j).valid = false)
    (hreads : s.youngestStore (s.lsqueue i).addr older = none →
      (i ∈ attempts ∨ (s.lsqueue i).addr ∈ reads) →
        i ∈ attempts' ∨ (s.lsqueue i).addr ∈ reads') :
    t.Served attempts' reads' older i := by
  unfold Served at h ⊢
  rw [hst.addr, hst.youngestStore]
  cases hyoungest : s.youngestStore (s.lsqueue i).addr older with
  | some j =>
    rw [hyoungest] at h
    exact hstore j hyoungest h
  | none =>
    rw [hyoungest] at h
    exact hreads hyoungest h

/-! ### Responses -/

theorem waits_forwardAll {loads : List ℕ} {address : ℤ} :
    (s.forwardAll loads).Waits address i = true ↔ s.Waits address i = true ∧ i ∉ loads := by
  unfold Waits
  rw [forwardAll_entry]
  simp only [decide_eq_true_eq, Bool.or_eq_false_iff, decide_eq_false_iff_not]
  tauto

/-- A waiting load with no store to its address before it is reached by a response. -/
theorem hit_of_no_store {older younger : List ℕ} (hsplit : s.window = older ++ i :: younger)
    (hwaits : s.Waits (s.lsqueue i).addr i = true)
    (hnone : s.youngestStore (s.lsqueue i).addr older = none) :
    i ∈ hitsUntil (s.StoreAt (s.lsqueue i).addr) (s.Waits (s.lsqueue i).addr) s.window := by
  have hload : ∀ j, s.Waits (s.lsqueue i).addr j = true →
      s.StoreAt (s.lsqueue i).addr j = false := by
    intro j hj
    unfold Waits at hj
    unfold StoreAt
    rw [decide_eq_true_eq] at hj
    rw [decide_eq_false_iff_not, hj.1]
    exact fun hboth => by cases hboth.1
  rw [mem_hitsUntil hload]
  exact ⟨older, younger, hsplit, hwaits, youngestStore_eq_none.mp hnone⟩

/-- After a response every load that still waits is served by what is left. -/
theorem Orderly.response {reads' : List ℤ} (h : Orderly ready attempts reads s)
    (hring : s.RingAt f) (executed : ℕ → Bool) (address : ℤ)
    (hreads : ∀ a ∈ reads, a ≠ address → a ∈ reads') :
    Orderly ready attempts reads' (s.handleMemResponse executed address).1 := by
  rw [handleMemResponse_eq hring]
  have hvalid : ∀ loads j, ((s.forwardAll loads).lsqueue j).valid = (s.lsqueue j).valid := by
    intro loads j
    rw [forwardAll_entry]
  refine h.relabel (relabels_forwardAll _ _) ?_ ?_ ?_
  · intro j hj
    rw [hvalid] at hj
    exact Or.inl hj
  · intro i hi
    rw [hvalid]
    exact ⟨hi, id⟩
  · intro older i younger hsplit hwaits
    obtain ⟨hwaited, hmissed⟩ := waits_forwardAll.mp hwaits
    refine (h.served older i younger hsplit hwaited).relabel (relabels_forwardAll _ _) ?_ ?_
    · intro j _ hj
      rw [hvalid]
      exact hj
    · intro hnone hon
      rcases hon with hattempt | hread
      · exact Or.inl hattempt
      · right
        apply hreads _ hread
        intro heq
        apply hmissed
        rw [← heq]
        exact hit_of_no_store hsplit hwaited hnone

/-! ### Validations -/

theorem relabels_validated (s : LSQ) (i : ℕ) : Relabels s (s.validated i) :=
  relabels_setEntry rfl rfl rfl

theorem valid_validated (hj : j ≠ i) :
    ((s.validated i).lsqueue j).valid = (s.lsqueue j).valid := by
  rw [validated_entry hj]

/-- A waiting load has its own status: the youngest store before it is not valid. -/
theorem served_of_searchStatus {older : List ℕ}
    (hstatus : s.searchStatus (s.lsqueue i).addr older ≠ .forwarded)
    (hreads : s.searchStatus (s.lsqueue i).addr older = .shouldGoToL1 →
      i ∈ attempts ∨ (s.lsqueue i).addr ∈ reads) : s.Served attempts reads older i := by
  unfold searchStatus at hstatus hreads
  unfold Served
  cases hyoungest : s.youngestStore (s.lsqueue i).addr older with
  | some j =>
    rw [hyoungest] at hstatus
    dsimp only at hstatus ⊢
    cases hvalid : (s.lsqueue j).valid with
    | false => rfl
    | true =>
      rw [hvalid] at hstatus
      exact absurd rfl hstatus
  | none =>
    rw [hyoungest] at hreads
    exact hreads rfl

/-- A validation of an entry that was issued keeps the order; a load that has to go to the
cache needs its read. -/
theorem Orderly.loadValidate {ready' attempts' : List ℕ} {reads' : List ℤ}
    {executed : ℕ → Bool} {r : LSQ × List ℕ × Bool} (h : Orderly ready attempts reads s)
    (hring : s.RingAt f) (hi : i ∈ ready) (hlive : s.Live i)
    (hload : (s.lsqueue i).type = .load) (hready : ∀ x ∈ ready', x ∈ ready ∧ x ≠ i)
    (hattempts : attempts ⊆ attempts') (hreads : reads ⊆ reads')
    (hissue : r.2.2 = true → i ∈ attempts' ∨ (s.lsqueue i).addr ∈ reads')
    (hr : s.loadValidate executed i = some r) : Orderly ready' attempts' reads' r.1 := by
  have hmem : i ∈ s.window := hring.mem_window.mpr hlive
  obtain ⟨older, younger, hsplit⟩ := List.append_of_mem hmem
  have hdeps := (h.ready i hi hmem).2
  have hflags := relabels_validated s i
  have hring' : (s.validated i).RingAt f := hring.of_onlyFlags (onlyFlags_validate hlive)
  have hclear : ∀ j ∈ older, (s.validated i).isFence j = false := by
    have hbound := h.deps older i younger hsplit
    rw [hdeps] at hbound
    have hzero : older.countP s.isFence = 0 := by omega
    intro j hj
    rw [isFence_congr (hflags.type j)]
    have hnot := List.countP_eq_zero.mp hzero j hj
    simpa using hnot
  have haddr : ((s.validated i).lsqueue i).addr = (s.lsqueue i).addr := hflags.addr i
  have hsplit' : (s.validated i).window = older ++ i :: younger := hflags.window.trans hsplit
  have hresolve : (s.validated i).loadResolve i =
      some ((s.validated i).searchStatus (s.lsqueue i).addr older) := by
    rw [← haddr]
    exact loadResolve_clear hring' hsplit' hclear
  -- the entries other than the load are as before, so they stay served
  have hothers : ∀ {t : LSQ}, Relabels s t → (∀ j, j ≠ i → t.lsqueue j = s.lsqueue j) →
      (t.Waits (s.lsqueue i).addr i = true → t.Served attempts' reads' older i) →
        Orderly ready' attempts' reads' t := by
    intro t hst hentries hself
    have hvalid : ∀ j, j ≠ i → (t.lsqueue j).valid = (s.lsqueue j).valid := by
      intro j hj
      rw [hentries j hj]
    refine h.relabel hst ?_ ?_ ?_
    · intro j hj
      by_cases hji : j = i
      · rw [hji]
        exact Or.inr hdeps
      · rw [hvalid j hji] at hj
        exact Or.inl hj
    · intro x hx
      obtain ⟨hin, hne⟩ := hready x hx
      rw [hvalid x hne]
      exact ⟨hin, id⟩
    · intro older' l younger' hsplitl hwaits
      by_cases hli : l = i
      · subst hli
        have hnodup := hring.window_nodup
        rw [hsplit] at hnodup
        obtain ⟨rfl, rfl⟩ := split_unique hnodup (hsplit.symm.trans hsplitl)
        exact hself hwaits
      · have hwaited : s.Waits (s.lsqueue l).addr l = true := by
          unfold Waits at hwaits ⊢
          rw [hentries l hli] at hwaits
          exact hwaits
        refine (h.served older' l younger' hsplitl hwaited).relabel hst ?_ ?_
        · intro j hyoungest hj
          have hji : j ≠ i := by
            rintro rfl
            have hstore : s.StoreAt (s.lsqueue l).addr j = true :=
              List.find?_some hyoungest
            unfold StoreAt at hstore
            rw [decide_eq_true_eq, hload] at hstore
            cases hstore.1
          rw [hvalid j hji]
          exact hj
        · intro _ hon
          exact hon.imp (fun ha => hattempts ha) (fun hr => hreads hr)
  have hentries : ∀ j, j ≠ i → (s.validated i).lsqueue j = s.lsqueue j :=
    fun j hj => validated_entry hj
  rw [LSQ.loadValidate] at hr
  have hresolved : (s.setEntry i { s.lsqueue i with valid := true }).loadResolve i =
      some ((s.validated i).searchStatus (s.lsqueue i).addr older) := hresolve
  simp only [hresolved] at hr
  have hstay : (s.validated i).searchStatus (s.lsqueue i).addr older ≠ .forwarded →
      ((s.validated i).searchStatus (s.lsqueue i).addr older = .shouldGoToL1 →
        i ∈ attempts' ∨ (s.lsqueue i).addr ∈ reads') →
      (s.validated i).Served attempts' reads' older i := by
    intro hstatus hread
    apply served_of_searchStatus
    · rw [haddr]
      exact hstatus
    · rw [haddr]
      exact hread
  cases hstatus : (s.validated i).searchStatus (s.lsqueue i).addr older with
  | forwarded =>
    rw [hstatus] at hr
    cases hr
    refine hothers (hflags.trans (relabels_setEntry ?_ ?_ ?_)) ?_ ?_
    · rw [validated_self]
    · rw [validated_self]
    · rw [validated_self]
    · intro j hj
      exact (Function.update_of_ne hj _ _).trans (hentries j hj)
    · intro hwaits
      simp [Waits, setEntry] at hwaits
  | canBeForwarded =>
    rw [hstatus] at hr
    cases hr
    refine hothers hflags hentries (fun _ => hstay ?_ ?_)
    · rw [hstatus]
      exact fun heq => by cases heq
    · rw [hstatus]
      exact fun heq => by cases heq
  | shouldGoToL1 =>
    rw [hstatus] at hr
    cases hr
    refine hothers hflags hentries (fun _ => hstay ?_ (fun _ => hissue rfl))
    rw [hstatus]
    exact fun heq => by cases heq

/-- A store that becomes valid takes along the loads that wait for it. -/
theorem Orderly.storeValidate {ready' : List ℕ} {executed : ℕ → Bool} {r : LSQ × List ℕ}
    (h : Orderly ready attempts reads s) (hring : s.RingAt f) (hi : i ∈ ready)
    (hlive : s.Live i) (hstore : (s.lsqueue i).type = .store)
    (hready : ∀ x ∈ ready', x ∈ ready ∧ x ≠ i) (hr : s.storeValidate executed i = some r) :
    Orderly ready' attempts reads r.1 := by
  have hmem : i ∈ s.window := hring.mem_window.mpr hlive
  have hdeps := (h.ready i hi hmem).2
  obtain ⟨path, hpath, hnodup, heq⟩ := storeValidate_eq hstore executed hring hlive
  rw [heq] at hr
  cases hr
  have hflags := (relabels_validated s i).trans (relabels_forwardAll _
    (hitsUntil (s.Blocks (s.lsqueue i).addr) (s.Waits (s.lsqueue i).addr) path))
  have hvalid : ∀ loads j, j ≠ i →
      (((s.validated i).forwardAll loads).lsqueue j).valid = (s.lsqueue j).valid := by
    intro loads j hj
    rw [forwardAll_entry, validated_entry hj]
  refine h.relabel hflags ?_ ?_ ?_
  · intro j hj
    by_cases hji : j = i
    · rw [hji]
      exact Or.inr hdeps
    · rw [hvalid _ j hji] at hj
      exact Or.inl hj
  · intro x hx
    obtain ⟨hin, hne⟩ := hready x hx
    rw [hvalid _ x hne]
    exact ⟨hin, id⟩
  · intro older l younger hsplit hwaits
    obtain ⟨hwaited, hmissed⟩ := waits_forwardAll.mp hwaits
    rw [waits_validated hstore] at hwaited
    refine (h.served older l younger hsplit hwaited).relabel hflags ?_ ?_
    · intro j hyoungest hj
      have hji : j ≠ i := by
        rintro rfl
        apply hmissed
        -- the load stands behind the store with nothing in between that ends the scan
        obtain ⟨before, between, holder, hat, hbetween⟩ := youngestStore_eq_some hyoungest
        have haddr : (s.lsqueue j).addr = (s.lsqueue l).addr := (of_decide_eq_true hat).2
        have hwaits' : s.Waits (s.lsqueue j).addr l = true := by
          rw [haddr]
          exact hwaited
        have hanswers : s.Answers j l := by
          refine ⟨before, between, younger, ?_, hwaits', fun m hm => ?_⟩
          · rw [hsplit, holder]
          · have hl : (s.lsqueue l).valid = true := (of_decide_eq_true hwaited).2.2.1
            have hzero := h.clear older l younger hsplit hl
            rw [holder] at hzero
            have hmem : m ∈ before ++ j :: between :=
              List.mem_append_right _ (List.mem_cons_of_mem _ hm)
            have hfence := List.countP_eq_zero.mp hzero m hmem
            rw [haddr]
            exact blocks_eq_false (hbetween m hm) (by simpa using hfence)
        cases hpath with
        | younger hwindow hyounger => exact (answers_iff hring.window_nodup hwindow).mp hanswers
        | round hwindow hunused =>
          exact absurd hanswers (not_answers_of_youngest hring.window_nodup hwindow)
      rw [hvalid _ j hji]
      exact hj
    · exact fun _ hon => hon

theorem Orderly.mfenceValidate {ready' : List ℕ} (h : Orderly ready attempts reads s)
    (hring : s.RingAt f) (hi : i ∈ ready) (hlive : s.Live i)
    (hfence : (s.lsqueue i).type = .mfence) (hready : ∀ x ∈ ready', x ∈ ready ∧ x ≠ i) :
    Orderly ready' attempts reads (s.mfenceValidate i) := by
  have hdeps := (h.ready i hi (hring.mem_window.mpr hlive)).2
  refine h.relabel (relabels_validated s i) ?_ ?_ ?_
  · intro j hj
    by_cases hji : j = i
    · rw [hji]
      exact Or.inr hdeps
    · have hsame : ((s.mfenceValidate i).lsqueue j).valid = (s.lsqueue j).valid :=
        valid_validated hji
      rw [hsame] at hj
      exact Or.inl hj
  · intro x hx
    obtain ⟨hin, hne⟩ := hready x hx
    have hsame : ((s.mfenceValidate i).lsqueue x).valid = (s.lsqueue x).valid :=
      valid_validated hne
    rw [hsame]
    exact ⟨hin, id⟩
  · intro older l younger hsplit hwaits
    have hli : l ≠ i := by
      rintro rfl
      have htype : ((s.mfenceValidate l).lsqueue l).type = .mfence := by
        unfold LSQ.mfenceValidate setEntry
        simp [hfence]
      unfold Waits at hwaits
      rw [decide_eq_true_eq, htype] at hwaits
      cases hwaits.1
    have hentry : (s.mfenceValidate i).lsqueue l = s.lsqueue l := validated_entry hli
    have hwaited : s.Waits (s.lsqueue l).addr l = true := by
      unfold Waits at hwaits ⊢
      rw [hentry] at hwaits
      exact hwaits
    refine (h.served older l younger hsplit hwaited).relabel (relabels_validated s i) ?_ ?_
    · intro j hyoungest hj
      have hji : j ≠ i := by
        rintro rfl
        have hat : s.StoreAt (s.lsqueue l).addr j = true := List.find?_some hyoungest
        unfold StoreAt at hat
        rw [decide_eq_true_eq, hfence] at hat
        cases hat.1
      have hsame : ((s.mfenceValidate i).lsqueue j).valid = (s.lsqueue j).valid :=
        valid_validated hji
      rw [hsame]
      exact hj
    · exact fun _ hon => hon

/-! ### Allocation and commit -/

theorem orderly_new (n : ℕ) : Orderly [] [] [] (new n) := by
  have hempty : (new n).window = [] := rfl
  constructor
  case deps =>
    intro older i younger hsplit
    rw [hempty] at hsplit
    exact absurd hsplit (by simp)
  case count => exact Int.le_refl 0
  case clear =>
    intro older i younger hsplit
    rw [hempty] at hsplit
    exact absurd hsplit (by simp)
  case ready => exact fun i hi => by cases hi
  case served =>
    intro older i younger hsplit
    rw [hempty] at hsplit
    exact absurd hsplit (by simp)

/-- An entry that is allocated counts at least the fences of the queue. -/
theorem Orderly.pushed {e : LSQEntry} {c : ℤ} (h : Orderly ready attempts reads s)
    (hring : s.RingAt f) (hfull : s.curSize < s.lsqSize) (hlive : e.removed = false)
    (hdeps : e.mfenceDependencies = s.mfenceCount) (hvalid : e.valid = false)
    (hready : ∀ i ∈ ready, s.Live i)
    (hc : c = s.mfenceCount + if e.type = .mfence then 1 else 0) :
    Orderly ready attempts reads { s.pushed f e with mfenceCount := c } := by
  have hwindow : LSQ.window { s.pushed f e with mfenceCount := c } =
      s.window ++ [slot s.lsqSize f s.curSize] := hring.window_pushed hfull hlive
  have hold : ∀ j ∈ s.window,
      LSQ.lsqueue { s.pushed f e with mfenceCount := c } j = s.lsqueue j :=
    fun j hj => hring.pushed_of_mem hfull hlive hj
  have hself : LSQ.lsqueue { s.pushed f e with mfenceCount := c }
      (slot s.lsqSize f s.curSize) = e := Function.update_self _ _ _
  have hcount : ∀ older ⊆ s.window,
      older.countP (isFence { s.pushed f e with mfenceCount := c }) = older.countP s.isFence :=
    fun older hsub => countP_isFence_congr (fun j hj => by rw [hold j (hsub hj)])
  -- an entry of the new window is the new one behind all others, or an old one
  have hcases : ∀ older i younger,
      LSQ.window { s.pushed f e with mfenceCount := c } = older ++ i :: younger →
      older = s.window ∧ i = slot s.lsqSize f s.curSize ∨
        ∃ younger', s.window = older ++ i :: younger' := by
    intro older i younger hsplit
    rw [hwindow] at hsplit
    rcases List.eq_nil_or_concat younger with rfl | ⟨younger', last, rfl⟩
    · obtain ⟨rfl, hlast⟩ := List.append_inj' hsplit rfl
      exact Or.inl ⟨rfl, (List.cons.inj hlast).1.symm⟩
    · have hsplit' : s.window ++ [slot s.lsqSize f s.curSize] =
          (older ++ i :: younger') ++ [last] := by simpa using hsplit
      exact Or.inr ⟨younger', (List.append_inj' hsplit' rfl).1⟩
  constructor
  case deps =>
    intro older i younger hsplit
    rcases hcases older i younger hsplit with ⟨rfl, rfl⟩ | ⟨younger', hold'⟩
    · rw [hcount _ (List.Subset.refl _), hself, hdeps]
      exact h.count
    · have hi : i ∈ s.window := by simp [hold']
      rw [hcount older (by simp [hold']), hold i hi]
      exact h.deps older i younger' hold'
  case count =>
    have hbound := h.count
    have hfence : isFence { s.pushed f e with mfenceCount := c } (slot s.lsqSize f s.curSize) =
        decide (e.type = .mfence) := by
      unfold isFence
      rw [hself]
    rw [hwindow, List.countP_append, hcount _ (List.Subset.refl _), List.countP_singleton, hfence,
      hc]
    by_cases htype : e.type = .mfence
    · rw [if_pos htype, if_pos (decide_eq_true htype)]
      push_cast
      omega
    · rw [if_neg htype, if_neg (by simpa using htype)]
      push_cast
      omega
  case clear =>
    intro older i younger hsplit hi
    rcases hcases older i younger hsplit with ⟨rfl, rfl⟩ | ⟨younger', hold'⟩
    · rw [hself, hvalid] at hi
      cases hi
    · have hmem : i ∈ s.window := by simp [hold']
      rw [hold i hmem] at hi
      rw [hcount older (by simp [hold'])]
      exact h.clear older i younger' hold' hi
  case ready =>
    intro i hi hmem
    have hin : i ∈ s.window := hring.mem_window.mpr (hready i hi)
    rw [hold i hin]
    exact h.ready i hi hin
  case served =>
    intro older i younger hsplit hwaits
    rcases hcases older i younger hsplit with ⟨rfl, rfl⟩ | ⟨younger', hold'⟩
    · unfold Waits at hwaits
      rw [hself, decide_eq_true_eq, hvalid] at hwaits
      cases hwaits.2.2.1
    · have hi : i ∈ s.window := by simp [hold']
      have hwaited : s.Waits (s.lsqueue i).addr i = true := by
        unfold Waits at hwaits ⊢
        rw [hold i hi] at hwaits
        exact hwaits
      have hserved := h.served older i younger' hold' hwaited
      have hsub : older ⊆ s.window := by simp [hold']
      have hyoungest : LSQ.youngestStore { s.pushed f e with mfenceCount := c }
          (s.lsqueue i).addr older = s.youngestStore (s.lsqueue i).addr older := by
        refine youngestStore_congr (fun j hj => ?_)
        unfold StoreAt
        rw [hold j (hsub hj)]
      unfold Served at hserved ⊢
      rw [hold i hi, hyoungest]
      cases hstore : s.youngestStore (s.lsqueue i).addr older with
      | some j =>
        rw [hstore] at hserved
        have hj : j ∈ older := List.mem_reverse.mp (List.mem_of_find?_eq_some hstore)
        dsimp only at hserved ⊢
        rw [hold j (hsub hj)]
        exact hserved
      | none =>
        rw [hstore] at hserved
        exact hserved

/-- The loop of `commit_mfence` changes counts only. -/
theorem clearFrom_entry {fuel : ℕ} (hc : s.clearFrom i fuel = some t) (j : ℕ) :
    ∃ d, t.lsqueue j = { s.lsqueue j with mfenceDependencies := d } := by
  induction fuel generalizing s i with
  | zero => simp [clearFrom] at hc
  | succ fuel ih =>
    rw [clearFrom] at hc
    split at hc
    · cases hc
      exact ⟨_, rfl⟩
    · obtain ⟨d, hd⟩ := ih hc
      refine ⟨d, ?_⟩
      rw [hd]
      by_cases hj : j = i
      · simp [setEntry, hj, LSQEntry.mfenceCleared]
      · simp [setEntry, hj]

theorem clearFrom_count {fuel : ℕ} (hc : s.clearFrom i fuel = some t) :
    t.mfenceCount = s.mfenceCount := by
  induction fuel generalizing s i with
  | zero => simp [clearFrom] at hc
  | succ fuel ih =>
    rw [clearFrom] at hc
    split at hc
    · cases hc
      rfl
    · have hrest := ih hc
      exact hrest

/-- What a removal does to the entries it leaves. -/
structure Leaves (s : LSQ) (f : ℕ) (t : LSQ) : Prop where
  window : s.window = f :: t.window
  entry : ∀ j ∈ t.window, ∃ d, t.lsqueue j = { s.lsqueue j with mfenceDependencies := d } ∧
    ((s.lsqueue j).mfenceDependencies - if s.isFence f then 1 else 0) ≤ d ∧
      (s.isFence f = false → d = (s.lsqueue j).mfenceDependencies)
  count : t.mfenceCount = s.mfenceCount - if s.isFence f then 1 else 0
  valid : (s.lsqueue f).type = .store → (s.lsqueue f).valid = true

theorem commitEntry_leaves {accepts : ℕ → Bool} (hring : s.RingAt f) (hcur : 0 < s.curSize)
    (hc : s.commitEntry accepts f = some (some t)) : s.Leaves f t := by
  have hwindow := commitEntry_window hring hcur hc
  have hnodup := hring.window_nodup
  rw [hwindow, List.nodup_cons] at hnodup
  have hne : ∀ i ∈ t.window, i ≠ f := fun i hi heq => hnodup.1 (heq ▸ hi)
  have hplain : s.isFence f = false → t = s.removeHead f →
      ((s.lsqueue f).type = .store → (s.lsqueue f).valid = true) → s.Leaves f t := by
    intro hfence ht hvalid
    refine ⟨hwindow, fun j hj => ⟨(s.lsqueue j).mfenceDependencies, ?_, ?_, fun _ => rfl⟩, ?_,
      hvalid⟩
    · simp [ht, removeHead, hne j hj]
    · simp [hfence]
    · simp [ht, removeHead, hfence]
  rw [commitEntry] at hc
  split at hc
  case h_1 htype =>
    split at hc
    · cases hc
    · rename_i hvalid
      split at hc
      · cases hc
        exact hplain (by simp [isFence, htype]) rfl (fun _ => by simpa using hvalid)
      · cases hc
  case h_2 htype =>
    obtain ⟨u, hu, heq⟩ := Option.map_eq_some_iff.mp hc
    cases heq
    have hfence : s.isFence f = true := by simp [isFence, htype]
    refine ⟨hwindow, fun j hj => ?_, ?_, fun hstore => ?_⟩
    · obtain ⟨d, hd⟩ := clearFrom_entry hu j
      have hin : j ∈ s.window := by
        rw [hwindow]
        exact List.mem_cons_of_mem _ hj
      refine ⟨d, ?_, ?_, fun hnot => ?_⟩
      · have hkept : ({ u with mfenceCount := u.mfenceCount - 1 }.removeHead f).lsqueue j =
            u.lsqueue j := Function.update_of_ne (hne j hj) _ _
        rw [hkept]
        exact hd
      · rw [if_pos hfence]
        have hdeps : d = (u.lsqueue j).mfenceDependencies := by rw [hd]
        rcases Nat.lt_or_ge s.curSize s.lsqSize with hfree | hfull
        · rw [hdeps, (commitMfence_deps hring hcur hfree hu).2 j hin]
        · have hsame := commitMfence_full hring (Nat.le_antisymm hring.cur_le hfull)
          rw [hsame] at hu
          cases hu
          rw [hdeps]
          omega
      · rw [hfence] at hnot
        cases hnot
    · rw [if_pos hfence]
      have hcount : u.mfenceCount = s.mfenceCount := clearFrom_count hu
      simp [removeHead, hcount]
    · rw [htype] at hstore
      cases hstore
  case h_3 htype =>
    split at hc
    case isTrue =>
      cases hc
      exact hplain (by simp [isFence, htype]) rfl (fun hstore => by simp [htype] at hstore)
    case isFalse => cases hc

/-- A removal strands no load: the store that leaves is valid, so none waits for it. -/
theorem Orderly.leaves (h : Orderly ready attempts reads s) (hl : s.Leaves f t) :
    Orderly ready attempts reads t := by
  have hin : ∀ j ∈ t.window, j ∈ s.window := by
    intro j hj
    rw [hl.window]
    exact List.mem_cons_of_mem _ hj
  have hsplit' : ∀ older i younger, t.window = older ++ i :: younger →
      s.window = (f :: older) ++ i :: younger := by
    intro older i younger hsplit
    rw [hl.window, hsplit, List.cons_append]
  have htype : ∀ j ∈ t.window, (t.lsqueue j).type = (s.lsqueue j).type := by
    intro j hj
    obtain ⟨d, hd, -⟩ := hl.entry j hj
    rw [hd]
  have hfences : ∀ older ⊆ t.window, older.countP t.isFence = older.countP s.isFence :=
    fun older hsub => countP_isFence_congr (fun j hj => htype j (hsub hj))
  constructor
  case deps =>
    intro older i younger hsplit
    have hi : i ∈ t.window := by simp [hsplit]
    have hsub : older ⊆ t.window := by simp [hsplit]
    obtain ⟨d, hd, hbound, -⟩ := hl.entry i hi
    have hold := h.deps _ i younger (hsplit' older i younger hsplit)
    rw [List.countP_cons] at hold
    rw [hfences older hsub, hd]
    dsimp only
    split_ifs at hbound hold with hfence
    · push_cast at hold
      omega
    · push_cast at hold
      omega
  case count =>
    have hold := h.count
    rw [hl.window, List.countP_cons] at hold
    rw [hfences _ (List.Subset.refl _), hl.count]
    split_ifs at hold ⊢ with hfence
    · push_cast at hold
      omega
    · push_cast at hold
      omega
  case clear =>
    intro older i younger hsplit hi
    have hmem : i ∈ t.window := by simp [hsplit]
    have hsub : older ⊆ t.window := by simp [hsplit]
    obtain ⟨d, hd, -⟩ := hl.entry i hmem
    rw [hd] at hi
    have hold := h.clear _ i younger (hsplit' older i younger hsplit) hi
    rw [List.countP_cons] at hold
    rw [hfences older hsub]
    omega
  case ready =>
    intro i hi hmem
    obtain ⟨hvalid, hdeps⟩ := h.ready i hi (hin i hmem)
    obtain ⟨d, hd, -, hsame⟩ := hl.entry i hmem
    obtain ⟨older, younger, hsplit⟩ := List.append_of_mem hmem
    have hold := h.deps _ i younger (hsplit' older i younger hsplit)
    rw [hdeps, List.countP_cons] at hold
    have hplain : s.isFence f = false := by
      cases hfence : s.isFence f with
      | false => rfl
      | true =>
        rw [hfence, if_pos rfl] at hold
        push_cast at hold
        omega
    rw [hd, hsame hplain]
    exact ⟨hvalid, hdeps⟩
  case served =>
    intro older i younger hsplit hwaits
    have hi : i ∈ t.window := by simp [hsplit]
    have hsub : older ⊆ t.window := by simp [hsplit]
    obtain ⟨d, hd, -⟩ := hl.entry i hi
    have haddr : (t.lsqueue i).addr = (s.lsqueue i).addr := by rw [hd]
    have hwaited : s.Waits (s.lsqueue i).addr i = true := by
      unfold Waits at hwaits ⊢
      rw [hd] at hwaits
      exact hwaits
    have hserved := h.served _ i younger (hsplit' older i younger hsplit) hwaited
    have hyoungest : t.youngestStore (s.lsqueue i).addr older =
        s.youngestStore (s.lsqueue i).addr older := by
      refine youngestStore_congr (fun j hj => ?_)
      obtain ⟨d', hd', -⟩ := hl.entry j (hsub hj)
      unfold StoreAt
      rw [hd']
    unfold Served at hserved ⊢
    rw [youngestStore_cons] at hserved
    rw [haddr, hyoungest]
    cases hstore : s.youngestStore (s.lsqueue i).addr older with
    | some j =>
      rw [hstore] at hserved
      have hj : j ∈ older := List.mem_reverse.mp (List.mem_of_find?_eq_some hstore)
      obtain ⟨d', hd', -⟩ := hl.entry j (hsub hj)
      dsimp only [Option.some_or] at hserved ⊢
      rw [hd']
      exact hserved
    | none =>
      rw [hstore, Option.none_or] at hserved
      split at hserved
      · rename_i j hat
        split at hat
        · rename_i hstoreAt
          cases hat
          rw [hl.valid (of_decide_eq_true hstoreAt).1] at hserved
          cases hserved
        · cases hat
      · exact hserved

theorem removalsFrom_position {accepts : ℕ → Bool} {fuel : ℕ} (h : s.RingAt f)
    (hk : k < s.curSize) :
    ∀ j ∈ s.removalsFrom accepts (slot s.lsqSize f k) f fuel,
      j ∈ slotsFrom s.lsqSize f 0 (k + 1) := by
  induction fuel generalizing s f k with
  | zero => exact fun j hj => by cases hj
  | succ fuel ih =>
    intro j hj
    have hcur : 0 < s.curSize := by omega
    have hsize := h.cur_le
    rw [slotsFrom_succ, slot_zero h.first_lt]
    rw [removalsFrom] at hj
    split at hj
    case h_1 u hu =>
      obtain ⟨hring, hn, hcu⟩ := commitEntry_ring h hcur hu
      rcases List.mem_cons.mp hj with rfl | hj
      · exact List.mem_cons_self
      · split at hj
        · cases hj
        · rename_i hne
          obtain ⟨hpos, hupto⟩ := slot_behind_head hn h.first_lt hne
          rw [hupto] at hj
          obtain ⟨d, hd, rfl⟩ := mem_slotsFrom.mp (ih hring (by omega) j hj)
          refine List.mem_cons_of_mem _ (mem_slotsFrom.mpr ⟨d, by omega, ?_⟩)
          rw [hn, slot_head_next]
          congr 1
          omega
    case h_2 => cases hj

theorem takeWhile_ne {x : ℕ} {older younger : List ℕ} (h : x ∉ older) :
    (older ++ x :: younger).takeWhile (fun j => j ≠ x) = older := by
  rw [List.takeWhile_append_of_pos, List.takeWhile_cons_of_neg, List.append_nil]
  · simp
  · intro j hj
    exact decide_eq_true (fun heq => h (heq ▸ hj))

/-- What a commit of the reorder buffer removes is valid. -/
theorem valid_of_removed {accepts : ℕ → Bool} (h : s.RingAt f) (hi : i < s.lsqSize)
    (hretired : s.Retired i) :
    ∀ j ∈ s.removals (.commit i accepts), (s.lsqueue j).valid = true := by
  intro j hj
  rw [removals] at hj
  split at hj
  · cases hj
  · rename_i hremoved
    have hlive : (s.lsqueue i).removed = false := by simpa using hremoved
    obtain ⟨k, hk, rfl⟩ := h.exists_position ⟨hi, hlive⟩
    rw [h.head_getD (by omega)] at hj
    have hmem := removalsFrom_position h hk j hj
    apply hretired hlive
    have hsum : s.curSize = k + (s.curSize - (k + 1) + 1) := by omega
    have hwindow := h.window_eq
    rw [hsum, slotsFrom_add, slotsFrom_succ, Nat.zero_add] at hwindow
    have hnodup := h.window_nodup
    rw [hwindow] at hnodup
    have hnot : slot s.lsqSize f k ∉ slotsFrom s.lsqSize f 0 k := by
      intro hin
      exact List.disjoint_of_nodup_append hnodup hin List.mem_cons_self
    rw [hwindow, takeWhile_ne hnot]
    rw [slotsFrom_concat, Nat.zero_add] at hmem
    exact hmem

/-! ### Runs -/

/-- The queue is a ring, issued operations are in it, and no load is stranded. -/
structure Traffic.Sound (m : Traffic) : Prop where
  ring : m.queue.RingInvariant
  orderly : Orderly m.ready m.attempts m.reads m.queue
  live : ∀ i ∈ m.ready, m.queue.Live i
  once : m.ready.Nodup

theorem sound_new {n : ℕ} (hn : 0 < n) : (Traffic.new n).Sound :=
  ⟨⟨0, ringAt_new hn⟩, orderly_new n, fun _ hi => absurd hi List.not_mem_nil, List.nodup_nil⟩

theorem sound_pushed {e : LSQEntry} {c : ℤ} (h : m.Sound) (hring : m.queue.RingAt f)
    (hfull : m.queue.curSize < m.queue.lsqSize) (hlive : e.removed = false)
    (hdeps : e.mfenceDependencies = m.queue.mfenceCount) (hvalid : e.valid = false)
    (hc : c = m.queue.mfenceCount + if e.type = .mfence then 1 else 0) :
    Traffic.Sound { m with queue := { m.queue.pushed f e with mfenceCount := c } } := by
  have hnew := (hring.pushed hfull hlive).with_mfenceCount c
  refine ⟨⟨f, hnew⟩, h.orderly.pushed hring hfull hlive hdeps hvalid h.live hc, ?_, h.once⟩
  intro i hi
  apply hnew.mem_window.mp
  have hwindow : LSQ.window { m.queue.pushed f e with mfenceCount := c } =
      m.queue.window ++ [slot m.queue.lsqSize f m.queue.curSize] := hring.window_pushed hfull hlive
  rw [hwindow]
  exact List.mem_append_left _ (hring.mem_window.mpr (h.live i hi))

/-- The invariant after flags have changed. -/
theorem Traffic.Sound.flags {q : LSQ} {ready' attempts' : List ℕ} {reads' : List ℤ} (h : m.Sound)
    (hflags : OnlyFlags m.queue q) (hready : ready'.Sublist m.ready)
    (horderly : Orderly ready' attempts' reads' q) :
    Traffic.Sound ⟨q, ready', attempts', reads'⟩ := by
  obtain ⟨f, hring⟩ := h.ring
  refine ⟨⟨f, hring.of_onlyFlags hflags⟩, horderly, fun i hi => ?_, h.once.sublist hready⟩
  obtain ⟨hlt, hlive⟩ := h.live i (hready.subset hi)
  exact ⟨hflags.size ▸ hlt, (hflags.removed i).trans hlive⟩

/-- The flag `issued` plays no part. -/
theorem orderly_l1Issued (h : Orderly ready attempts reads s) :
    Orderly ready attempts reads (s.l1Issued i) := by
  have hst : Relabels s (s.l1Issued i) := relabels_setEntry rfl rfl rfl
  have hvalid : ∀ j, ((s.l1Issued i).lsqueue j).valid = (s.lsqueue j).valid := by
    intro j
    by_cases hj : j = i
    · simp [l1Issued, setEntry, hj]
    · simp [l1Issued, setEntry, hj]
  have hwaits : ∀ a j, (s.l1Issued i).Waits a j = s.Waits a j := by
    intro a j
    by_cases hj : j = i
    · simp [l1Issued, setEntry, hj, Waits]
    · simp [l1Issued, setEntry, hj, Waits]
  refine h.relabel hst ?_ ?_ ?_
  · intro j hj
    rw [hvalid] at hj
    exact Or.inl hj
  · intro x hx
    rw [hvalid]
    exact ⟨hx, id⟩
  · intro older l younger hsplit hl
    rw [hwaits] at hl
    refine (h.served older l younger hsplit hl).relabel hst ?_ (fun _ hon => hon)
    intro j _ hj
    rw [hvalid]
    exact hj

theorem mem_eraseIdx_or {α : Type} {l : List α} {x y : α} (hk : l[k]? = some x) (hy : y ∈ l) :
    y = x ∨ y ∈ l.eraseIdx k := by
  obtain ⟨hlt, rfl⟩ := List.getElem?_eq_some_iff.mp hk
  have hperm := (List.getElem_cons_eraseIdx_perm hlt).symm
  exact List.mem_cons.mp (hperm.mem_iff.mp hy)

theorem mem_eraseIdx_ne {l : List ℕ} (hnodup : l.Nodup) (hk : l[k]? = some i) :
    ∀ x ∈ l.eraseIdx k, x ∈ l ∧ x ≠ i := by
  intro x hx
  refine ⟨List.mem_of_mem_eraseIdx hx, ?_⟩
  rintro rfl
  obtain ⟨hlt, heq⟩ := List.getElem?_eq_some_iff.mp hk
  have hperm := List.getElem_cons_eraseIdx_perm hlt
  rw [heq] at hperm
  exact (List.nodup_cons.mp (hperm.nodup_iff.mpr hnodup)).1 hx

theorem loadValidate_addr {executed : ℕ → Bool} {r : LSQ × List ℕ × Bool}
    (h : s.loadValidate executed i = some r) : (r.1.lsqueue i).addr = (s.lsqueue i).addr := by
  rw [loadValidate] at h
  dsimp only at h
  split at h
  · cases h
  · cases h
    simp [setEntry]
  · cases h
    simp [setEntry]
  · cases h
    simp [setEntry]

theorem sound_addrReady {executed : ℕ → Bool} {l1Accepts : Bool} (h : m.Sound)
    (hstep : m.next (.addrReady k executed l1Accepts) = some m') : m'.Sound := by
  simp only [Traffic.next] at hstep
  split at hstep
  · cases hstep
  · rename_i i hk
    obtain ⟨r, hr, rfl⟩ := Option.map_eq_some_iff.mp hstep
    have hi := List.mem_of_getElem? hk
    have hlive := h.live i hi
    have hready := mem_eraseIdx_ne h.once hk
    have hflags := (handleAddrValidate_flags hlive hr).1
    have hsub := List.eraseIdx_sublist m.ready k
    obtain ⟨f, hring⟩ := h.ring
    unfold handleAddrValidate at hr
    split at hr
    · rename_i hload
      have hvalidated : ∀ attempts' reads', m.attempts ⊆ attempts' → m.reads ⊆ reads' →
          (r.2.2 = true → i ∈ attempts' ∨ (m.queue.lsqueue i).addr ∈ reads') →
            Orderly (m.ready.eraseIdx k) attempts' reads' r.1 :=
        fun attempts' reads' hattempts hreads hissue =>
          h.orderly.loadValidate hring hi hlive hload hready hattempts hreads hissue hr
      have hrefl : ∀ {α : Type} (l : List α), l ⊆ l := fun l => List.Subset.refl l
      split
      · have hsame := loadValidate_addr hr
        unfold Traffic.handleAttemptL1Issue
        split
        · apply h.flags (hflags.trans l1Issued_flags.1) hsub
          apply orderly_l1Issued
          apply hvalidated _ _ (hrefl _) (List.subset_append_left _ _)
          intro _
          rw [← hsame]
          exact Or.inr (List.mem_append_right _ List.mem_cons_self)
        · apply h.flags hflags hsub
          apply hvalidated _ _ (List.subset_append_left _ _) (hrefl _)
          exact fun _ => Or.inl (List.mem_append_right _ List.mem_cons_self)
      · rename_i hstay
        apply h.flags hflags hsub
        apply hvalidated _ _ (hrefl _) (hrefl _)
        exact fun hgo => absurd hgo hstay
    · rename_i hstore
      obtain ⟨p, hp, rfl⟩ := Option.map_eq_some_iff.mp hr
      exact h.flags hflags hsub (h.orderly.storeValidate hring hi hlive hstore hready hp)
    · rename_i hfence
      cases hr
      exact h.flags hflags hsub (h.orderly.mfenceValidate hring hi hlive hfence hready)

theorem sound_commit {commitUpto : ℕ} {accepts : ℕ → Bool} (h : m.Sound)
    (hstep : m.next (.commit commitUpto accepts) = some m') : m'.Sound := by
  simp only [Traffic.next, Option.ite_none_right_eq_some] at hstep
  obtain ⟨hretired, hstep⟩ := hstep
  obtain ⟨t, ht, rfl⟩ := Option.map_eq_some_iff.mp hstep
  have hring' := ringInvariant_next h.ring ht
  simp only [next, Option.ite_none_right_eq_some] at ht
  obtain ⟨hi, hc⟩ := ht
  obtain ⟨f, hring⟩ := h.ring
  have horderly := (handleCommitsFromROB_invariant (J := Orderly m.ready m.attempts m.reads)
    (fun u g u' hu hcur hJ hentry => hJ.leaves (commitEntry_leaves hu hcur hentry))
    hring hi h.orderly hc).1
  refine ⟨hring', horderly, fun i hmem => ?_, h.once⟩
  -- an issued operation is not valid yet, so it is not among those that leave
  obtain ⟨g, hring'⟩ := hring'
  have hin := hring.mem_window.mpr (h.live i hmem)
  have hnot := (h.orderly.ready i hmem hin).1
  rw [window_commit hring hi hc] at hin
  rcases List.mem_append.mp hin with hgone | hkept
  · have hvalid := valid_of_removed hring hi hretired i hgone
    rw [hnot] at hvalid
    cases hvalid
  · exact hring'.mem_window.mp hkept

theorem sound_issue (h : m.Sound) (hstep : m.next (.issue i) = some m') : m'.Sound := by
  simp only [Traffic.next, Option.ite_none_right_eq_some] at hstep
  obtain ⟨⟨hlive, hissuable, hvalid, hnew⟩, hstep⟩ := hstep
  cases hstep
  have hdeps : (m.queue.lsqueue i).mfenceDependencies = 0 := of_decide_eq_true hissuable
  refine ⟨h.ring, ⟨h.orderly.deps, h.orderly.count, h.orderly.clear, ?_, h.orderly.served⟩, ?_, ?_⟩
  · intro x hx hmem
    rcases List.mem_append.mp hx with hx | hx
    · exact h.orderly.ready x hx hmem
    · rw [List.mem_singleton.mp hx]
      exact ⟨hvalid, hdeps⟩
  · intro x hx
    rcases List.mem_append.mp hx with hx | hx
    · exact h.live x hx
    · rw [List.mem_singleton.mp hx]
      exact hlive
  · refine h.once.append (List.nodup_singleton _) ?_
    intro x hx hx'
    rw [List.mem_singleton.mp hx'] at hx
    exact hnew hx

theorem sound_next {a : TrafficAction} (h : m.Sound) (hstep : m.next a = some m') :
    m'.Sound := by
  cases a with
  | addEntry isLoad address robEntry =>
    obtain ⟨t, ht, rfl⟩ := Option.map_eq_some_iff.mp hstep
    obtain ⟨f, hring⟩ := h.ring
    obtain ⟨f', hring', hfull, rfl⟩ := next_addEntry hring ht
    have htype : ¬ (LSQEntry.recycled (if isLoad then .load else .store) robEntry address
        m.queue.mfenceCount).type = .mfence := by
      cases isLoad with
      | true => exact fun heq => by cases heq
      | false => exact fun heq => by cases heq
    refine sound_pushed h hring' hfull rfl rfl rfl ?_
    rw [if_neg htype, Int.add_zero]
  | addMfence robEntry =>
    obtain ⟨t, ht, rfl⟩ := Option.map_eq_some_iff.mp hstep
    obtain ⟨f, hring⟩ := h.ring
    obtain ⟨f', hring', hfull, rfl⟩ := next_addMfence hring ht
    exact sound_pushed h hring' hfull rfl rfl rfl rfl
  | issue index => exact sound_issue h hstep
  | addrReady k executed l1Accepts => exact sound_addrReady h hstep
  | attemptL1Issue k l1Accepts =>
    simp only [Traffic.next] at hstep
    split at hstep
    · cases hstep
    · rename_i index hk
      cases hstep
      -- what the attempt stood for is still asked for
      unfold Traffic.handleAttemptL1Issue
      have hserved : ∀ attempts' : List ℕ, ∀ reads' : List ℤ,
          m.attempts.eraseIdx k ⊆ attempts' → m.reads ⊆ reads' →
          (index ∈ attempts' ∨ (m.queue.lsqueue index).addr ∈ reads') →
            Orderly m.ready attempts' reads' m.queue := by
        intro attempts' reads' hattempts hreads hindex
        refine h.orderly.relabel (Relabels.refl _) (fun _ hj => Or.inl hj)
          (fun _ hi => ⟨hi, id⟩) ?_
        intro older i younger hsplit hwaits
        refine (h.orderly.served older i younger hsplit hwaits).relabel (Relabels.refl _)
          (fun _ _ => id) ?_
        intro _ hon
        rcases hon with ha | hr
        · rcases mem_eraseIdx_or hk ha with rfl | ha
          · exact hindex
          · exact Or.inl (hattempts ha)
        · exact Or.inr (hreads hr)
      split
      · apply h.flags l1Issued_flags.1 (List.Sublist.refl _)
        apply orderly_l1Issued
        apply hserved _ _ (List.Subset.refl _) (List.subset_append_left _ _)
        exact Or.inr (List.mem_append_right _ List.mem_cons_self)
      · apply h.flags .rfl (List.Sublist.refl _)
        apply hserved _ _ (List.subset_append_left _ _) (List.Subset.refl _)
        exact Or.inl (List.mem_append_right _ List.mem_cons_self)
  | memResponse k executed =>
    simp only [Traffic.next] at hstep
    split at hstep
    · cases hstep
    · rename_i address hk
      cases hstep
      obtain ⟨f, hring⟩ := h.ring
      refine h.flags (responseScan_flags executed address _).1 (List.Sublist.refl _) ?_
      apply h.orderly.response hring
      intro a ha hne
      exact (mem_eraseIdx_or hk ha).resolve_left hne
  | fetchResponse address executed =>
    cases hstep
    obtain ⟨f, hring⟩ := h.ring
    refine h.flags (responseScan_flags executed address _).1 (List.Sublist.refl _) ?_
    exact h.orderly.response hring executed address (fun _ ha _ => ha)
  | commit commitUpto accepts => exact sound_commit h hstep

/-- The read of the load is scheduled or outstanding, and its response completes the load. -/
def Traffic.AwaitsRead (m : Traffic) (i : ℕ) : Prop :=
  (i ∈ m.attempts ∨ (m.queue.lsqueue i).addr ∈ m.reads) ∧
    ∀ executed, ((m.queue.handleMemResponse executed (m.queue.lsqueue i).addr).1.lsqueue
      i).forwarded = true

/-- The youngest older store to the address of the load is not valid, no fence stands in
between, and the validation of the store completes the load. -/
structure AwaitsStore (s : LSQ) (i j : ℕ) : Prop where
  older : ∃ before between after, s.window = before ++ j :: between ++ i :: after ∧
    ∀ m ∈ between, s.isFence m = false ∧ s.StoreAt (s.lsqueue i).addr m = false
  store : s.StoreAt (s.lsqueue i).addr j = true
  notValid : (s.lsqueue j).valid = false
  completes : ∀ executed, ∃ r, s.handleAddrValidate executed j = some r ∧
    (r.1.lsqueue i).forwarded = true

theorem completes_of_answers (hring : s.RingAt f) (hlive : s.Live j)
    (hstore : (s.lsqueue j).type = .store) (hanswers : s.Answers j i) (executed : ℕ → Bool) :
    ∃ r, s.handleAddrValidate executed j = some r ∧ (r.1.lsqueue i).forwarded = true := by
  obtain ⟨path, hpath, -, heq⟩ := storeValidate_eq hstore executed hring hlive
  refine ⟨_, by rw [handleAddrValidate, hstore, heq]; rfl, ?_⟩
  rw [forwardAll_forwarded]
  right
  cases hpath with
  | younger hwindow hyounger => exact (answers_iff hring.window_nodup hwindow).mp hanswers
  | round hwindow hunused =>
    exact absurd hanswers (not_answers_of_youngest hring.window_nodup hwindow)

end Tejas.LSQ
