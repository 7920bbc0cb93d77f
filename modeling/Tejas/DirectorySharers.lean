import Tejas.Directory
import Mathlib.Data.List.Basic

/-!
# The sharers of directory entries

An invalid entry has no sharers, an exclusive or modified one has exactly one, a shared
one has some, and none twice. The handlers keep this and none of their failures is
reachable. What each handler makes of a consistent entry is stated once.
-/

namespace Tejas

namespace DirectoryEntry

variable {C : Type} {e : DirectoryEntry C} {c : C}

structure Consistent (e : DirectoryEntry C) : Prop where
  invalid_iff : e.state = .invalid ↔ e.sharers = []
  owned : e.state = .exclusive ∨ e.state = .modified → ∃ c, e.sharers = [c]
  shared : e.state = .shared → e.sharers ≠ []
  nodup : e.sharers.Nodup

theorem consistent_empty : Consistent (⟨.invalid, []⟩ : DirectoryEntry C) := by
  constructor <;> simp

theorem consistent_owner {state : MESI} (hstate : state ≠ .invalid) :
    Consistent (⟨state, [c]⟩ : DirectoryEntry C) := by
  constructor <;> simp [hstate]

theorem consistent_shared {sharers : List C} (hne : sharers ≠ []) (hnodup : sharers.Nodup) :
    Consistent (⟨.shared, sharers⟩ : DirectoryEntry C) := by
  constructor <;> simp [hne, hnodup]

variable [DecidableEq C]

theorem addSharer_cleared {state : MESI} (hstate : state ≠ .invalid) :
    addSharer ⟨state, []⟩ c = .ok ⟨state, [c]⟩ := by
  simp [addSharer, hstate, isSharer]

/-- A write hit leaves the writer as the only sharer. -/
theorem handleWriteHit_eq (h : e.Consistent) (c : C) :
    e.handleWriteHit c =
      .ok (⟨.modified, [c]⟩, e.evictOthers c ++ [.ackDirectoryWriteHit c]) := by
  rw [handleWriteHit]
  cases hstate : e.state with
  | invalid =>
    have hnil := h.invalid_iff.mp hstate
    have hadd : addSharer { e.clearAllSharers with state := .modified } c =
      .ok ⟨.modified, [c]⟩ := addSharer_cleared (by decide)
    simp [hadd, evictOthers, hnil, bind, Except.bind, pure, Except.pure]
  | _ =>
    have hadd : e.clearAllSharers.addSharer c = .ok ⟨e.state, [c]⟩ :=
      addSharer_cleared (by simp [hstate])
    simp [hadd, bind, Except.bind, pure, Except.pure]

/-- The entry and the answer of a read miss. -/
def afterReadMiss (e : DirectoryEntry C) (c : C) : DirectoryEntry C × Reply C :=
  match e.sharers with
  | [] => (⟨.exclusive, [c]⟩, .cacheRead c)
  | first :: _ =>
    if c ∈ e.sharers then (⟨.shared, e.sharers⟩, .memResponse c)
    else (⟨.shared, e.sharers ++ [c]⟩, .directoryCachelineForwardRequest first c)

theorem handleReadMiss_eq (h : e.Consistent) (c : C) :
    e.handleReadMiss c = .ok ((e.afterReadMiss c).1, [(e.afterReadMiss c).2]) := by
  rw [handleReadMiss]
  cases hsharers : e.sharers with
  | nil =>
    have hstate := h.invalid_iff.mpr hsharers
    have hadd : addSharer ⟨.exclusive, []⟩ c = .ok ⟨.exclusive, [c]⟩ :=
      addSharer_cleared (by decide)
    simp [hstate, clearAllSharers, hadd, afterReadMiss, hsharers, bind, Except.bind, pure,
      Except.pure]
  | cons first rest =>
    have hstate : e.state ≠ .invalid := by
      rw [Ne, h.invalid_iff, hsharers]
      simp
    by_cases hc : c ∈ e.sharers
    · cases hs : e.state <;>
        simp_all [isSharer, addSharer, afterReadMiss, bind, Except.bind, pure, Except.pure]
    · cases hs : e.state <;>
        simp_all [isSharer, addSharer, afterReadMiss, getFirstSharer, bind, Except.bind, pure,
          Except.pure]

theorem handleWriteMiss_eq (h : e.Consistent) (c : C) :
    e.handleWriteMiss c =
      .ok (⟨.modified, [c]⟩, (e.afterReadMiss c).2 :: (e.afterReadMiss c).1.evictOthers c) := by
  have hstate : (e.afterReadMiss c).1.state ≠ .invalid := by
    rw [afterReadMiss]
    split
    · simp
    · split <;> simp
  have hadd : (e.afterReadMiss c).1.clearAllSharers.addSharer c =
      .ok ⟨(e.afterReadMiss c).1.state, [c]⟩ := addSharer_cleared hstate
  simp [handleWriteMiss, handleReadMiss_eq h, hadd, bind, Except.bind, pure, Except.pure]

/-- The entry once a sharer has left it, and the notice to the last one. -/
def afterEviction (e : DirectoryEntry C) (c : C) : DirectoryEntry C × List (Reply C) :=
  match e.sharers.erase c with
  | [] => (⟨.invalid, []⟩, [])
  | [owner] => (⟨.exclusive, [owner]⟩, [.directorySharedToExclusive owner])
  | rest => (⟨e.state, rest⟩, [])

theorem handleEvictedFromCoherentCache_eq (c : C) :
    e.handleEvictedFromCoherentCache c =
      if c ∈ e.sharers then
        .ok ((e.afterEviction c).1, (e.afterEviction c).2 ++ [.ackEvictCacheLine c])
      else .ok (e, [.ackEvictCacheLine c]) := by
  rw [handleEvictedFromCoherentCache]
  by_cases hc : c ∈ e.sharers
  · rw [if_pos hc, afterEviction]
    match herase : e.sharers.erase c with
    | [] =>
      simp [isSharer, hc, removeSharer, herase, bind, Except.bind, pure, Except.pure]
    | [owner] =>
      simp [isSharer, hc, removeSharer, herase, getOwner, bind, Except.bind, pure, Except.pure]
    | first :: second :: rest =>
      simp [isSharer, hc, removeSharer, herase, bind, Except.bind, pure, Except.pure]
  · simp [isSharer, hc, bind, Except.bind, pure, Except.pure]

theorem consistent_afterReadMiss (h : e.Consistent) (c : C) : (e.afterReadMiss c).1.Consistent := by
  rw [afterReadMiss]
  split
  · exact consistent_owner (by decide)
  · rename_i first rest hsharers
    split
    · exact consistent_shared (by simp [hsharers]) h.nodup
    · rename_i hc
      refine consistent_shared (by simp) (List.nodup_append.mpr ⟨h.nodup, by simp, ?_⟩)
      intro a ha b hb heq
      rw [List.mem_singleton] at hb
      exact hc (hb ▸ heq ▸ ha)

theorem consistent_afterEviction (h : e.Consistent) (hc : c ∈ e.sharers) :
    (e.afterEviction c).1.Consistent := by
  rw [afterEviction]
  have hnodup := h.nodup.erase c
  split
  · exact consistent_empty
  · exact consistent_owner (by decide)
  · rename_i rest hnil hone
    have hlen := List.length_erase_of_mem hc
    -- at least three sharers, so the entry was shared
    have hshared : e.state = .shared := by
      have hlong : 2 ≤ (e.sharers.erase c).length := by
        match hrest : e.sharers.erase c with
        | [] => exact absurd hrest hnil
        | [owner] => exact absurd hrest (hone owner)
        | _ :: _ :: _ => simp
      cases hstate : e.state with
      | shared => rfl
      | invalid =>
        rw [h.invalid_iff.mp hstate] at hc
        cases hc
      | exclusive =>
        obtain ⟨owner, howner⟩ := h.owned (Or.inl hstate)
        have hone : e.sharers.length = 1 := by rw [howner]; rfl
        omega
      | modified =>
        obtain ⟨owner, howner⟩ := h.owned (Or.inr hstate)
        have hone : e.sharers.length = 1 := by rw [howner]; rfl
        omega
    rw [hshared]
    exact consistent_shared (fun hnil' => hnil hnil') hnodup

/-- No handler fails on a consistent entry, and each leaves one. -/
theorem handle_consistent (h : e.Consistent) (req : DirectoryRequest C) :
    ∃ e' replies, e.handle req = .ok (e', replies) ∧ e'.Consistent := by
  cases req with
  | directoryReadMiss c => exact ⟨_, _, handleReadMiss_eq h c, consistent_afterReadMiss h c⟩
  | directoryWriteMiss c => exact ⟨_, _, handleWriteMiss_eq h c, consistent_owner (by decide)⟩
  | directoryWriteHit c => exact ⟨_, _, handleWriteHit_eq h c, consistent_owner (by decide)⟩
  | directoryEvictedFromCoherentCache c =>
    rw [handle, handleEvictedFromCoherentCache_eq]
    split
    · rename_i hc
      exact ⟨_, _, rfl, consistent_afterEviction h hc⟩
    · exact ⟨_, _, rfl, h⟩
  | directoryEvictedFromSharedCache =>
    rw [handle]
    split
    · exact ⟨_, _, rfl, h⟩
    · exact ⟨_, _, rfl, consistent_empty⟩

end DirectoryEntry

namespace Directory

variable {C : Type} {d d' : Directory C} {g : Geometry} {addr a : Address} {i : ℕ}

/-- Every line has a list of its own, and every entry is consistent. -/
structure Ordered (d : Directory C) (g : Geometry) : Prop where
  tagged : d.lines.Tagged g
  own : ∀ i, (d.lines.lines i).sharers = i
  consistent : ∀ i, (d.entry i).Consistent

theorem ordered_new (g : Geometry) : (new : Directory C).Ordered g where
  tagged := LineArray.tagged_new _
  own _ := rfl
  consistent _ := DirectoryEntry.consistent_empty

theorem entryAt_congr (h : g.SameLine a addr) : d.entryAt g a = d.entryAt g addr := by
  rw [entryAt, entryAt, LineArray.access_congr h]

theorem Ordered.consistent_entryAt (h : d.Ordered g) (addr : Address) :
    (d.entryAt g addr).Consistent := by
  rw [entryAt]
  split
  · exact h.consistent _
  · exact DirectoryEntry.consistent_empty

/-- An invalid entry is the same as none. -/
theorem Ordered.entryAt_of_invalid (h : d.Ordered g)
    (hstate : d.lines.stateAt g addr = .invalid) : d.entryAt g addr = ⟨.invalid, []⟩ := by
  have hinvalid : (d.entryAt g addr).state = .invalid := by
    rw [entryAt]
    rw [LineArray.stateAt] at hstate
    split at hstate <;> simp_all [entry]
  have hnil := (h.consistent_entryAt addr).invalid_iff.mp hinvalid
  cases he : d.entryAt g addr with
  | mk state sharers =>
    rw [he] at hinvalid hnil
    simp only at hinvalid hnil
    rw [hinvalid, hnil]

/-! ### Writing an entry back -/

theorem lines_setEntry {e : DirectoryEntry C} (hi : d.lines.access g addr = some i) :
    (d.setEntry i e).lines = d.lines.setState g addr e.state := by
  simp [setEntry, LineArray.setState, hi]

theorem entry_setEntry {e : DirectoryEntry C} (h : d.Ordered g) (j : ℕ) :
    (d.setEntry i e).entry j = if j = i then e else d.entry j := by
  by_cases hj : j = i
  · subst hj
    simp [setEntry, entry, LineArray.setLine]
  · have hown : (d.lines.lines j).sharers ≠ (d.lines.lines i).sharers := by
      rw [h.own, h.own]
      exact hj
    simp [setEntry, entry, LineArray.setLine, hj, hown]

theorem ordered_setEntry {e : DirectoryEntry C} (h : d.Ordered g)
    (hi : d.lines.access g addr = some i) (he : e.Consistent) : (d.setEntry i e).Ordered g where
  tagged := by
    rw [lines_setEntry hi]
    exact LineArray.tagged_setState h.tagged _
  own j := by
    by_cases hj : j = i
    · subst hj
      simp [setEntry, LineArray.setLine, h.own]
    · simp [setEntry, LineArray.setLine, hj, h.own]
  consistent j := by
    rw [entry_setEntry h]
    split
    · exact he
    · exact h.consistent j

theorem entryAt_setEntry {e : DirectoryEntry C} (h : d.Ordered g)
    (hi : d.lines.access g addr = some i) (a : Address) :
    (d.setEntry i e).entryAt g a = if g.SameLine a addr then e else d.entryAt g a := by
  rw [entryAt, lines_setEntry hi, LineArray.setState_access]
  by_cases hsame : g.SameLine a addr
  · simp only [LineArray.access_congr hsame, hi, if_pos hsame, entry_setEntry h, if_true]
  · rw [if_neg hsame, entryAt]
    cases ha : d.lines.access g a with
    | none => rfl
    | some m =>
      have hmi : m ≠ i := by
        rintro rfl
        obtain ⟨hway, htag⟩ := LineArray.access_eq_some ha
        obtain ⟨hway', htag'⟩ := LineArray.access_eq_some hi
        exact hsame (Geometry.sameLine_of_mem_ways hway hway' (htag.symm.trans htag'))
      simp only [entry_setEntry h, hmi, if_false]

/-! ### The creation of an entry -/

/-- What a request for one line does to the entries of the others: nothing, or one of
them is invalidated at its sharers. -/
def Replaced (d d' : Directory C) (g : Geometry) (addr : Address)
    (sent : List (Address × Reply C)) : Prop :=
  (sent = [] ∧ ∀ a, ¬ g.SameLine a addr → d'.entryAt g a = d.entryAt g a) ∨
  ∃ victim, ¬ g.SameLine victim addr ∧
    sent = (d.entryAt g victim).sharers.map (fun c => (victim, .evictCacheLine c)) ∧
    ∀ a, ¬ g.SameLine a addr → d'.entryAt g a =
      if g.SameLine a victim then ⟨.invalid, []⟩ else d.entryAt g a

/-- Placing a new entry in line `i`, whose list is empty afterwards. -/
theorem ordered_place (lists : ℕ → List C) (h : d.Ordered g) (hi : i ∈ g.ways addr)
    (hnone : d.lines.access g addr = none) (hlist : lists i = [])
    (hothers : ∀ j, j ≠ i → lists j = d.lists j) :
    Ordered ⟨d.lines.place g i addr .invalid, lists⟩ g ∧
      ∀ a, ¬ g.SameLine a addr →
        entryAt ⟨d.lines.place g i addr .invalid, lists⟩ g a =
          if d.lines.access g a = some i then ⟨.invalid, []⟩ else d.entryAt g a := by
  have hentry : ∀ j, entry ⟨d.lines.place g i addr .invalid, lists⟩ j =
      if j = i then ⟨.invalid, []⟩ else d.entry j := by
    intro j
    by_cases hj : j = i
    · subst hj
      simp [entry, LineArray.place, LineArray.setLine, h.own, hlist]
    · simp [entry, LineArray.place, LineArray.setLine, hj, h.own, hothers j hj]
  have hordered : Ordered ⟨d.lines.place g i addr .invalid, lists⟩ g := by
    refine ⟨LineArray.tagged_place .invalid hi (Or.inr hnone) h.tagged, fun j => ?_, fun j => ?_⟩
    · by_cases hj : j = i
      · subst hj
        simp [LineArray.place, LineArray.setLine, h.own]
      · simp [LineArray.place, LineArray.setLine, hj, h.own]
    · rw [hentry]
      split
      · exact DirectoryEntry.consistent_empty
      · exact h.consistent j
  refine ⟨hordered, fun a ha => ?_⟩
  rcases LineArray.access_place .invalid hi ha with heq | ⟨hold, hne⟩
  · have hmi : d.lines.access g a ≠ some i := by
      intro hacc
      obtain ⟨hway, htag⟩ := LineArray.access_eq_some (heq.trans hacc)
      simp only [LineArray.place, LineArray.setLine, Function.update_self] at htag
      exact ha (Geometry.sameLine_of_mem_ways hway hi htag.symm)
    rw [if_neg hmi, entryAt, entryAt]
    simp only [heq]
    cases hm : d.lines.access g a with
    | none => rfl
    | some m =>
      have hne : m ≠ i := fun h => hmi (h ▸ hm)
      simp only [hentry, hne, if_false]
  · rw [if_pos hold]
    apply hordered.entryAt_of_invalid
    have hstate := LineArray.stateAt_place .invalid hi h.tagged ha
    rwa [if_pos hold] at hstate

theorem createEntry_spec (h : d.Ordered g) (hnone : d.lines.access g addr = none) :
    ∃ d' sent, d.createEntry g addr = .ok (d', sent) ∧ d'.Ordered g ∧
      (d'.lines.access g addr).isSome ∧ d'.entryAt g addr = ⟨.invalid, []⟩ ∧
      Replaced d d' g addr sent := by
  have hsome : (d.lines.fillLine g (fun _ => false) addr).isSome :=
    LineArray.fillLine_isSome _ (fun _ _ => rfl)
  obtain ⟨⟨i, evicted⟩, hfill⟩ := Option.isSome_iff_exists.mp hsome
  obtain ⟨hi, hcases⟩ := LineArray.fillLine_eq_some hfill
  have hplaced : (d.lines.place g i addr .invalid).access g addr = some i :=
    LineArray.access_place_self .invalid hi (Or.inr hnone)
  -- in both cases the list of line `i` is empty afterwards and its state is invalid
  have hentry : ∀ lists : ℕ → List C, lists i = [] →
      entryAt ⟨d.lines.place g i addr .invalid, lists⟩ g addr = ⟨.invalid, []⟩ := by
    intro lists hlist
    simp only [entryAt, hplaced]
    simp [entry, LineArray.place, LineArray.setLine, h.own, hlist]
  rcases hcases with ⟨rfl, hcase⟩ | ⟨rfl, -, hvalid, -⟩
  · have hinvalid : (d.lines.lines i).state = .invalid := by
      rcases hcase with hacc | ⟨-, hinvalid⟩
      · rw [hnone] at hacc
        cases hacc
      · exact hinvalid
    have hlist : d.lists i = [] := by
      have hnil := (h.consistent i).invalid_iff.mp hinvalid
      simpa [entry, h.own] using hnil
    obtain ⟨hordered, hothers⟩ := ordered_place d.lists h hi hnone hlist (fun _ _ => rfl)
    refine ⟨⟨d.lines.place g i addr .invalid, d.lists⟩, [], ?_, hordered, by simp [hplaced],
      hentry _ hlist, Or.inl ⟨rfl, fun a ha => ?_⟩⟩
    · simp [createEntry, LineArray.fill, hfill]
    · rw [hothers a ha]
      split
      · rename_i hacc
        exact (h.entryAt_of_invalid (by simp [LineArray.stateAt, hacc, hinvalid])).symm
      · rfl
  · have hhome := h.tagged.access_home hvalid
    obtain ⟨hordered, hothers⟩ := ordered_place (Function.update d.lists i []) h hi hnone
      (Function.update_self _ _ _) (fun j hj => Function.update_of_ne hj _ _)
    refine ⟨⟨d.lines.place g i addr .invalid, Function.update d.lists i []⟩, _, ?_, hordered,
      by simp [hplaced], hentry _ (Function.update_self _ _ _),
      Or.inr ⟨(d.lines.lines i).address, fun hsame => ?_, rfl, fun a ha => ?_⟩⟩
    · simp [createEntry, LineArray.fill, hfill, CacheLine.isValid, hvalid, h.own, entryAt, hhome,
        entry]
    · rw [LineArray.access_congr hsame, hnone] at hhome
      cases hhome
    · rw [hothers a ha]
      by_cases hsame : g.SameLine a (d.lines.lines i).address
      · rw [if_pos ((LineArray.access_congr hsame).trans hhome), if_pos hsame]
      · have hne : d.lines.access g a ≠ some i := by
          intro hacc
          obtain ⟨hway, htag⟩ := LineArray.access_eq_some hacc
          obtain ⟨hway', htag'⟩ := LineArray.access_eq_some hhome
          exact hsame (Geometry.sameLine_of_mem_ways hway hway' (htag.symm.trans htag'))
        rw [if_neg hne, if_neg hsame]

variable [DecidableEq C]

/-- What a request does to the entry of its line and to the others. -/
theorem handleEvent_spec (h : d.Ordered g) (req : DirectoryRequest C) (addr : Address) :
    ∃ d' sent replies addr', d.handleEvent g req addr =
        .ok (d', sent ++ replies.map (fun r => (addr', r))) ∧
      d'.Ordered g ∧ g.SameLine addr' addr ∧
      (d.entryAt g addr).handle req = .ok (d'.entryAt g addr, replies) ∧
      Replaced d d' g addr sent := by
  -- the request meets an entry, or is a shared eviction of a line without one
  have hwith : ∀ d₀ sent i, d.Replaced d₀ g addr sent → d₀.Ordered g →
      d₀.lines.access g addr = some i → d₀.entryAt g addr = d.entryAt g addr →
      ∃ d' replies, (d₀.entry i).handle req = .ok (d'.entryAt g addr, replies) ∧
        d' = d₀.setEntry i (d'.entryAt g addr) ∧ d'.Ordered g ∧
        g.SameLine (d₀.replyAddress i addr req) addr ∧
        (d.entryAt g addr).handle req = .ok (d'.entryAt g addr, replies) ∧
        Replaced d d' g addr sent := by
    intro d₀ sent i hreplaced h₀ hi hentry
    have heq : d₀.entry i = d.entryAt g addr := by rw [← hentry, entryAt, hi]
    obtain ⟨e, replies, hhandle, he⟩ :=
      DirectoryEntry.handle_consistent (h₀.consistent i) req
    have hset := entryAt_setEntry (e := e) h₀ hi
    have hself : (d₀.setEntry i e).entryAt g addr = e := by
      rw [hset, if_pos (g.sameLine_refl addr)]
    refine ⟨d₀.setEntry i e, replies, by rw [hself, hhandle], by rw [hself],
      ordered_setEntry h₀ hi he, ?_, by rw [hself, ← heq, hhandle], ?_⟩
    · cases req with
      | directoryEvictedFromSharedCache =>
        obtain ⟨hway, htag⟩ := LineArray.access_eq_some hi
        exact h₀.tagged.stored addr i hway htag
      | _ => exact rfl
    · rcases hreplaced with ⟨hsent, hkept⟩ | ⟨victim, hne, hsent, hkept⟩
      · refine Or.inl ⟨hsent, fun a ha => ?_⟩
        rw [hset, if_neg ha, hkept a ha]
      · refine Or.inr ⟨victim, hne, hsent, fun a ha => ?_⟩
        rw [hset, if_neg ha, hkept a ha]
  rw [handleEvent]
  cases hacc : d.lines.access g addr with
  | some i =>
    obtain ⟨d', replies, hhandle, hset, hordered, hsame, hentry, hreplaced⟩ :=
      hwith d [] i (Or.inl ⟨rfl, fun _ _ => rfl⟩) h hacc rfl
    refine ⟨d', [], replies, _, ?_, hordered, hsame, hentry, hreplaced⟩
    simp [hacc, hhandle, bind, Except.bind, pure, Except.pure, ← hset]
  | none =>
    by_cases hreq : req = .directoryEvictedFromSharedCache
    · refine ⟨d, [], [], addr, ?_, h, rfl, ?_, Or.inl ⟨rfl, fun _ _ => rfl⟩⟩
      · simp [hreq, hacc, bind, Except.bind, pure, Except.pure]
      · simp [hreq, entryAt, hacc, DirectoryEntry.handle]
    · obtain ⟨d₀, sent, hcreate, h₀, hsome, hempty, hreplaced⟩ := createEntry_spec h hacc
      obtain ⟨i, hi⟩ := Option.isSome_iff_exists.mp hsome
      obtain ⟨d', replies, hhandle, hset, hordered, hsame, hentry, hreplaced'⟩ :=
        hwith d₀ sent i hreplaced h₀ hi (by rw [hempty, entryAt, hacc])
      refine ⟨d', sent, replies, _, ?_, hordered, hsame, hentry, hreplaced'⟩
      simp [hreq, hcreate, hi, hhandle, bind, Except.bind, pure, Except.pure, ← hset]

/-- Every sequence of requests leaves every entry consistent, and no failure is reached. -/
theorem handleEvents_consistent (g : Geometry) (reqs : List (DirectoryRequest C × Address)) :
    ∃ d, handleEvents g new reqs = .ok d ∧ ∀ i, (d.entry i).Consistent := by
  have hrun : ∀ d : Directory C, d.Ordered g →
      ∃ d', handleEvents g d reqs = .ok d' ∧ d'.Ordered g := by
    induction reqs with
    | nil => exact fun d h => ⟨d, rfl, h⟩
    | cons r rest ih =>
      intro d h
      obtain ⟨req, addr⟩ := r
      obtain ⟨d', sent, replies, addr', heq, h', -⟩ := handleEvent_spec h req addr
      obtain ⟨d'', hrest, h''⟩ := ih d' h'
      exact ⟨d'', by simp [handleEvents, heq, hrest, bind, Except.bind], h''⟩
  obtain ⟨d, hd, hordered⟩ := hrun new (ordered_new g)
  exact ⟨d, hd, hordered.consistent⟩

end Directory

end Tejas
