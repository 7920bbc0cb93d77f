import Tejas.CacheLines
import Tejas.JavaHashtable
import Tejas.LabelledRuns
import Mathlib.Data.List.Perm.Basic

/-!
# The translation lookaside buffer

`TLB.java` is a hash table of pages. A lookup that misses sends for the page, and the
responses come back in any order, a page as often as it has been missed. A response at a
full table takes away the entry that `elements()` gives first among those with the
least time, and the clock moves at lookups only. `uses` lists the pages that were hit or
inserted, the last one first; the buffer never reads it.
-/

namespace Tejas
open LabelledRuns JavaHashtable

structure TLBEntry where
  phyAddr : Address
  timestamp : ℕ
  deriving DecidableEq

structure TLB where
  TLBuffer : Hashtable Address TLBEntry
  TLBSize : ℕ
  timestamp : ℕ
  responses : List Address
  uses : List Address

namespace TLB

variable {s t : TLB} {a : Address} {e e' : Address × TLBEntry} {p q : Address} {n i : ℕ}
  {order : List TLBEntry}

def new (tlbSize : ℕ) : TLB := ⟨.empty, tlbSize, 0, [], []⟩

def PAGE_OFFSET_BITS : ℕ := 12

def getPageID (virtualAddr : Address) : Address := virtualAddr >>> PAGE_OFFSET_BITS

/-- The loop of `searchOldestTimestamp` over the entries in the order of `elements()`;
`none` is `Double.MAX_VALUE`. -/
def searchOldestTimestamp : List TLBEntry → Address → Option ℕ → Address
  | [], oldestAddr, _ => getPageID oldestAddr
  | entry :: rest, oldestAddr, minTimestamp =>
    if minTimestamp.all (fun m => entry.timestamp < m) then
      searchOldestTimestamp rest entry.phyAddr (some entry.timestamp)
    else searchOldestTimestamp rest oldestAddr minTimestamp

def isFull (s : TLB) : Bool := ¬ s.TLBuffer.entries.length < s.TLBSize

def addTLBEntry (s : TLB) (order : List TLBEntry) (pageID : Address) : TLB :=
  let entry : TLBEntry := ⟨pageID <<< PAGE_OFFSET_BITS, s.timestamp⟩
  let kept := if s.isFull then s.TLBuffer.remove (searchOldestTimestamp order 0 none)
    else s.TLBuffer
  { s with TLBuffer := kept.put pageID entry, uses := pageID :: s.uses }

inductive Action where
  | searchTLBForPhyAddr (virtualAddr : Address)
  /-- A response in flight arrives; `order` is the order of `elements()`. -/
  | handleEvent (i : ℕ) (order : List TLBEntry)

def next (s : TLB) : Action → Option TLB
  | .searchTLBForPhyAddr virtualAddr =>
    let pageID := getPageID virtualAddr
    match s.TLBuffer.get pageID with
    | none =>
      some { s with timestamp := s.timestamp + 1, responses := s.responses ++ [pageID] }
    | some entry =>
      some { s with
        timestamp := s.timestamp + 1
        TLBuffer := s.TLBuffer.put pageID { entry with timestamp := s.timestamp + 1 }
        uses := pageID :: s.uses }
  | .handleEvent i order =>
    match s.responses[i]? with
    | none => none
    | some pageID =>
      if order.Perm (s.TLBuffer.entries.map Prod.snd) then
        some ({ s with responses := s.responses.eraseIdx i }.addTLBEntry order pageID)
      else none

def Resident (s : TLB) (p : Address) : Prop := ∃ e ∈ s.TLBuffer.entries, e.1 = p

/-- No other resident page has gone unused for longer. -/
def LeastRecent (s : TLB) (p : Address) : Prop :=
  ∀ p', s.Resident p' → p' ≠ p → s.uses.idxOf p' < s.uses.idxOf p

/-! ### The search for the oldest entry -/

/-- The least time of the entries. -/
def Oldest (s : TLB) (e : Address × TLBEntry) : Prop :=
  e ∈ s.TLBuffer.entries ∧ ∀ e' ∈ s.TLBuffer.entries, e.2.timestamp ≤ e'.2.timestamp

theorem searchOldest_stays {m : ℕ} (h : ∀ entry ∈ order, m ≤ entry.timestamp) :
    searchOldestTimestamp order a (some m) = getPageID a := by
  induction order with
  | nil => rfl
  | cons entry rest ih =>
    have hle := h entry List.mem_cons_self
    have hnot : ¬ (some m).all (fun m => entry.timestamp < m) = true := by
      simpa using hle
    rw [searchOldestTimestamp, if_neg hnot]
    exact ih (fun e he => h e (List.mem_cons_of_mem _ he))

/-- The search ends at the entry it starts from, or at a younger one of the list. -/
theorem searchOldest_some (order : List TLBEntry) (start : TLBEntry) :
    ∃ entry ∈ start :: order,
      searchOldestTimestamp order start.phyAddr (some start.timestamp) =
        getPageID entry.phyAddr ∧
      ∀ other ∈ start :: order, entry.timestamp ≤ other.timestamp := by
  induction order generalizing start with
  | nil => exact ⟨start, List.mem_cons_self, rfl, by simp⟩
  | cons first rest ih =>
    rw [searchOldestTimestamp]
    split
    · rename_i hyounger
      have hlt : first.timestamp < start.timestamp := by simpa using hyounger
      obtain ⟨entry, hmem, hfound, hleast⟩ := ih first
      refine ⟨entry, List.mem_cons_of_mem _ hmem, hfound, ?_⟩
      intro other hother
      rcases List.mem_cons.mp hother with rfl | hother
      · exact (hleast first List.mem_cons_self).trans hlt.le
      · exact hleast other hother
    · rename_i holder
      have hle : start.timestamp ≤ first.timestamp := by simpa using holder
      obtain ⟨entry, hmem, hfound, hleast⟩ := ih start
      refine ⟨entry, ?_, hfound, ?_⟩
      · rcases List.mem_cons.mp hmem with rfl | hmem
        · exact List.mem_cons_self
        · exact List.mem_cons_of_mem _ (List.mem_cons_of_mem _ hmem)
      · intro other hother
        rcases List.mem_cons.mp hother with rfl | hother
        · exact hleast other List.mem_cons_self
        · rcases List.mem_cons.mp hother with rfl | hother
          · exact (hleast start List.mem_cons_self).trans hle
          · exact hleast other (List.mem_cons_of_mem _ hother)

/-! ### What every action keeps -/

/-- Each page has one entry, of its own address. The times never run ahead of the clock,
and order the entries as the uses do. -/
structure Tidy (n : ℕ) (s : TLB) : Prop where
  size : s.TLBSize = n
  room : s.TLBuffer.entries.length ≤ n
  keys : (s.TLBuffer.entries.map Prod.fst).Nodup
  page : ∀ e ∈ s.TLBuffer.entries, e.1 = getPageID e.2.phyAddr
  clock : ∀ e ∈ s.TLBuffer.entries, e.2.timestamp ≤ s.timestamp
  used : ∀ e ∈ s.TLBuffer.entries, e.1 ∈ s.uses
  recency : ∀ e ∈ s.TLBuffer.entries, ∀ e' ∈ s.TLBuffer.entries,
    e.2.timestamp < e'.2.timestamp → s.uses.idxOf e'.1 < s.uses.idxOf e.1
  inFlight : ∀ p ∈ s.responses, getPageID (p <<< PAGE_OFFSET_BITS) = p

theorem tidy_new (n : ℕ) : Tidy n (new n) where
  size := rfl
  room := Nat.zero_le n
  keys := List.nodup_nil
  page _ he := absurd he List.not_mem_nil
  clock _ he := absurd he List.not_mem_nil
  used _ he := absurd he List.not_mem_nil
  recency _ he := absurd he List.not_mem_nil
  inFlight _ hp := absurd hp List.not_mem_nil

/-- A page is the page of its own address. -/
theorem getPageID_shift (virtualAddr : Address) :
    getPageID (getPageID virtualAddr <<< PAGE_OFFSET_BITS) = getPageID virtualAddr := by
  unfold getPageID PAGE_OFFSET_BITS
  apply BitVec.eq_of_getLsbD_eq
  intro i hi
  simp only [BitVec.getLsbD_ushiftRight, BitVec.getLsbD_shiftLeft]
  by_cases hsmall : 12 + i < 64
  · simp [hsmall]
  · rw [BitVec.getLsbD_of_ge virtualAddr (12 + i) (Nat.le_of_not_lt hsmall)]
    simp [hsmall]

/-- The entry of a page among those of a tidy table. -/
theorem Tidy.eq_of_key (h : Tidy n s) (he : e ∈ s.TLBuffer.entries)
    (he' : e' ∈ s.TLBuffer.entries) (hkey : e.1 = e'.1) : e = e' :=
  List.inj_on_of_nodup_map h.keys he he' hkey

/-- A use of a page: its entry is the newest one, and others may have been removed. -/
theorem Tidy.use (h : Tidy n s) {kept : Hashtable Address TLBEntry} {entry : TLBEntry}
    {time : ℕ} (hkept : kept.entries.Sublist s.TLBuffer.entries)
    (hroom : (kept.put p entry).entries.length ≤ n) (htime : s.timestamp ≤ time)
    (hentry : entry.timestamp = time) (hpage : p = getPageID entry.phyAddr) :
    Tidy n { s with
      TLBuffer := kept.put p entry
      timestamp := time
      uses := p :: s.uses } := by
  have hmem : ∀ {e}, e ∈ (kept.put p entry).entries →
      e = (p, entry) ∨ e ∈ s.TLBuffer.entries ∧ e.1 ≠ p := by
    intro e he
    rcases Hashtable.mem_entries_put.mp he with rfl | ⟨hold, hne⟩
    · exact .inl rfl
    · exact .inr ⟨hkept.subset hold, hne⟩
  refine ⟨h.size, hroom, ?_, ?_, ?_, ?_, ?_, h.inFlight⟩
  · exact Hashtable.nodup_keys_put (List.Nodup.sublist (hkept.map _) h.keys) p entry
  · intro e he
    rcases hmem he with rfl | ⟨hold, -⟩
    · exact hpage
    · exact h.page e hold
  · intro e he
    rcases hmem he with rfl | ⟨hold, -⟩
    · exact hentry.le
    · exact (h.clock e hold).trans htime
  · intro e he
    rcases hmem he with rfl | ⟨hold, -⟩
    · exact List.mem_cons_self
    · exact List.mem_cons_of_mem _ (h.used e hold)
  · intro e he e' he' hlt
    dsimp only
    rcases hmem he with rfl | ⟨hold, hne⟩
    · -- no entry is newer than the new one
      exfalso
      rcases hmem he' with rfl | ⟨hold', -⟩
      · exact Nat.lt_irrefl _ hlt
      · have hle := h.clock e' hold'
        dsimp only at hlt
        omega
    · rw [List.idxOf_cons_ne _ hne.symm]
      rcases hmem he' with rfl | ⟨hold', hne'⟩
      · rw [List.idxOf_cons_self]
        exact Nat.succ_pos _
      · rw [List.idxOf_cons_ne _ hne'.symm]
        exact Nat.succ_lt_succ (h.recency e hold e' hold' hlt)

theorem Tidy.mem_elements (h : order.Perm (s.TLBuffer.entries.map Prod.snd)) {entry : TLBEntry} :
    entry ∈ order ↔ ∃ e ∈ s.TLBuffer.entries, e.2 = entry := by
  rw [h.mem_iff, List.mem_map]

/-- A full table gives up one of its oldest entries. -/
theorem Tidy.victim_oldest (h : Tidy n s) (hn : 0 < n) (hfull : s.isFull = true)
    (horder : order.Perm (s.TLBuffer.entries.map Prod.snd)) :
    ∃ e, s.Oldest e ∧ searchOldestTimestamp order 0 none = e.1 := by
  have hlength := horder.length_eq
  rw [List.length_map] at hlength
  rw [isFull, decide_eq_true_eq, h.size] at hfull
  cases order with
  | nil =>
    rw [List.length_nil] at hlength
    omega
  | cons start rest =>
    obtain ⟨entry, hmem, hfound, hleast⟩ := searchOldest_some rest start
    obtain ⟨e, he, rfl⟩ := (Tidy.mem_elements horder).mp hmem
    refine ⟨e, ⟨he, ?_⟩, ?_⟩
    · intro e' he'
      exact hleast e'.2 ((Tidy.mem_elements horder).mpr ⟨e', he', rfl⟩)
    · rw [searchOldestTimestamp, Option.all_none, if_pos rfl, hfound, ← h.page e he]

/-- Each of the oldest entries comes first in some order. -/
theorem Tidy.exists_order (h : Tidy n s) (he : s.Oldest e) :
    ∃ order, order.Perm (s.TLBuffer.entries.map Prod.snd) ∧
      searchOldestTimestamp order 0 none = e.1 := by
  refine ⟨e.2 :: (s.TLBuffer.entries.erase e).map Prod.snd, ?_, ?_⟩
  · exact ((List.perm_cons_erase he.1).map Prod.snd).symm
  · rw [searchOldestTimestamp, Option.all_none, if_pos rfl, searchOldest_stays, ← h.page e he.1]
    intro entry hmem
    obtain ⟨e', he', rfl⟩ := List.mem_map.mp hmem
    exact he.2 e' (List.mem_of_mem_erase he')

theorem length_remove_lt {b : Hashtable Address TLBEntry} (he : e ∈ b.entries) :
    (b.remove e.1).entries.length < b.entries.length := by
  rw [Hashtable.remove, List.length_filter_lt_length_iff_exists]
  exact ⟨e, he, by simp⟩

theorem length_put {b : Hashtable Address TLBEntry} {entry : TLBEntry} :
    (b.put p entry).entries.length ≤ b.entries.length + 1 := by
  rw [Hashtable.put, List.length_cons]
  exact Nat.succ_le_succ (List.length_filter_le _ _)

theorem Tidy.take (h : Tidy n s) (i : ℕ) : Tidy n { s with responses := s.responses.eraseIdx i } :=
  { h with inFlight := fun p hp => h.inFlight p (List.mem_of_mem_eraseIdx hp) }

theorem Tidy.addTLBEntry (h : Tidy n s) (hn : 0 < n)
    (horder : order.Perm (s.TLBuffer.entries.map Prod.snd))
    (hq : getPageID (q <<< PAGE_OFFSET_BITS) = q) : Tidy n (s.addTLBEntry order q) := by
  have hkept : (if s.isFull then s.TLBuffer.remove (searchOldestTimestamp order 0 none)
      else s.TLBuffer).entries.Sublist s.TLBuffer.entries := by
    split
    · exact List.filter_sublist
    · exact List.Sublist.refl _
  refine h.use hkept ?_ (Nat.le_refl _) rfl hq.symm
  refine length_put.trans ?_
  split
  · rename_i hfull
    obtain ⟨e, holdest, hvictim⟩ := h.victim_oldest hn hfull horder
    rw [hvictim]
    have hlt := length_remove_lt holdest.1
    have hroom := h.room
    omega
  · rename_i hfree
    rw [isFull, decide_eq_true_eq, not_not, h.size] at hfree
    omega

theorem Tidy.step (h : Tidy n s) (hn : 0 < n) {label : Action} (hstep : s.next label = some t) :
    Tidy n t := by
  cases label with
  | searchTLBForPhyAddr virtualAddr =>
    rw [next] at hstep
    split at hstep
    · cases hstep
      refine { h with
        clock := fun e he => (h.clock e he).trans (Nat.le_succ _)
        inFlight := ?_ }
      intro p hp
      rcases List.mem_append.mp hp with hp | hp
      · exact h.inFlight p hp
      · rw [List.mem_singleton.mp hp]
        exact getPageID_shift virtualAddr
    · rename_i entry hfound
      cases hstep
      have hmem := Hashtable.mem_of_get_eq_some hfound
      refine h.use (List.Sublist.refl _) ?_ (Nat.le_succ _) rfl (h.page _ hmem)
      have hlt := length_remove_lt hmem
      have hroom := h.room
      rw [Hashtable.put, List.length_cons]
      dsimp only at hlt
      omega
  | handleEvent i order =>
    rw [next] at hstep
    split at hstep
    · cases hstep
    · rename_i q hfound
      split at hstep
      · rename_i horder
        cases hstep
        exact (h.take i).addTLBEntry hn horder (h.inFlight q (List.mem_of_getElem? hfound))
      · cases hstep

theorem tidy_run {labels : List Action} (hn : 0 < n)
    (run : Run (StepOf next) (new n) labels s) : Tidy n s :=
  run.invariant (tidy_new n) (fun _ _ _ h hstep => h.step hn hstep)

/-! ### Which pages are evicted -/

theorem resident_addTLBEntry : (s.addTLBEntry order q).Resident p ↔
    p = q ∨ s.Resident p ∧ ¬ (s.isFull = true ∧ p = searchOldestTimestamp order 0 none) := by
  unfold Resident addTLBEntry
  dsimp only
  constructor
  · rintro ⟨e, he, rfl⟩
    rcases Hashtable.mem_entries_put.mp he with rfl | ⟨hkept, -⟩
    · exact .inl rfl
    · right
      split at hkept
      · obtain ⟨hold, hne⟩ := Hashtable.mem_entries_remove.mp hkept
        exact ⟨⟨e, hold, rfl⟩, fun hvictim => hne hvictim.2⟩
      · rename_i hfree
        exact ⟨⟨e, hkept, rfl⟩, fun hvictim => hfree hvictim.1⟩
  · rintro (rfl | ⟨⟨e, he, rfl⟩, hvictim⟩)
    · exact ⟨_, Hashtable.mem_entries_put.mpr (.inl rfl), rfl⟩
    · by_cases heq : e.1 = q
      · exact ⟨_, Hashtable.mem_entries_put.mpr (.inl rfl), heq.symm⟩
      · refine ⟨e, Hashtable.mem_entries_put.mpr (.inr ⟨?_, heq⟩), rfl⟩
        split
        · rename_i hfull
          exact Hashtable.mem_entries_remove.mpr ⟨he, fun hkey => hvictim ⟨hfull, hkey⟩⟩
        · exact he

/-- The action brings in a page that is not resident. -/
def Inserts (s : TLB) : Action → Prop
  | .searchTLBForPhyAddr _ => False
  | .handleEvent i _ => ∃ q ∈ s.responses[i]?, ¬ s.Resident q

/-- A page leaves only for a page that is not resident, and only the least recent one. -/
def EvictsLeastRecent (s : TLB) (label : Action) : Prop :=
  ∀ t, s.next label = some t → ∀ p, s.Resident p → ¬ t.Resident p →
    s.Inserts label ∧ s.LeastRecent p

/-- The action with another order of `elements()`. -/
def Action.reordered : Action → List TLBEntry → Action
  | .searchTLBForPhyAddr virtualAddr, _ => .searchTLBForPhyAddr virtualAddr
  | .handleEvent i _, order => .handleEvent i order

/-- A response that meets a full table finds one page that is older than all others, and
if its own page is resident it is that one. -/
def VictimClear (s : TLB) : Action → Prop
  | .searchTLBForPhyAddr _ => True
  | .handleEvent i _ => ∀ q ∈ s.responses[i]?, s.isFull = true →
    ∃ e ∈ s.TLBuffer.entries,
      (∀ e' ∈ s.TLBuffer.entries, e' ≠ e → e.2.timestamp < e'.2.timestamp) ∧
      (s.Resident q → e.1 = q)

theorem Tidy.leastRecent (h : Tidy n s) (he : e ∈ s.TLBuffer.entries)
    (hunique : ∀ e' ∈ s.TLBuffer.entries, e' ≠ e → e.2.timestamp < e'.2.timestamp) :
    s.LeastRecent e.1 := by
  rintro p' ⟨e', he', rfl⟩ hne
  exact h.recency e he e' he' (hunique e' he' (fun heq => hne (congrArg Prod.fst heq)))

theorem Tidy.evicts_of_clear (h : Tidy n s) (hn : 0 < n) {label : Action}
    (hclear : s.VictimClear label) : s.EvictsLeastRecent label := by
  intro t hstep p hbefore hafter
  cases label with
  | searchTLBForPhyAddr virtualAddr =>
    exfalso
    apply hafter
    obtain ⟨e, he, rfl⟩ := hbefore
    rw [next] at hstep
    split at hstep
    · cases hstep
      exact ⟨e, he, rfl⟩
    · cases hstep
      by_cases heq : e.1 = getPageID virtualAddr
      · exact ⟨_, Hashtable.mem_entries_put.mpr (.inl rfl), heq.symm⟩
      · exact ⟨e, Hashtable.mem_entries_put.mpr (.inr ⟨he, heq⟩), rfl⟩
  | handleEvent i order =>
    rw [next] at hstep
    split at hstep
    · cases hstep
    · rename_i q hfound
      split at hstep
      · rename_i horder
        cases hstep
        rw [resident_addTLBEntry, not_or, not_and, not_not] at hafter
        obtain ⟨hpq, hvictim⟩ := hafter
        obtain ⟨hfull, rfl⟩ := hvictim hbefore
        obtain ⟨e', holdest, hvictim⟩ := (h.take i).victim_oldest hn hfull horder
        obtain ⟨e, he, hunique, hresident⟩ := hclear q hfound hfull
        have heq : e' = e := by
          by_contra hne
          have hlt := hunique e' holdest.1 hne
          have hle := holdest.2 e he
          omega
        subst heq
        rw [hvictim] at hpq ⊢
        exact ⟨⟨q, hfound, fun hq => hpq (hresident hq)⟩, h.leastRecent he hunique⟩
      · cases hstep

/-- Where the victim is not clear, some order of `elements()` evicts a page it should
not. -/
theorem Tidy.clear_of_evicts (h : Tidy n s) (hn : 0 < n) {label : Action}
    (hevicts : ∀ order, s.EvictsLeastRecent (label.reordered order)) : s.VictimClear label := by
  cases label with
  | searchTLBForPhyAddr virtualAddr => trivial
  | handleEvent i order =>
    intro q hq hfull
    have hleaves : ∀ e, s.Oldest e → e.1 ≠ q → ¬ s.Resident q ∧ s.LeastRecent e.1 := by
      intro e holdest hne
      obtain ⟨chosen, hperm, hvictim⟩ := h.exists_order holdest
      have hnext : s.next (.handleEvent i chosen) =
          some ({ s with responses := s.responses.eraseIdx i }.addTLBEntry chosen q) := by
        rw [next, hq]
        exact if_pos hperm
      have hlost : ¬ ({ s with responses := s.responses.eraseIdx i }.addTLBEntry chosen
          q).Resident e.1 := by
        rw [resident_addTLBEntry]
        rintro (heq | ⟨-, hkept⟩)
        · exact hne heq
        · exact hkept ⟨hfull, hvictim.symm⟩
      obtain ⟨⟨q', hq', hnew⟩, hleast⟩ := hevicts chosen _ hnext e.1 ⟨e, holdest.1, rfl⟩ hlost
      rw [hq] at hq'
      cases hq'
      exact ⟨hnew, hleast⟩
    obtain ⟨e, holdest, -⟩ := h.victim_oldest hn hfull (List.Perm.refl _)
    have hsame : ∀ e', s.Oldest e' → e'.1 ≠ e.1 → False := by
      intro e' holdest' hne
      by_cases hresident : s.Resident q
      · -- one of the two is not the entry of the page itself
        by_cases heq : e.1 = q
        · exact (hleaves e' holdest' (heq ▸ hne)).1 hresident
        · exact (hleaves e holdest heq).1 hresident
      · have hother : ∀ x, s.Oldest x → x.1 ≠ q := fun x hx heq => hresident ⟨x, hx.1, heq⟩
        have hlt := (hleaves e holdest (hother e holdest)).2 e'.1 ⟨e', holdest'.1, rfl⟩ hne
        have hgt := (hleaves e' holdest' (hother e' holdest')).2 e.1 ⟨e, holdest.1, rfl⟩ hne.symm
        omega
    refine ⟨e, holdest.1, ?_, ?_⟩
    · intro e' he' hne
      by_contra hle
      refine hsame e' ⟨he', ?_⟩ (fun hkey => hne (h.eq_of_key he' holdest.1 hkey))
      intro x hx
      have hx' := holdest.2 x hx
      omega
    · intro hresident
      by_contra heq
      exact (hleaves e holdest heq).1 hresident

/-- The table never holds more than `TLBSize` entries, each under its own page. The runs in
which every victim is clear are the runs in which, whatever the order of `elements()`, only
the least recent page leaves, and only for a page that is not resident. -/
theorem evicts_least_recent_iff (n : ℕ) (hn : 1 ≤ n) :
    (∀ labels s, Run (StepOf next) (new n) labels s → s.TLBuffer.entries.length ≤ n ∧
      ∀ e ∈ s.TLBuffer.entries, e.1 = getPageID e.2.phyAddr) ∧
    ∀ labels s, Run (Guarded (StepOf next) VictimClear) (new n) labels s ↔
      Run (Guarded (StepOf next) fun s label => ∀ order,
        s.EvictsLeastRecent (label.reordered order)) (new n) labels s := by
  refine ⟨?_, ?_⟩
  · intro labels s run
    exact ⟨(tidy_run hn run).room, (tidy_run hn run).page⟩
  · intro labels s
    constructor
    · intro run
      refine run.guarded_mono (fun _ _ label prior hclear order => ?_)
      apply (tidy_run hn prior).evicts_of_clear hn
      cases label <;> exact hclear
    · intro run
      exact run.guarded_mono (fun _ _ _ prior hevicts =>
        (tidy_run hn prior).clear_of_evicts hn hevicts)

theorem evicts_least_recent_one :
    (∀ labels s, Run (StepOf next) (new 1) labels s → s.TLBuffer.entries.length ≤ 1 ∧
      ∀ e ∈ s.TLBuffer.entries, e.1 = getPageID e.2.phyAddr) ∧
    ∀ labels s, Run (Guarded (StepOf next) VictimClear) (new 1) labels s ↔
      Run (Guarded (StepOf next) fun s label => ∀ order,
        s.EvictsLeastRecent (label.reordered order)) (new 1) labels s :=
  evicts_least_recent_iff 1 (Nat.le_refl 1)

/-- The second response for a resident page takes another page away. -/
theorem resident_page_evicts :
    ¬ ∀ n labels s label, 1 ≤ n → Run (StepOf next) (new n) labels s →
      s.EvictsLeastRecent label := by
  intro hclaim
  -- the pages 1 and 2 are missed, page 1 twice; page 2 comes first
  have hrun : (exec next (new 2) [.searchTLBForPhyAddr 4096, .searchTLBForPhyAddr 4096,
      .searchTLBForPhyAddr 8192, .handleEvent 2 [], .searchTLBForPhyAddr 8192,
      .searchTLBForPhyAddr 12288, .handleEvent 0 [⟨8192, 4⟩]]).any (fun s =>
        s.responses[0]? = some 1 ∧ s.TLBuffer.entries = [(1, ⟨4096, 5⟩), (2, ⟨8192, 4⟩)] ∧
        (s.next (.handleEvent 0 [⟨4096, 5⟩, ⟨8192, 4⟩])).any
          (fun t => t.TLBuffer.entries.map Prod.fst = [1])) = true := by
    decide
  obtain ⟨s, hexec, hs⟩ := (Option.any_eq_true _ _).mp hrun
  obtain ⟨hresponse, hentries, hnext⟩ := of_decide_eq_true hs
  obtain ⟨t, ht, hafter⟩ := (Option.any_eq_true _ _).mp hnext
  have hleft := hclaim 2 _ s _ (by decide) (run_of_exec hexec) t ht 2
    ⟨(2, ⟨8192, 4⟩), by rw [hentries]; decide, rfl⟩ ?_
  · obtain ⟨q, hq, hnew⟩ := hleft.1
    rw [hresponse] at hq
    cases hq
    apply hnew
    exact ⟨(1, ⟨4096, 5⟩), by rw [hentries]; decide, rfl⟩
  · rintro ⟨e, he, hkey⟩
    have hmem := List.mem_map_of_mem (f := Prod.fst) he
    rw [of_decide_eq_true hafter, hkey] at hmem
    revert hmem
    decide

end TLB

end Tejas
