import Tejas.DNucaSteps

/-!
# Where a line is and how far a search has come

Three invariants of the banks. Requests and lines are only at banks of the set of their
address. A request that has not been handled has left no trace. And each line is in one
place: in one bank, or on its way to one while the list of its request is open; while it
is neither, the search of that request is exactly as far as its count says. The last one
holds as long as no bank finds the line for a request that has been served before.
-/

namespace Tejas.NucaState
open LabelledRuns

variable {cfg : NucaConfig} {s t : NucaState} {e e' : NucaRequest} {bank i : ℕ}
  {m message : NucaMessage} {a addr : Address} {inHand rest : List NucaRequest}

def Placed (cfg : NucaConfig) (e : NucaRequest) : Prop := e.bank ∈ cfg.banksOf e.address

def PlacedMessage (cfg : NucaConfig) : NucaMessage → Prop
  | .request e => Placed cfg e
  | .search e _ => Placed cfg e
  | .hitReply e => Placed cfg e
  | .missReply e => Placed cfg e
  | .migrateBlock bank addr => bank ∈ cfg.banksOf addr
  | .memResponse bank addr => bank ∈ cfg.banksOf addr

/-- Requests, messages and lines are where their address belongs. -/
structure Placement (cfg : NucaConfig) (s : NucaState) (inHand : List NucaRequest) : Prop where
  tagged : ∀ bank, (s.lines bank).Tagged cfg.geometry
  mshr : s.mshr.WellFormed cfg.geometry.blockSizeBits
  messages : ∀ m ∈ s.messages, PlacedMessage cfg m
  reads : ∀ p ∈ s.readsBelow, p.1 ∈ cfg.banksOf p.2
  queued : ∀ e ∈ s.queued inHand, Placed cfg e
  holders : ∀ bank addr, s.Holds cfg bank addr → bank ∈ cfg.banksOf addr
  head : ∀ addr event, (s.waiting cfg addr).head? = some event →
    ∃ e : NucaRequest, event = e.event ∧ Placed cfg e

/-- Requests are handled once. -/
structure Freshness (s : NucaState) (inHand : List NucaRequest) : Prop where
  fresh : ∀ e, s.nextId ≤ e.id → s.Unsearched e ∧ e ∉ s.queued inHand
  unsearched : ∀ e ∈ s.queued inHand, s.Unsearched e
  nodup : (s.queued inHand).Nodup

/-- The search for a request whose line is nowhere on its way: every other bank still has to
be asked, or has answered and does not hold the line. -/
structure Searching (cfg : NucaConfig) (s : NucaState) (e : NucaRequest) : Prop where
  count : ∃ c, s.activeEventsInNuca e.bank e = some c ∧
    c + s.pendingReplies e + 1 = (cfg.banksOf e.address).length ∧
      (2 ≤ (cfg.banksOf e.address).length → c + 1 < (cfg.banksOf e.address).length)
  noHit : s.hitReplies e = 0
  root : ¬ s.Holds cfg e.bank e.address
  asked : ∀ bank ∈ cfg.banksOf e.address, bank ≠ e.bank → .search e bank ∈ s.messages ∨
    (¬ s.Holds cfg bank e.address ∧ .answersMiss e bank ∈ s.history)
  notFound : ∀ bank, .finds e bank ∉ s.history
  notRead : .readsBelow e ∉ s.history

/-- The line was read from the next level once, after every other bank had answered. -/
structure ReadOnce (cfg : NucaConfig) (s : NucaState) (e : NucaRequest) : Prop where
  inactive : s.activeEventsInNuca e.bank e = none
  once : s.history.count (.readsBelow e) = 1
  asked : ∃ before after, s.history = before ++ .readsBelow e :: after ∧
    ∀ bank ∈ cfg.banksOf e.address, bank ≠ e.bank → .answersMiss e bank ∈ before
  notFound : ∀ bank, .finds e bank ∉ s.history

structure Tracking (cfg : NucaConfig) (s : NucaState) : Prop where
  single : ∀ addr b b', s.Holds cfg b addr → s.Holds cfg b' addr → b = b'
  alone : ∀ addr b, s.Holds cfg b addr → s.carriers cfg addr = 0
  oneCarrier : ∀ addr, s.carriers cfg addr ≤ 1
  carried : ∀ addr, s.carriers cfg addr ≠ 0 → (s.waiting cfg addr).head? ≠ none
  searching : ∀ e, s.IsHead cfg e → s.carriers cfg e.address = 0 → Searching cfg s e
  active : ∀ e c, s.activeEventsInNuca e.bank e = some c →
    (s.IsHead cfg e ∧ s.carriers cfg e.address = 0) ∨
      (s.hitReplies e = 1 ∧ c + s.pendingReplies e + 2 ≤ (cfg.banksOf e.address).length)
  hits : ∀ e, s.hitReplies e ≠ 0 → s.hitReplies e = 1 ∧ s.activeEventsInNuca e.bank e ≠ none
  served : ∀ e, .misses e ∈ s.history → (s.IsHead cfg e ∧ s.carriers cfg e.address = 0) ∨
    (∃ bank, .finds e bank ∈ s.history) ∨ .readsBelow e ∈ s.history
  reads : ∀ e, .readsBelow e ∈ s.history → ReadOnce cfg s e

/-- The three together. -/
structure Tracked (cfg : NucaConfig) (s : NucaState) (inHand : List NucaRequest) : Prop where
  placement : Placement cfg s inHand
  freshness : Freshness s inHand
  tracking : Tracking cfg s

/-! ### Steps that the search does not see -/

/-- Nothing that the searches speak of has changed, except that lines may be gone. -/
structure SameSearch (cfg : NucaConfig) (s t : NucaState) : Prop where
  holds : ∀ b a, t.Holds cfg b a → s.Holds cfg b a
  carriers : ∀ a, t.carriers cfg a = s.carriers cfg a
  head : ∀ a, (t.waiting cfg a).head? = (s.waiting cfg a).head?
  active : t.activeEventsInNuca = s.activeEventsInNuca
  pendingReplies : ∀ e, t.pendingReplies e = s.pendingReplies e
  hitReplies : ∀ e, t.hitReplies e = s.hitReplies e
  searches : ∀ e b, .search e b ∈ s.messages → .search e b ∈ t.messages
  history : t.history = s.history

theorem Searching.congr (h : Searching cfg s e) (hs : SameSearch cfg s t) :
    Searching cfg t e where
  count := by
    rw [hs.active, hs.pendingReplies]
    exact h.count
  noHit := (hs.hitReplies e).trans h.noHit
  root := fun hold => h.root (hs.holds _ _ hold)
  asked := by
    intro b hb hne
    rw [hs.history]
    rcases h.asked b hb hne with hsearch | ⟨hnot, hanswer⟩
    · exact Or.inl (hs.searches e b hsearch)
    · exact Or.inr ⟨fun hold => hnot (hs.holds _ _ hold), hanswer⟩
  notFound := by
    rw [hs.history]
    exact h.notFound
  notRead := by
    rw [hs.history]
    exact h.notRead

theorem Tracking.congr (h : Tracking cfg s) (hs : SameSearch cfg s t) : Tracking cfg t := by
  have hhead : ∀ e, t.IsHead cfg e ↔ s.IsHead cfg e := by
    intro e
    unfold IsHead
    rw [hs.head]
  constructor
  case single =>
    intro a b b' hb hb'
    exact h.single a b b' (hs.holds _ _ hb) (hs.holds _ _ hb')
  case alone =>
    intro a b hb
    rw [hs.carriers]
    exact h.alone a b (hs.holds _ _ hb)
  case oneCarrier =>
    intro a
    rw [hs.carriers]
    exact h.oneCarrier a
  case carried =>
    intro a
    rw [hs.carriers, hs.head]
    exact h.carried a
  case searching =>
    intro e he hzero
    rw [hs.carriers] at hzero
    exact (h.searching e ((hhead e).mp he) hzero).congr hs
  case active =>
    intro e c hc
    rw [hs.active] at hc
    rw [hhead, hs.carriers, hs.hitReplies, hs.pendingReplies]
    exact h.active e c hc
  case hits =>
    intro e
    rw [hs.hitReplies, hs.active]
    exact h.hits e
  case served =>
    intro e
    rw [hs.history, hhead, hs.carriers]
    exact h.served e
  case reads =>
    intro e he
    rw [hs.history] at he
    have hread := h.reads e he
    constructor
    case inactive =>
      rw [hs.active]
      exact hread.inactive
    case once =>
      rw [hs.history]
      exact hread.once
    case asked =>
      rw [hs.history]
      exact hread.asked
    case notFound =>
      rw [hs.history]
      exact hread.notFound

/-! ### Requests -/

theorem head_ne_none : (s.waiting cfg addr).head? ≠ none ↔ s.waiting cfg addr ≠ [] := by
  rw [Ne, List.head?_eq_none_iff]

theorem isAddrInMSHR_iff (h : Placement cfg s inHand) (addr : Address) :
    s.isAddrInMSHR cfg addr = true ↔ s.waiting cfg addr ≠ [] := MSHR.isAddrInMSHR_iff h.mshr

/-- A request that joins a list does not change its head. -/
theorem head_joined (h : Placement cfg s inHand) (hopen : s.waiting cfg e.address ≠ []) :
    ((s.addToMSHR cfg e).waiting cfg a).head? = (s.waiting cfg a).head? := by
  unfold waiting addToMSHR
  dsimp only
  rw [MSHR.waiting_addToMSHR h.mshr]
  split
  · rename_i hboth
    have hne : s.mshr.waiting cfg.geometry.blockSizeBits a ≠ [] := by
      have hline : cfg.geometry.SameLine a e.address := hboth.1
      have hsame : s.waiting cfg a = s.waiting cfg e.address := waiting_congr hline
      unfold waiting at hsame hopen
      rw [hsame]
      exact hopen
    exact List.head?_append_of_ne_nil _ hne
  · rfl

/-- A request that opens a list is its head. -/
theorem head_opened (h : Placement cfg s inHand) (hclosed : s.waiting cfg e.address = []) :
    ((s.addToMSHR cfg e).waiting cfg a).head? =
      if cfg.geometry.SameLine a e.address then some e.event else (s.waiting cfg a).head? := by
  unfold waiting addToMSHR
  dsimp only
  rw [MSHR.waiting_addToMSHR h.mshr]
  by_cases hline : cfg.geometry.SameLine a e.address
  · have hempty : s.mshr.waiting cfg.geometry.blockSizeBits a = [] := by
      have hsame : s.waiting cfg a = s.waiting cfg e.address := waiting_congr hline
      unfold waiting at hsame hclosed
      rw [hsame, hclosed]
    have hmerged : MSHR.isMerged [] e.event = false := by
      simp [MSHR.isMerged]
    have hevent : getLineAddr cfg.geometry.blockSizeBits a =
        getLineAddr cfg.geometry.blockSizeBits e.event.address := hline
    rw [hempty, if_pos ⟨hevent, hmerged⟩, if_pos hline]
    rfl
  · have hevent : ¬ getLineAddr cfg.geometry.blockSizeBits a =
        getLineAddr cfg.geometry.blockSizeBits e.event.address := hline
    rw [if_neg (fun hboth => hevent hboth.1), if_neg hline]

theorem Unsearched.pendingReplies (h : s.Unsearched e) : s.pendingReplies e = 0 := by
  unfold NucaState.pendingReplies
  rw [List.countP_eq_zero]
  intro m hm hsearch
  have habout := h.messages m hm
  cases m <;> simp_all [NucaMessage.searchesFor, NucaMessage.isAbout]

theorem Unsearched.hitReplies (h : s.Unsearched e) : s.hitReplies e = 0 := by
  unfold NucaState.hitReplies
  rw [List.count_eq_zero]
  intro hmem
  have habout := h.messages _ hmem
  simp [NucaMessage.isAbout] at habout

/-- The head of a line is one request. -/
theorem IsHead.unique (h : s.IsHead cfg e) (h' : s.IsHead cfg e')
    (hline : cfg.geometry.SameLine e'.address e.address) : e' = e := by
  unfold IsHead at h h'
  rw [waiting_congr hline, h] at h'
  exact (NucaRequest.event_injective (Option.some.inj h')).symm

end Tejas.NucaState
