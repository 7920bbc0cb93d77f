import Tejas.DNucaSearches

/-!
# Replies, fills and requests keep track of the lines

The bank of a request counts the misses and notes a hit. A line that arrives is filled and
the list of its requests closes. With the searches these are all the steps of the banks.
-/

namespace Tejas.NucaState
open LabelledRuns

variable {cfg : NucaConfig} {s t : NucaState} {e e' : NucaRequest} {bank i : ℕ}
  {m message : NucaMessage} {a addr : Address} {inHand rest : List NucaRequest}

theorem setActive_self (s : NucaState) (e : NucaRequest) (count : Option ℕ) :
    (s.setActive e count).activeEventsInNuca e.bank e = count := if_pos ⟨rfl, rfl⟩

theorem setActive_other (hne : e' ≠ e) (count : Option ℕ) (b : ℕ) :
    (s.setActive e count).activeEventsInNuca b e' = s.activeEventsInNuca b e' :=
  if_neg (fun hboth => hne hboth.2)

/-- A message is gone, and the count of its request has changed. -/
theorem handled_setActive (h : ∀ bank, (s.lines bank).Tagged cfg.geometry) (e : NucaRequest)
    (i : ℕ) (count : Option ℕ) :
    Handled cfg s ((s.take i).setActive e count) e i [] [] [] :=
  { handled_take h e i with active := fun e' hne => setActive_other hne count e'.bank }

/-! ### Hit replies -/

theorem hitReplies_pos (hm : .hitReply e ∈ s.messages) : 0 < s.hitReplies e :=
  List.count_pos_iff.mpr hm

theorem tracked_hitReply (h : Tracked cfg s inHand) (hm : s.messages[i]? = some (.hitReply e)) :
    Tracked cfg ((s.take i).setActive e none) inHand := by
  have habout : (NucaMessage.hitReply e).isAbout e = true := decide_eq_true rfl
  have hmem := List.mem_of_getElem? hm
  have hplaced := placed_of_about h.placement hmem habout
  have hs : Handled cfg s ((s.take i).setActive e none) e i [] [] [] :=
    handled_setActive h.placement.tagged e i none
  have hcarriers := hs.carriers hm habout e.address
  have hpending := hs.pendingReplies hm e
  have hhits := hs.hitReplies hm e
  rw [if_pos rfl] at hhits
  simp only [List.countP_nil, List.count_nil, Nat.add_zero] at hcarriers hpending hhits
  have hstep := hs.searchStep hm habout hplaced (Or.inl hcarriers)
  have hrequest := h.tracking.request e
  have hpos := hitReplies_pos hmem
  obtain ⟨hone, -⟩ := hrequest.hits (by omega)
  -- the search of the head of a line that is not on its way has no hit yet
  have hnot : ¬ (s.IsHead cfg e ∧ s.carriers cfg e.address = 0) := by
    intro hboth
    have hnoHit := (hrequest.searching hboth.1 hboth.2).noHit
    omega
  apply tracked_searchStep h hstep
  constructor
  case searching =>
    intro he hzero
    rw [hcarriers] at hzero
    exact absurd ⟨(hstep.isHead_iff e).mp he, hzero⟩ hnot
  case active =>
    intro c hc
    rw [setActive_self] at hc
    cases hc
  case hits =>
    intro hne
    exact absurd (by omega) hne
  case served =>
    intro hmisses
    rcases hrequest.served hmisses with hhead | hserved
    · exact absurd hhead hnot
    · exact Or.inr hserved
  case reads =>
    intro hread
    have hread := hrequest.reads hread
    exact ⟨setActive_self _ _ _, hread.once, hread.asked, hread.notFound⟩

/-- A hit reply finds its request. -/
theorem handleHitReply_eq (h : Tracked cfg s inHand)
    (hm : s.messages[i]? = some (.hitReply e)) :
    (s.take i).handleHitReply e = .ok ((s.take i).setActive e none) := by
  have hpos := hitReplies_pos (List.mem_of_getElem? hm)
  obtain ⟨-, hactive⟩ := h.tracking.hits e (by omega)
  have hsame : (s.take i).activeEventsInNuca = s.activeEventsInNuca := rfl
  unfold handleHitReply
  rw [hsame]
  split
  · rename_i hnone
    exact absurd hnone hactive
  · rfl

/-! ### Miss replies -/

theorem tracked_missCounted (h : Tracked cfg s inHand)
    (hm : s.messages[i]? = some (.missReply e)) {count : ℕ}
    (hactive : s.activeEventsInNuca e.bank e = some count)
    (hmore : count + 1 ≠ (cfg.banksOf e.address).length - 1) :
    Tracked cfg ((s.take i).setActive e (some (count + 1))) inHand := by
  have habout : (NucaMessage.missReply e).isAbout e = true := decide_eq_true rfl
  have hplaced := placed_of_about h.placement (List.mem_of_getElem? hm) habout
  have hs : Handled cfg s ((s.take i).setActive e (some (count + 1))) e i [] [] [] :=
    handled_setActive h.placement.tagged e i (some (count + 1))
  have hcarriers := hs.carriers hm habout e.address
  have hpending := hs.pendingReplies hm e
  have hhits := hs.hitReplies hm e
  have hsearches : (NucaMessage.missReply e).searchesFor e = true := decide_eq_true rfl
  rw [if_pos hsearches] at hpending
  rw [if_neg (fun heq => by cases heq)] at hhits
  simp only [List.countP_nil, List.count_nil, Nat.add_zero] at hcarriers hpending hhits
  have hstep := hs.searchStep hm habout hplaced (Or.inl hcarriers)
  have hrequest := h.tracking.request e
  apply tracked_searchStep h hstep
  constructor
  case searching =>
    intro he hzero
    rw [hcarriers] at hzero
    have hsearch := hrequest.searching ((hstep.isHead_iff e).mp he) hzero
    obtain ⟨c, hc, hcount, hbound⟩ := hsearch.count
    rw [hactive] at hc
    cases hc
    constructor
    case count => exact ⟨count + 1, setActive_self _ _ _, by omega, by omega⟩
    case noHit => exact hhits.trans hsearch.noHit
    case root => exact hsearch.root
    case asked =>
      intro b hb hne
      rcases hsearch.asked b hb hne with hsearch | hanswer
      · exact Or.inl (mem_take hm hsearch (fun heq => by cases heq))
      · exact Or.inr hanswer
    case notFound => exact hsearch.notFound
    case notRead => exact hsearch.notRead
  case active =>
    intro c hc
    rw [setActive_self] at hc
    cases hc
    rw [hstep.isHead_iff, hcarriers, hhits]
    rcases hrequest.active count hactive with hhead | ⟨hone, hle⟩
    · exact Or.inl hhead
    · exact Or.inr ⟨hone, by omega⟩
  case hits =>
    rw [hhits, setActive_self]
    intro hne
    exact ⟨(hrequest.hits hne).1, fun heq => by cases heq⟩
  case served =>
    intro hmisses
    rw [hstep.isHead_iff, hcarriers]
    exact hrequest.served hmisses
  case reads =>
    intro hread
    have hinactive := (hrequest.reads hread).inactive
    rw [hactive] at hinactive
    cases hinactive

/-- The state after the read of the next level. -/
def allMissed (s : NucaState) (e : NucaRequest) : NucaState :=
  { (s.setActive e none).record (.readsBelow e) with
    readsBelow := s.readsBelow ++ [(e.bank, e.address)] }

/-- The last of the other banks answers with a miss. -/
theorem tracked_allMissed (h : Tracked cfg s inHand)
    (hm : s.messages[i]? = some (.missReply e)) {count : ℕ}
    (hactive : s.activeEventsInNuca e.bank e = some count)
    (hlast : count + 1 = (cfg.banksOf e.address).length - 1) :
    Tracked cfg ((s.take i).allMissed e) inHand := by
  have habout : (NucaMessage.missReply e).isAbout e = true := decide_eq_true rfl
  have hmem := List.mem_of_getElem? hm
  have hplaced := placed_of_about h.placement hmem habout
  have hrequest := h.tracking.request e
  have hsearches : (NucaMessage.missReply e).searchesFor e = true := decide_eq_true rfl
  have hpendingPos : 0 < s.pendingReplies e := List.countP_pos_iff.mpr ⟨_, hmem, hsearches⟩
  have hhead : s.IsHead cfg e ∧ s.carriers cfg e.address = 0 := by
    rcases hrequest.active count hactive with hhead | ⟨-, hle⟩
    · exact hhead
    · omega
  have hsearch := hrequest.searching hhead.1 hhead.2
  obtain ⟨c, hc, hcount, -⟩ := hsearch.count
  rw [hactive] at hc
  cases hc
  -- no search is left, so every bank has answered
  have htake := pendingReplies_take hm e
  rw [if_pos hsearches] at htake
  have hanswered : ∀ b ∈ cfg.banksOf e.address, b ≠ e.bank →
      ¬ s.Holds cfg b e.address ∧ .answersMiss e b ∈ s.history := by
    intro b hb hne
    rcases hsearch.asked b hb hne with hasked | hanswer
    · have hleft := mem_take hm hasked (fun heq => by cases heq)
      have hpos := searches_pos hleft
      omega
    · exact hanswer
  have hnone : ∀ b, ¬ s.Holds cfg b e.address := by
    intro b hold
    by_cases hb : b = e.bank
    · rw [hb] at hold
      exact hsearch.root hold
    · exact (hanswered b (h.placement.holders b _ hold) hb).1 hold
  have hs : Handled cfg s ((s.take i).allMissed e) e i [] [.readsBelow e]
      [(e.bank, e.address)] := by
    refine { handled_setActive h.placement.tagged e i none with
      history := rfl
      readsBelow := rfl
      records_about := fun r hr e' hne => ?_
      reads_line := fun p hp => List.mem_singleton.mp hp }
    cases List.mem_singleton.mp hr
    exact decide_eq_false (fun heq => hne heq.symm)
  have hcarriers := hs.carriers hm habout e.address
  have hhits := hs.hitReplies hm e
  have hread : [(e.bank, e.address)].countP
      (fun p => decide (cfg.geometry.SameLine p.2 e.address)) = 1 := by
    simp [Geometry.sameLine_refl]
  rw [if_neg (fun heq => by cases heq)] at hhits
  rw [hread] at hcarriers
  simp only [List.countP_nil, List.count_nil, Nat.add_zero, hhead.2] at hcarriers hhits
  have hstep := hs.searchStep hm habout hplaced
    (Or.inr ⟨hcarriers, hhead.1, hhead.2, hnone⟩)
  apply tracked_searchStep h hstep
  constructor
  case searching =>
    intro _ hzero
    omega
  case active =>
    intro c' hc'
    have hnow : ((s.take i).setActive e none).activeEventsInNuca e.bank e = some c' := hc'
    rw [setActive_self] at hnow
    cases hnow
  case hits =>
    intro hne
    exact absurd (hhits.trans hsearch.noHit) hne
  case served =>
    intro _
    exact Or.inr (Or.inr (List.mem_append_right _ (List.mem_singleton.mpr rfl)))
  case reads =>
    intro _
    have hzero : s.history.count (.readsBelow e) = 0 := List.count_eq_zero.mpr hsearch.notRead
    constructor
    case inactive => exact setActive_self (s.take i) e none
    case once =>
      rw [hs.history, List.count_append, hzero]
      simp
    case asked => exact ⟨s.history, [], hs.history, fun b hb hne => (hanswered b hb hne).2⟩
    case notFound =>
      intro b hfound
      rw [hs.history] at hfound
      rcases List.mem_append.mp hfound with hfound | hfound
      · exact hsearch.notFound b hfound
      · cases List.mem_singleton.mp hfound

theorem tracked_handleMissReply (h : Tracked cfg s inHand)
    (hm : s.messages[i]? = some (.missReply e)) :
    Tracked cfg ((s.take i).handleMissReply cfg e) inHand := by
  have habout : (NucaMessage.missReply e).isAbout e = true := decide_eq_true rfl
  have hplaced := placed_of_about h.placement (List.mem_of_getElem? hm) habout
  have hset := NucaConfig.bankSet_of_mem hplaced
  have hsame : (s.take i).activeEventsInNuca = s.activeEventsInNuca := rfl
  unfold handleMissReply
  rw [hsame, hset]
  split
  · rename_i hnone
    exact tracked_dropped h hm habout (fun heq => by cases heq) (Or.inl hnone)
  · rename_i count hactive
    split
    · rename_i hlast
      exact tracked_allMissed h hm hactive hlast
    · rename_i hmore
      exact tracked_missCounted h hm hactive hmore

end Tejas.NucaState
