import Tejas.DNucaRequests

/-!
# Searches and replies keep track of the lines

What one message of a search changes. A search meets a bank without the line, or the bank
that has it; the replies are counted by the bank of the request, and the last miss reads
the line from the next level. Only the request of the message is concerned, so each step
is seen through one lemma about a single request.
-/

namespace Tejas.NucaState
open LabelledRuns

variable {cfg : NucaConfig} {s t : NucaState} {e e' : NucaRequest} {bank i : ℕ}
  {m message : NucaMessage} {a addr : Address} {inHand rest : List NucaRequest}

/-! ### Steps about one request -/

/-- The step leaves alone what concerns the request. -/
structure SameRequest (s t : NucaState) (e : NucaRequest) : Prop where
  active : t.activeEventsInNuca e.bank e = s.activeEventsInNuca e.bank e
  pendingReplies : t.pendingReplies e = s.pendingReplies e
  hitReplies : t.hitReplies e = s.hitReplies e
  searches : ∀ b, .search e b ∈ s.messages → .search e b ∈ t.messages
  history : ∃ records, t.history = s.history ++ records ∧ ∀ r ∈ records, r.isAbout e = false

theorem SameRequest.count_history (h : SameRequest s t e) {r : NucaRecord}
    (hr : r.isAbout e = true) : t.history.count r = s.history.count r := by
  obtain ⟨records, heq, habout⟩ := h.history
  have hzero : records.count r = 0 := by
    rw [List.count_eq_zero]
    intro hmem
    rw [habout r hmem] at hr
    cases hr
  rw [heq, List.count_append, hzero, Nat.add_zero]

theorem SameRequest.mem_history (h : SameRequest s t e) {r : NucaRecord}
    (hr : r.isAbout e = true) : r ∈ t.history ↔ r ∈ s.history := by
  rw [← List.count_pos_iff, h.count_history hr, List.count_pos_iff]

theorem Searching.of_same (h : Searching cfg s e) (hs : SameRequest s t e)
    (hholds : ∀ b, t.Holds cfg b e.address → s.Holds cfg b e.address) : Searching cfg t e where
  count := by
    rw [hs.active, hs.pendingReplies]
    exact h.count
  noHit := hs.hitReplies.trans h.noHit
  root := fun hold => h.root (hholds _ hold)
  asked := by
    intro b hb hne
    rcases h.asked b hb hne with hsearch | ⟨hnot, hanswer⟩
    · exact Or.inl (hs.searches b hsearch)
    · refine Or.inr ⟨fun hold => hnot (hholds _ hold), ?_⟩
      exact (hs.mem_history (by simp [NucaRecord.isAbout])).mpr hanswer
  notFound := by
    intro b hmem
    exact h.notFound b ((hs.mem_history (by simp [NucaRecord.isAbout])).mp hmem)
  notRead := by
    intro hmem
    exact h.notRead ((hs.mem_history (by simp [NucaRecord.isAbout])).mp hmem)

theorem ReadOnce.of_same (h : ReadOnce cfg s e) (hs : SameRequest s t e) : ReadOnce cfg t e where
  inactive := hs.active.trans h.inactive
  once := (hs.count_history (by simp [NucaRecord.isAbout])).trans h.once
  asked := by
    obtain ⟨before, after, hbefore, hasked⟩ := h.asked
    obtain ⟨records, heq, -⟩ := hs.history
    refine ⟨before, after ++ records, ?_, hasked⟩
    rw [heq, hbefore, List.append_assoc, List.cons_append]
  notFound := by
    intro b hmem
    exact h.notFound b ((hs.mem_history (by simp [NucaRecord.isAbout])).mp hmem)

/-- What the search invariant says of one request. -/
structure RequestTracked (cfg : NucaConfig) (s : NucaState) (e : NucaRequest) : Prop where
  searching : s.IsHead cfg e → s.carriers cfg e.address = 0 → Searching cfg s e
  active : ∀ c, s.activeEventsInNuca e.bank e = some c →
    (s.IsHead cfg e ∧ s.carriers cfg e.address = 0) ∨
      (s.hitReplies e = 1 ∧ c + s.pendingReplies e + 2 ≤ (cfg.banksOf e.address).length)
  hits : s.hitReplies e ≠ 0 → s.hitReplies e = 1 ∧ s.activeEventsInNuca e.bank e ≠ none
  served : .misses e ∈ s.history → (s.IsHead cfg e ∧ s.carriers cfg e.address = 0) ∨
    (∃ bank, .finds e bank ∈ s.history) ∨ .readsBelow e ∈ s.history
  reads : .readsBelow e ∈ s.history → ReadOnce cfg s e

theorem Tracking.request (h : Tracking cfg s) (e : NucaRequest) : RequestTracked cfg s e :=
  ⟨h.searching e, h.active e, h.hits e, h.served e, h.reads e⟩

/-- A request that the step does not concern is tracked as before, when its line is as far
on its way as before or it is not the head of its line. -/
theorem RequestTracked.of_same (h : RequestTracked cfg s e) (hs : SameRequest s t e)
    (hholds : ∀ b, t.Holds cfg b e.address → s.Holds cfg b e.address)
    (hhead : t.IsHead cfg e → s.IsHead cfg e)
    (hkeeps : s.IsHead cfg e → s.carriers cfg e.address = 0 →
      t.IsHead cfg e ∧ t.carriers cfg e.address = 0)
    (hzero : t.IsHead cfg e → t.carriers cfg e.address = 0 → s.carriers cfg e.address = 0) :
    RequestTracked cfg t e where
  searching := by
    intro he hcarriers
    exact (h.searching (hhead he) (hzero he hcarriers)).of_same hs hholds
  active := by
    intro c hc
    rw [hs.active] at hc
    rw [hs.hitReplies, hs.pendingReplies]
    rcases h.active c hc with ⟨he, hcarriers⟩ | hhit
    · exact Or.inl (hkeeps he hcarriers)
    · exact Or.inr hhit
  hits := by
    rw [hs.hitReplies, hs.active]
    exact h.hits
  served := by
    intro hmem
    rcases h.served ((hs.mem_history (by simp [NucaRecord.isAbout])).mp hmem) with
      ⟨he, hcarriers⟩ | ⟨b, hfound⟩ | hread
    · exact Or.inl (hkeeps he hcarriers)
    · exact Or.inr (Or.inl ⟨b, (hs.mem_history (by simp [NucaRecord.isAbout])).mpr hfound⟩)
    · exact Or.inr (Or.inr ((hs.mem_history (by simp [NucaRecord.isAbout])).mpr hread))
  reads := by
    intro hmem
    exact (h.reads ((hs.mem_history (by simp [NucaRecord.isAbout])).mp hmem)).of_same hs

/-- A message of the search for a request was handled. -/
structure SearchStep (cfg : NucaConfig) (s t : NucaState) (e : NucaRequest) : Prop where
  mshr : t.mshr = s.mshr
  waitingList : t.eventsWaitingOnMSHR = s.eventsWaitingOnMSHR
  nextId : t.nextId = s.nextId
  tagged : ∀ bank, (t.lines bank).Tagged cfg.geometry
  holds : ∀ b a, t.Holds cfg b a → s.Holds cfg b a
  /-- The step is about the request. -/
  about : ∃ m ∈ s.messages, m.isAbout e = true
  messages : ∀ m ∈ t.messages, m ∈ s.messages ∨ PlacedMessage cfg m ∧ ∀ e', e' ≠ e →
    m.isAbout e' = false
  requests : t.messages.filterMap NucaMessage.request? = s.messages.filterMap NucaMessage.request?
  reads : ∀ p ∈ t.readsBelow, p ∈ s.readsBelow ∨ p.1 ∈ cfg.banksOf p.2
  history : ∀ r ∈ t.history, r ∈ s.history ∨ ∀ e', e' ≠ e → r.isAbout e' = false
  other : ∀ e', e' ≠ e → SameRequest s t e'
  carriers : ∀ a, ¬ cfg.geometry.SameLine a e.address → t.carriers cfg a = s.carriers cfg a
  /-- The line goes on its way only from the head of its line, and leaves no copy behind. -/
  line : t.carriers cfg e.address = s.carriers cfg e.address ∨
    t.carriers cfg e.address = 1 ∧ s.IsHead cfg e ∧ s.carriers cfg e.address = 0 ∧
      ∀ b, ¬ t.Holds cfg b e.address

theorem SearchStep.waiting_eq (hs : SearchStep cfg s t e) (a : Address) :
    t.waiting cfg a = s.waiting cfg a := by
  unfold waiting
  rw [hs.mshr]

theorem SearchStep.isHead_iff (hs : SearchStep cfg s t e) (e' : NucaRequest) :
    t.IsHead cfg e' ↔ s.IsHead cfg e' := by
  unfold IsHead
  rw [hs.waiting_eq]

theorem SearchStep.queued_eq (hs : SearchStep cfg s t e) (inHand : List NucaRequest) :
    t.queued inHand = s.queued inHand := by
  unfold queued
  rw [hs.waitingList, hs.requests]

theorem placement_searchStep (h : Placement cfg s inHand) (hs : SearchStep cfg s t e) :
    Placement cfg t inHand where
  tagged := hs.tagged
  mshr := by
    rw [hs.mshr]
    exact h.mshr
  messages := by
    intro m hm
    rcases hs.messages m hm with hm | ⟨hplaced, -⟩
    · exact h.messages m hm
    · exact hplaced
  reads := by
    intro p hp
    rcases hs.reads p hp with hp | hplaced
    · exact h.reads p hp
    · exact hplaced
  queued := by
    rw [hs.queued_eq]
    exact h.queued
  holders := fun b a hold => h.holders b a (hs.holds b a hold)
  head := by
    intro a
    rw [hs.waiting_eq]
    exact h.head a

theorem freshness_searchStep (h : Freshness s inHand) (hs : SearchStep cfg s t e) :
    Freshness t inHand := by
  have hun : ∀ e', s.Unsearched e' → t.Unsearched e' := by
    intro e' hun
    have hne : e' ≠ e := by
      intro heq
      obtain ⟨m, hm, habout⟩ := hs.about
      rw [← heq, hun.messages m hm] at habout
      cases habout
    constructor
    case inactive => exact (hs.other e' hne).active.trans hun.inactive
    case messages =>
      intro m hm
      rcases hs.messages m hm with hm | ⟨-, habout⟩
      · exact hun.messages m hm
      · exact habout e' hne
    case history =>
      intro r hr
      rcases hs.history r hr with hr | habout
      · exact hun.history r hr
      · exact habout e' hne
  constructor
  case fresh =>
    intro e' hid
    rw [hs.nextId] at hid
    rw [hs.queued_eq]
    obtain ⟨hfresh, hnot⟩ := h.fresh e' hid
    exact ⟨hun e' hfresh, hnot⟩
  case unsearched =>
    rw [hs.queued_eq]
    exact fun e' he' => hun e' (h.unsearched e' he')
  case nodup =>
    rw [hs.queued_eq]
    exact h.nodup

theorem tracking_searchStep (h : Tracking cfg s) (hs : SearchStep cfg s t e)
    (hself : RequestTracked cfg t e) : Tracking cfg t := by
  -- another request of the line is not its head when the line goes on its way
  have hrequest : ∀ e', RequestTracked cfg t e' := by
    intro e'
    by_cases heq : e' = e
    · rw [heq]
      exact hself
    · have hiff := hs.isHead_iff e'
      by_cases hline : cfg.geometry.SameLine e'.address e.address
      · have hcarriers : t.IsHead cfg e' →
            t.carriers cfg e'.address = s.carriers cfg e'.address := by
          intro he'
          rw [carriers_congr hline, carriers_congr hline]
          rcases hs.line with hsame | ⟨-, hhead, -, -⟩
          · exact hsame
          · exact absurd (hhead.unique (hiff.mp he') hline) heq
        refine (h.request e').of_same (hs.other e' heq) (fun b => hs.holds b _) hiff.mp ?_ ?_
        · intro he' hzero
          rw [hcarriers (hiff.mpr he')]
          exact ⟨hiff.mpr he', hzero⟩
        · intro he' hzero
          rw [← hcarriers he']
          exact hzero
      · have hcarriers := hs.carriers e'.address hline
        refine (h.request e').of_same (hs.other e' heq) (fun b => hs.holds b _) hiff.mp ?_ ?_
        · intro he' hzero
          rw [hcarriers]
          exact ⟨hiff.mpr he', hzero⟩
        · intro _ hzero
          rw [← hcarriers]
          exact hzero
  constructor
  case single =>
    intro a b b' hb hb'
    exact h.single a b b' (hs.holds _ _ hb) (hs.holds _ _ hb')
  case alone =>
    intro a b hb
    have hzero := h.alone a b (hs.holds _ _ hb)
    by_cases hline : cfg.geometry.SameLine a e.address
    · rw [carriers_congr hline] at hzero ⊢
      rcases hs.line with hsame | ⟨-, -, -, hnone⟩
      · exact hsame.trans hzero
      · exact absurd ((holds_congr hline).mp hb) (hnone b)
    · exact (hs.carriers a hline).trans hzero
  case oneCarrier =>
    intro a
    have hone := h.oneCarrier a
    by_cases hline : cfg.geometry.SameLine a e.address
    · rw [carriers_congr hline] at hone ⊢
      rcases hs.line with hsame | ⟨hone', -⟩
      · exact hsame.le.trans hone
      · exact hone'.le
    · exact (hs.carriers a hline).le.trans hone
  case carried =>
    intro a hne
    rw [hs.waiting_eq]
    by_cases hline : cfg.geometry.SameLine a e.address
    · rw [carriers_congr hline] at hne
      rcases hs.line with hsame | ⟨-, hhead, -, -⟩
      · rw [waiting_congr hline]
        apply h.carried
        rw [← hsame]
        exact hne
      · unfold IsHead at hhead
        rw [waiting_congr hline, hhead]
        exact fun heq => by cases heq
    · rw [hs.carriers a hline] at hne
      exact h.carried a hne
  case searching => exact fun e' => (hrequest e').searching
  case active => exact fun e' => (hrequest e').active
  case hits => exact fun e' => (hrequest e').hits
  case served => exact fun e' => (hrequest e').served
  case reads => exact fun e' => (hrequest e').reads

theorem tracked_searchStep (h : Tracked cfg s inHand) (hs : SearchStep cfg s t e)
    (hself : RequestTracked cfg t e) : Tracked cfg t inHand :=
  ⟨placement_searchStep h.placement hs, freshness_searchStep h.freshness hs,
    tracking_searchStep h.tracking hs hself⟩

/-! ### A message of a search is taken -/

/-- A message about the request was taken; messages, records and reads were added. -/
structure Handled (cfg : NucaConfig) (s t : NucaState) (e : NucaRequest) (i : ℕ)
    (sent : List NucaMessage) (records : List NucaRecord) (reads : List (ℕ × Address)) :
    Prop where
  mshr : t.mshr = s.mshr
  waitingList : t.eventsWaitingOnMSHR = s.eventsWaitingOnMSHR
  nextId : t.nextId = s.nextId
  tagged : ∀ bank, (t.lines bank).Tagged cfg.geometry
  holds : ∀ b a, t.Holds cfg b a → s.Holds cfg b a
  messages : t.messages = (s.take i).messages ++ sent
  history : t.history = s.history ++ records
  readsBelow : t.readsBelow = s.readsBelow ++ reads
  active : ∀ e', e' ≠ e → t.activeEventsInNuca e'.bank e' = s.activeEventsInNuca e'.bank e'
  sent_about : ∀ m ∈ sent, m.request? = none ∧ ∀ e', e' ≠ e → m.isAbout e' = false
  sent_placed : ∀ m ∈ sent, PlacedMessage cfg m
  sent_line : ∀ m ∈ sent, ∀ a, m.carries cfg a = true → cfg.geometry.SameLine a e.address
  records_about : ∀ r ∈ records, ∀ e', e' ≠ e → r.isAbout e' = false
  reads_line : ∀ p ∈ reads, p = (e.bank, e.address)

theorem isAbout_other (h : m.isAbout e = true) (hne : e' ≠ e) : m.isAbout e' = false := by
  cases m <;> simp_all [NucaMessage.isAbout]
  all_goals exact fun heq => hne heq.symm

theorem searchesFor_about (h : m.isAbout e = false) : m.searchesFor e = false := by
  cases m <;> simp_all [NucaMessage.isAbout, NucaMessage.searchesFor]

theorem carries_about (h : m.isAbout e = true) (a : Address) : m.carries cfg a = false := by
  cases m <;> simp_all [NucaMessage.isAbout, NucaMessage.carries]

theorem request?_about (h : m.isAbout e = true) : m.request? = none := by
  cases m <;> simp_all [NucaMessage.isAbout, NucaMessage.request?]

section Handled

variable {sent : List NucaMessage} {records : List NucaRecord} {reads : List (ℕ × Address)}

theorem Handled.pendingReplies (hs : Handled cfg s t e i sent records reads)
    (hm : s.messages[i]? = some m) (e' : NucaRequest) :
    t.pendingReplies e' + (if m.searchesFor e' then 1 else 0) =
      s.pendingReplies e' + sent.countP (NucaMessage.searchesFor e') := by
  have htake := pendingReplies_take hm e'
  have hsend : t.pendingReplies e' =
      (s.take i).pendingReplies e' + sent.countP (NucaMessage.searchesFor e') := by
    unfold NucaState.pendingReplies
    rw [hs.messages, List.countP_append]
  omega

theorem Handled.hitReplies (hs : Handled cfg s t e i sent records reads)
    (hm : s.messages[i]? = some m) (e' : NucaRequest) :
    t.hitReplies e' + (if m = .hitReply e' then 1 else 0) =
      s.hitReplies e' + sent.count (.hitReply e') := by
  have htake := hitReplies_take hm e'
  have hsend : t.hitReplies e' = (s.take i).hitReplies e' + sent.count (.hitReply e') := by
    unfold NucaState.hitReplies
    rw [hs.messages, List.count_append]
  omega

theorem Handled.carriers (hs : Handled cfg s t e i sent records reads)
    (hm : s.messages[i]? = some m) (habout : m.isAbout e = true) (a : Address) :
    t.carriers cfg a = s.carriers cfg a + sent.countP (NucaMessage.carries cfg a) +
      reads.countP (fun p => decide (cfg.geometry.SameLine p.2 a)) := by
  have htake := carriers_take cfg hm a
  have hreads : (s.take i).readsBelow = s.readsBelow := rfl
  rw [carries_about habout] at htake
  unfold NucaState.carriers at htake ⊢
  rw [hs.messages, hs.readsBelow, List.countP_append, List.countP_append]
  rw [hreads] at htake
  simp only [Bool.false_eq_true, if_false] at htake
  omega

theorem Handled.searchStep (hs : Handled cfg s t e i sent records reads)
    (hm : s.messages[i]? = some m) (habout : m.isAbout e = true) (hplaced : Placed cfg e)
    (hline : t.carriers cfg e.address = s.carriers cfg e.address ∨
      t.carriers cfg e.address = 1 ∧ s.IsHead cfg e ∧ s.carriers cfg e.address = 0 ∧
        ∀ b, ¬ t.Holds cfg b e.address) : SearchStep cfg s t e where
  mshr := hs.mshr
  waitingList := hs.waitingList
  nextId := hs.nextId
  tagged := hs.tagged
  holds := hs.holds
  about := ⟨m, List.mem_of_getElem? hm, habout⟩
  messages := by
    intro m' hm'
    rw [hs.messages] at hm'
    rcases List.mem_append.mp hm' with hm' | hm'
    · exact Or.inl (mem_of_take hm')
    · exact Or.inr ⟨hs.sent_placed m' hm', (hs.sent_about m' hm').2⟩
  requests := by
    have hsent : sent.filterMap NucaMessage.request? = [] := by
      rw [List.filterMap_eq_nil_iff]
      exact fun m' hm' => (hs.sent_about m' hm').1
    obtain ⟨hi, hget⟩ := List.getElem?_eq_some_iff.mp hm
    have herase : (s.messages.eraseIdx i).filterMap NucaMessage.request? =
        s.messages.filterMap NucaMessage.request? := by
      conv_rhs => rw [← List.take_append_drop i s.messages, List.drop_eq_getElem_cons hi]
      rw [List.eraseIdx_eq_take_drop_succ, List.filterMap_append, List.filterMap_append,
        List.filterMap_cons, hget, request?_about habout]
    rw [hs.messages, List.filterMap_append, hsent, List.append_nil]
    exact herase
  reads := by
    intro p hp
    rw [hs.readsBelow] at hp
    rcases List.mem_append.mp hp with hp | hp
    · exact Or.inl hp
    · right
      rw [hs.reads_line p hp]
      exact hplaced
  history := by
    intro r hr
    rw [hs.history] at hr
    rcases List.mem_append.mp hr with hr | hr
    · exact Or.inl hr
    · exact Or.inr (hs.records_about r hr)
  other := by
    intro e' hne
    have habout' := isAbout_other habout hne
    have hpending := hs.pendingReplies hm e'
    have hhits := hs.hitReplies hm e'
    have hsearches : sent.countP (NucaMessage.searchesFor e') = 0 := by
      rw [List.countP_eq_zero]
      intro m' hm'
      rw [searchesFor_about ((hs.sent_about m' hm').2 e' hne)]
      exact Bool.false_ne_true
    have hhit : sent.count (.hitReply e') = 0 := by
      rw [List.count_eq_zero]
      intro hm'
      have hnot := (hs.sent_about _ hm').2 e' hne
      simp [NucaMessage.isAbout] at hnot
    have hnothit : m ≠ .hitReply e' := by
      intro heq
      rw [heq] at habout'
      simp [NucaMessage.isAbout] at habout'
    constructor
    case active => exact hs.active e' hne
    case pendingReplies =>
      rw [searchesFor_about habout', hsearches] at hpending
      exact hpending
    case hitReplies =>
      rw [if_neg hnothit, hhit] at hhits
      exact hhits
    case searches =>
      intro b hb
      rw [hs.messages]
      apply List.mem_append_left
      refine mem_take hm hb ?_
      intro heq
      rw [← heq] at habout'
      simp [NucaMessage.isAbout] at habout'
    case history => exact ⟨records, hs.history, fun r hr => hs.records_about r hr e' hne⟩
  carriers := by
    intro a hline'
    have hcarriers := hs.carriers hm habout a
    have hsent : sent.countP (NucaMessage.carries cfg a) = 0 := by
      rw [List.countP_eq_zero]
      exact fun m' hm' hcarries => hline' (hs.sent_line m' hm' a hcarries)
    have hreads : reads.countP (fun p => decide (cfg.geometry.SameLine p.2 a)) = 0 := by
      rw [List.countP_eq_zero]
      intro p hp hsame
      rw [hs.reads_line p hp] at hsame
      exact hline' (of_decide_eq_true hsame).symm
    omega
  line := hline

end Handled

/-- Only a message is gone. -/
theorem handled_take (h : ∀ bank, (s.lines bank).Tagged cfg.geometry) (e : NucaRequest) (i : ℕ) :
    Handled cfg s (s.take i) e i [] [] [] where
  mshr := rfl
  waitingList := rfl
  nextId := rfl
  tagged := h
  holds := fun _ _ hold => hold
  messages := (List.append_nil _).symm
  history := (List.append_nil _).symm
  readsBelow := (List.append_nil _).symm
  active := fun _ _ => rfl
  sent_about := fun _ hm => by cases hm
  sent_placed := fun _ hm => by cases hm
  sent_line := fun _ hm => by cases hm
  records_about := fun _ hr => by cases hr
  reads_line := fun _ hp => by cases hp

theorem placed_of_about (h : Placement cfg s inHand) (hm : m ∈ s.messages)
    (habout : m.isAbout e = true) : Placed cfg e := by
  have hplaced := h.messages m hm
  cases m <;> simp_all [NucaMessage.isAbout, PlacedMessage]

/-! ### Searches -/

theorem searches_pos (hm : .search e bank ∈ s.messages) : 0 < s.pendingReplies e :=
  List.countP_pos_iff.mpr ⟨_, hm, by simp [NucaMessage.searchesFor]⟩

/-- The head of a line waits for it. -/
theorem IsHead.waiting (h : s.IsHead cfg e) : s.waiting cfg e.address ≠ [] := by
  intro hempty
  unfold IsHead at h
  rw [hempty] at h
  cases h

theorem getWaiting_ne_none (h : Placement cfg s inHand) (addr : Address) :
    s.mshr.getWaitingEventsInMSHR cfg.geometry.blockSizeBits addr ≠ none ↔
      s.waiting cfg addr ≠ [] := by
  unfold waiting
  rw [Ne, Ne, MSHR.waiting_eq_nil_iff h.mshr]

/-- A search that is not the head's of its line any more, or whose request is not being
searched for, is dropped. -/
theorem tracked_dropped (h : Tracked cfg s inHand) (hm : s.messages[i]? = some m)
    (habout : m.isAbout e = true) (hnotHit : m ≠ .hitReply e)
    (hidle : s.activeEventsInNuca e.bank e = none ∨ ¬ s.IsHead cfg e) :
    Tracked cfg (s.take i) inHand := by
  have hs := handled_take h.placement.tagged e i
  have hcarriers := hs.carriers hm habout e.address
  have hpending := hs.pendingReplies hm e
  have hhits := hs.hitReplies hm e
  rw [if_neg hnotHit] at hhits
  simp only [List.countP_nil, List.count_nil, Nat.add_zero] at hcarriers hpending hhits
  have hstep := hs.searchStep hm habout
    (placed_of_about h.placement (List.mem_of_getElem? hm) habout) (Or.inl hcarriers)
  apply tracked_searchStep h hstep
  have hrequest := h.tracking.request e
  constructor
  case searching =>
    intro he hzero
    rw [hcarriers] at hzero
    obtain ⟨⟨c, hc, -⟩, -⟩ := hrequest.searching he hzero
    rcases hidle with hnone | hnot
    · rw [hnone] at hc
      cases hc
    · exact absurd he hnot
  case active =>
    intro c hc
    rcases hrequest.active c hc with ⟨he, -⟩ | ⟨hone, hle⟩
    · rcases hidle with hnone | hnot
      · have hsome : s.activeEventsInNuca e.bank e = some c := hc
        rw [hnone] at hsome
        cases hsome
      · exact absurd he hnot
    · right
      exact ⟨hhits.trans hone, by omega⟩
  case hits =>
    rw [hhits]
    exact hrequest.hits
  case served =>
    rw [hcarriers]
    exact hrequest.served
  case reads =>
    intro hmem
    have hread := hrequest.reads hmem
    exact ⟨hread.inactive, hread.once, hread.asked, hread.notFound⟩

/-- A bank without the line answers with a miss. -/
theorem tracked_searchMiss (h : Tracked cfg s inHand)
    (hm : s.messages[i]? = some (.search e bank))
    (hactive : s.activeEventsInNuca e.bank e ≠ none) (hmiss : ¬ s.Holds cfg bank e.address) :
    Tracked cfg (((s.take i).record (.answersMiss e bank)).send [.missReply e]) inHand := by
  have habout : (NucaMessage.search e bank).isAbout e = true := decide_eq_true rfl
  have hmem := List.mem_of_getElem? hm
  have hplaced := placed_of_about h.placement hmem habout
  have hs : Handled cfg s (((s.take i).record (.answersMiss e bank)).send [.missReply e]) e i
      [.missReply e] [.answersMiss e bank] [] := by
    constructor
    case mshr => rfl
    case waitingList => rfl
    case nextId => rfl
    case tagged => exact h.placement.tagged
    case holds => exact fun _ _ hold => hold
    case messages => rfl
    case history => rfl
    case readsBelow => exact (List.append_nil _).symm
    case active => exact fun _ _ => rfl
    case sent_about =>
      intro m' hm'
      cases List.mem_singleton.mp hm'
      exact ⟨rfl, fun e' hne => decide_eq_false (fun heq => hne heq.symm)⟩
    case sent_placed =>
      intro m' hm'
      cases List.mem_singleton.mp hm'
      exact hplaced
    case sent_line =>
      intro m' hm' a hcarries
      cases List.mem_singleton.mp hm'
      cases hcarries
    case records_about =>
      intro r hr e' hne
      cases List.mem_singleton.mp hr
      exact decide_eq_false (fun heq => hne heq.symm)
    case reads_line => exact fun _ hp => by cases hp
  have hcarriers := hs.carriers hm habout e.address
  have hpending := hs.pendingReplies hm e
  have hhits := hs.hitReplies hm e
  simp [NucaMessage.searchesFor, NucaMessage.carries] at hcarriers hpending hhits
  have hstep := hs.searchStep hm habout hplaced (Or.inl hcarriers)
  apply tracked_searchStep h hstep
  have hrequest := h.tracking.request e
  have hhistory := hs.history
  constructor
  case searching =>
    intro he hzero
    rw [hcarriers] at hzero
    have hsearch := hrequest.searching ((hstep.isHead_iff e).mp he) hzero
    constructor
    case count =>
      rw [hpending]
      exact hsearch.count
    case noHit => exact hhits.trans hsearch.noHit
    case root => exact hsearch.root
    case asked =>
      intro b hb hne
      rw [hs.messages, hhistory]
      by_cases hbank : b = bank
      · rw [hbank]
        exact Or.inr ⟨hmiss, List.mem_append_right _ (List.mem_singleton.mpr rfl)⟩
      · rcases hsearch.asked b hb hne with hsearch | ⟨hnot, hanswer⟩
        · left
          apply List.mem_append_left
          exact mem_take hm hsearch (fun heq => by cases heq; exact hbank rfl)
        · exact Or.inr ⟨hnot, List.mem_append_left _ hanswer⟩
    case notFound =>
      intro b hfound
      rw [hhistory] at hfound
      rcases List.mem_append.mp hfound with hfound | hfound
      · exact hsearch.notFound b hfound
      · cases List.mem_singleton.mp hfound
    case notRead =>
      intro hread
      rw [hhistory] at hread
      rcases List.mem_append.mp hread with hread | hread
      · exact hsearch.notRead hread
      · cases List.mem_singleton.mp hread
  case active =>
    intro c hc
    rw [hstep.isHead_iff, hcarriers, hhits, hpending]
    exact hrequest.active c hc
  case hits =>
    rw [hhits]
    exact hrequest.hits
  case served =>
    intro hmisses
    rw [hhistory] at hmisses
    rw [hstep.isHead_iff, hcarriers, hhistory]
    rcases List.mem_append.mp hmisses with hmisses | hmisses
    · rcases hrequest.served hmisses with hhead | ⟨b, hfound⟩ | hread
      · exact Or.inl hhead
      · exact Or.inr (Or.inl ⟨b, List.mem_append_left _ hfound⟩)
      · exact Or.inr (Or.inr (List.mem_append_left _ hread))
    · cases List.mem_singleton.mp hmisses
  case reads =>
    intro hread
    rw [hhistory] at hread
    rcases List.mem_append.mp hread with hread | hread
    · exact absurd (hrequest.reads hread).inactive hactive
    · cases List.mem_singleton.mp hread

/-- The state after a bank has given its line away. -/
def migrated (s : NucaState) (e : NucaRequest) (bank destination : ℕ) (lines : LineArray Unit) :
    NucaState :=
  ((s.setLines bank lines).record (.finds e bank)).send
    [.migrateBlock destination e.address, .hitReply e]

/-- The bank that has the line gives it away, when the request is the head of its line. -/
theorem tracked_searchHit {lines : LineArray Unit} {destination : ℕ} (h : Tracked cfg s inHand)
    (hm : s.messages[i]? = some (.search e bank)) (hhead : s.IsHead cfg e)
    (hhit : s.Holds cfg bank e.address) (htagged : lines.Tagged cfg.geometry)
    (hlines : ∀ a, lines.stateAt cfg.geometry a =
      if cfg.geometry.SameLine a e.address then .invalid
      else (s.lines bank).stateAt cfg.geometry a)
    (hdestination : destination ∈ cfg.banksOf e.address) :
    Tracked cfg ((s.take i).migrated e bank destination lines) inHand := by
  have habout : (NucaMessage.search e bank).isAbout e = true := decide_eq_true rfl
  have hmem := List.mem_of_getElem? hm
  have hplaced := placed_of_about h.placement hmem habout
  have hzero := h.tracking.alone _ _ hhit
  obtain ⟨⟨c, hc, hcount, -⟩, hnoHit, -, -, -, hnotRead⟩ := h.tracking.searching e hhead hzero
  have hholds : ∀ b a, ((s.take i).migrated e bank destination lines).Holds cfg b a →
      s.Holds cfg b a ∧ ¬ (b = bank ∧ cfg.geometry.SameLine a e.address) := by
    intro b a hold
    have hold := holds_setLines.mp hold
    by_cases hb : b = bank
    · rw [if_pos hb, hlines] at hold
      split at hold
      · exact absurd rfl hold
      · rename_i hline
        rw [hb]
        exact ⟨hold, fun hboth => hline hboth.2⟩
    · rw [if_neg hb] at hold
      exact ⟨hold, fun hboth => hb hboth.1⟩
  have hs : Handled cfg s ((s.take i).migrated e bank destination lines) e i
      [.migrateBlock destination e.address, .hitReply e] [.finds e bank] [] := by
    constructor
    case mshr => rfl
    case waitingList => rfl
    case nextId => rfl
    case tagged =>
      have hlines' := tagged_setLines (s := s.take i) bank h.placement.tagged htagged
      exact hlines'
    case holds => exact fun b a hold => (hholds b a hold).1
    case messages => rfl
    case history => rfl
    case readsBelow => exact (List.append_nil _).symm
    case active => exact fun _ _ => rfl
    case sent_about =>
      intro m' hm'
      rcases List.mem_cons.mp hm' with rfl | hm'
      · exact ⟨rfl, fun _ _ => rfl⟩
      · cases List.mem_singleton.mp hm'
        exact ⟨rfl, fun e' hne => decide_eq_false (fun heq => hne heq.symm)⟩
    case sent_placed =>
      intro m' hm'
      rcases List.mem_cons.mp hm' with rfl | hm'
      · exact hdestination
      · cases List.mem_singleton.mp hm'
        exact hplaced
    case sent_line =>
      intro m' hm' a hcarries
      rcases List.mem_cons.mp hm' with rfl | hm'
      · exact (of_decide_eq_true hcarries).symm
      · cases List.mem_singleton.mp hm'
        cases hcarries
    case records_about =>
      intro r hr e' hne
      cases List.mem_singleton.mp hr
      exact decide_eq_false (fun heq => hne heq.symm)
    case reads_line => exact fun _ hp => by cases hp
  have hcarriers := hs.carriers hm habout e.address
  have hpending := hs.pendingReplies hm e
  have hhits := hs.hitReplies hm e
  have hself : cfg.geometry.SameLine e.address e.address := Geometry.sameLine_refl _ _
  simp [NucaMessage.searchesFor, NucaMessage.carries, hzero] at hcarriers hpending hhits
  have hnone : ∀ b, ¬ ((s.take i).migrated e bank destination lines).Holds cfg b e.address := by
    intro b hold
    obtain ⟨hold, hnot⟩ := hholds b _ hold
    exact hnot ⟨h.tracking.single _ _ _ hold hhit, hself⟩
  have hstep := hs.searchStep hm habout hplaced (Or.inr ⟨hcarriers, hhead, hzero, hnone⟩)
  apply tracked_searchStep h hstep
  constructor
  case searching =>
    intro _ hcarriers'
    omega
  case active =>
    intro c' hc'
    have hsome : s.activeEventsInNuca e.bank e = some c' := hc'
    rw [hc] at hsome
    cases hsome
    right
    exact ⟨by omega, by omega⟩
  case hits =>
    intro _
    refine ⟨by omega, ?_⟩
    have hsome : s.activeEventsInNuca e.bank e ≠ none := by
      rw [hc]
      exact fun heq => by cases heq
    exact hsome
  case served =>
    intro _
    rw [hs.history]
    exact Or.inr (Or.inl ⟨bank, List.mem_append_right _ (List.mem_singleton.mpr rfl)⟩)
  case reads =>
    intro hread
    rw [hs.history] at hread
    rcases List.mem_append.mp hread with hread | hread
    · exact absurd hread hnotRead
    · cases List.mem_singleton.mp hread

/-- The bank does not find the line for a request that is not the head of its line. -/
def Fresh (cfg : NucaConfig) (s : NucaState) (e : NucaRequest) (bank : ℕ) : Prop :=
  s.activeEventsInNuca e.bank e = none ∨ s.waiting cfg e.address = [] ∨
    ¬ s.Holds cfg bank e.address ∨ s.IsHead cfg e

theorem tracked_handleBroadcastAccess (h : Tracked cfg s inHand)
    (hm : s.messages[i]? = some (.search e bank)) (hfresh : s.Fresh cfg e bank)
    (hstep : (s.take i).handleBroadcastAccess cfg e bank = .ok t) : Tracked cfg t inHand := by
  have habout : (NucaMessage.search e bank).isAbout e = true := decide_eq_true rfl
  have hplaced := placed_of_about h.placement (List.mem_of_getElem? hm) habout
  have hactive : (s.take i).activeEventsInNuca = s.activeEventsInNuca := rfl
  have hmshr : (s.take i).mshr = s.mshr := rfl
  have hlines : (s.take i).lines = s.lines := rfl
  have hwaiting := getWaiting_ne_none h.placement e.address
  unfold handleBroadcastAccess at hstep
  rw [hactive, hmshr, hlines] at hstep
  split at hstep
  · rename_i hidle
    cases hstep
    apply tracked_dropped h hm habout (fun heq => by cases heq)
    rcases hidle with hnone | hclosed
    · exact Or.inl hnone
    · right
      intro hhead
      exact hwaiting.mpr hhead.waiting hclosed
  · rename_i hbusy
    obtain ⟨hsearched, hopen⟩ := not_or.mp hbusy
    rcases LineArray.accessAndMark_spec (h.placement.tagged bank) e.address with
      ⟨j, haccess, -, hvalid, htagged, hfound, hstate⟩ | ⟨haccess, hinvalid⟩
    · rw [haccess] at hstep
      have hhead : s.IsHead cfg e := by
        rcases hfresh with hnone | hempty | hnot | hhead
        · exact absurd hnone hsearched
        · exact absurd hempty (hwaiting.mp hopen)
        · exact absurd hvalid hnot
        · exact hhead
      dsimp only [doMigration] at hstep
      split at hstep
      · cases hstep
      · rename_i destination hdestination
        cases hstep
        have hmem := NucaConfig.destination_mem hdestination
        rw [NucaConfig.bankSet_of_mem hplaced] at hmem
        have hmarked : ((s.take i).setLines bank ((s.lines bank).mark j)).lines bank =
            (s.lines bank).mark j := Function.update_self _ _ _
        have htwice : ∀ lines, ((s.take i).setLines bank ((s.lines bank).mark j)).setLines bank
            lines = (s.take i).setLines bank lines := by
          intro lines
          unfold setLines
          dsimp only
          rw [Function.update_idem]
        rw [hmarked, htwice, LineArray.setLine_invalid hfound]
        refine tracked_searchHit h hm hhead hvalid (LineArray.tagged_setState htagged _) ?_ hmem
        intro a
        rw [LineArray.stateAt_setState, hstate]
        have hsome : (((s.lines bank).mark j).access cfg.geometry e.address).isSome := by
          rw [hfound]
          rfl
        by_cases hline : cfg.geometry.SameLine a e.address
        · rw [if_pos ⟨hline, hsome⟩, if_pos hline]
        · rw [if_neg (fun hboth => hline hboth.1), if_neg hline]
    · rw [haccess] at hstep
      dsimp only at hstep
      cases hstep
      have hself := setLines_self (s.take i) bank
      rw [hlines] at hself
      rw [hself]
      exact tracked_searchMiss h hm hsearched (fun hold => hold hinvalid)

end Tejas.NucaState
