import Tejas.LineTracking

/-!
# Notices on channels in order

A notice is a request of the directory to change the state of a line. Where requests of
one channel arrive in the order they were sent, a cache that is no longer a sharer gets
every notice before the request that takes the line away.
-/

namespace Tejas

variable {C : Type}

/-- The directory takes the line from cache `o`, or lets it go. -/
def Dismisses (o : C) (flights : List (Flight (Request C))) : Prop :=
  .sent (.fromDirectory (.evictCacheLine o)) ∈ flights ∨
    .sent (.fromDirectory (.ackEvictCacheLine o)) ∈ flights

/-- Every notice in flight goes to a sharer, or to a cache that is dismissed after it. -/
def NoticesFollowed (sharers : List C) : List (Flight (Request C)) → Prop
  | [] => True
  | f :: rest => (∀ r o, f = .sent r → r.notice = some o → o ∈ sharers ∨ Dismisses o rest) ∧
      NoticesFollowed sharers rest

variable {sharers sharers' : List C} {before after flights more : List (Flight (Request C))}
  {f : Flight (Request C)} {r : Request C} {o c : C}

theorem Dismisses.mono (h : Dismisses o flights) (hsub : flights ⊆ more) : Dismisses o more :=
  h.imp (fun h => hsub h) (fun h => hsub h)

theorem noticesFollowed_of_none (h : ∀ f ∈ flights, f.event.notice = none) :
    NoticesFollowed sharers flights := by
  induction flights with
  | nil => trivial
  | cons f rest ih =>
    refine ⟨?_, ih fun f' hf' => h f' (List.mem_cons_of_mem _ hf')⟩
    rintro r o rfl ho
    have hnone := h (.sent r) List.mem_cons_self
    rw [Flight.event, ho] at hnone
    cases hnone

/-- New flights, with the dismissals of the caches that are no longer sharers. -/
theorem NoticesFollowed.append (h : NoticesFollowed sharers flights)
    (hmore : NoticesFollowed sharers' more)
    (hremoved : ∀ o ∈ sharers, o ∈ sharers' ∨ Dismisses o more) :
    NoticesFollowed sharers' (flights ++ more) := by
  induction flights with
  | nil => exact hmore
  | cons f rest ih =>
    refine ⟨fun r o hf ho => ?_, ih h.2⟩
    rcases h.1 r o hf ho with hshare | hdismissed
    · exact (hremoved o hshare).imp_right fun hd => hd.mono (List.subset_append_right _ _)
    · exact Or.inr (hdismissed.mono (List.subset_append_left _ _))

/-- A delivery in order leaves every dismissal behind its notices. -/
theorem NoticesFollowed.delivered (h : NoticesFollowed sharers (before ++ f :: after))
    (horder : ∀ o, Dismisses o [f] →
      ∀ r, .sent r ∈ before → r.channel ≠ (.directory, .cache o)) :
    NoticesFollowed sharers (before ++ after) := by
  induction before with
  | nil => exact h.2
  | cons first rest ih =>
    refine ⟨fun r o hfirst ho => ?_, ih h.2 fun o hf r hr =>
      horder o hf r (List.mem_cons_of_mem _ hr)⟩
    subst hfirst
    have hchannel : r.channel = (.directory, .cache o) := by
      match r with
      | .fromDirectory (.directoryCachelineForwardRequest _ _) => cases ho; rfl
      | .fromDirectory (.directorySharedToExclusive _) => cases ho; rfl
    rcases h.1 r o rfl ho with hshare | hdismissed
    · exact Or.inl hshare
    · right
      -- the flight delivered is on the channel of the notice, if it dismisses the cache
      by_cases hf : Dismisses o [f]
      · exact absurd hchannel (horder o hf r List.mem_cons_self)
      · have hmem : ∀ f', f' ∈ rest ++ f :: after → f' ≠ f → f' ∈ rest ++ after := by
          intro f' hf' hne
          simpa [hne] using hf'
        simp only [Dismisses, List.mem_singleton, not_or] at hf
        exact hdismissed.imp (fun h' => hmem _ h' hf.1) (fun h' => hmem _ h' hf.2)

theorem NoticesFollowed.notice (h : NoticesFollowed sharers (before ++ .sent r :: after))
    (ho : r.notice = some o) : o ∈ sharers ∨ Dismisses o after := by
  induction before with
  | nil => exact h.1 r o rfl ho
  | cons first rest ih => exact ih h.2

variable [DecidableEq C]

namespace LineState

variable {s t : LineState C} {label : LineLabel C}

/-- The invariant of runs with channels in order. Notices are not put back. -/
structure NoticesOrdered (s : LineState C) : Prop where
  followed : NoticesFollowed s.entry.sharers s.inFlight
  sent : ∀ r, .queued r ∈ s.inFlight → r.notice = none

omit [DecidableEq C] in
theorem noticesOrdered_initial : (initial : LineState C).NoticesOrdered :=
  ⟨trivial, by simp [initial]⟩

/-- What a cache sends is no notice. -/
theorem receive_notice (h : s.Transactional) (heq : s.inFlight = before ++ f :: after)
    {v' : LineView C} {present : Bool} (hchannel : f.event.channel.2 = .cache o)
    (hreceive : (s.views o).receive o present f.event = some (v', flights))
    {f' : Flight (Request C)} (hf' : f' ∈ flights) : f'.event.notice = none := by
  have hf : f ∈ s.inFlight := (mem_of_delivered heq).mpr (Or.inl rfl)
  rcases LineView.receive_cases hchannel hreceive with hwait | ⟨-, -, -, rfl⟩ |
    ⟨state, left, hdone⟩ | ⟨state, -, -, -, rfl | ⟨d, -, -, rfl⟩⟩
  · obtain ⟨req, rfl⟩ := hwait.flights f' hf'
    rfl
  · cases hf'
  · obtain ⟨k, hcarries⟩ := Request.carries_of_completes hdone.completes
    rw [hdone.flights] at hf'
    obtain ⟨r, hr, rfl⟩ := List.mem_map.mp hf'
    exact (h.left_waits hf hcarries (satisfy_suffix hdone.satisfy) r hr).notice
  · cases hf'
  · rw [List.mem_singleton.mp hf']
    rfl

omit [DecidableEq C] in
theorem noticesFollowed_replies {e' : DirectoryEntry C} {replies : List (Reply C)}
    (h : ∀ before reply after o, replies = before ++ reply :: after →
      (Request.fromDirectory reply).notice = some o →
        o ∈ e'.sharers ∨ .evictCacheLine o ∈ after) :
    NoticesFollowed e'.sharers (replies.map (fun reply => .sent (.fromDirectory reply))) := by
  induction replies with
  | nil => trivial
  | cons reply rest ih =>
    refine ⟨fun r o hr ho => ?_, ih fun before reply' after o heq ho =>
      h (reply :: before) reply' after o (by rw [heq]; rfl) ho⟩
    cases hr
    exact (h [] reply rest o rfl ho).imp_right fun hevict =>
      Or.inl (List.mem_map_of_mem (f := fun reply => Flight.sent (Request.fromDirectory reply))
        hevict)

theorem NoticesOrdered.of_receive (hnotices : s.NoticesOrdered) (h : s.Transactional)
    {present : Bool} (heq : s.inFlight = before ++ f :: after)
    (horder : ∀ o, Dismisses o [f] →
      ∀ r, .sent r ∈ before → r.channel ≠ (.directory, .cache o))
    (hreceive : receive { s with inFlight := before ++ after } present f.event = some t) :
    t.NoticesOrdered := by
  have hfollowed : NoticesFollowed s.entry.sharers (before ++ after) := by
    have hall := hnotices.followed
    rw [heq] at hall
    exact hall.delivered horder
  have hsent : ∀ more : List (Flight (Request C)), (∀ f' ∈ more, f'.event.notice = none) →
      ∀ r, .queued r ∈ before ++ after ++ more → r.notice = none := by
    intro more hmore r hr
    rcases List.mem_append.mp hr with hr | hr
    · exact hnotices.sent r ((mem_of_delivered heq).mpr (Or.inr hr))
    · exact hmore _ hr
  have hplain : ∀ more : List (Flight (Request C)), (∀ f' ∈ more, f'.event.notice = none) →
      NoticesFollowed s.entry.sharers (before ++ after ++ more) := fun more hmore =>
    hfollowed.append (noticesFollowed_of_none hmore) fun o ho => Or.inl ho
  rcases f.event.receiver_cases with ⟨o, hchannel⟩ | ⟨req, hr⟩ | ⟨o, hr⟩ | ⟨o, hr⟩ | ⟨o, hr⟩
  · rw [receive_of_cache hchannel] at hreceive
    obtain ⟨⟨v', flights⟩, hview, rfl⟩ := Option.map_eq_some_iff.mp hreceive
    have hmore : ∀ f' ∈ flights, f'.event.notice = none := fun f' hf' =>
      receive_notice h heq hchannel hview hf'
    exact ⟨hplain flights hmore, hsent flights hmore⟩
  · obtain ⟨e', replies, hh, -⟩ := DirectoryEntry.handle_consistent h.consistent req
    rw [hr, receive_toDirectory (s := { s with inFlight := before ++ after }) hh] at hreceive
    cases hreceive
    have hanswers := handle_answers h.consistent hh
    constructor
    · refine hfollowed.append (noticesFollowed_replies hanswers.noticed) fun o ho => ?_
      by_cases hkeep : o ∈ e'.sharers
      · exact Or.inl hkeep
      · right
        rcases hanswers.removed o ho hkeep with hevict | ⟨-, hack⟩
        · exact Or.inl (List.mem_map_of_mem hevict)
        · exact Or.inr (List.mem_map_of_mem hack)
    · intro r hr'
      rcases List.mem_append.mp hr' with hr' | hr'
      · exact hnotices.sent r ((mem_of_delivered heq).mpr (Or.inr hr'))
      · obtain ⟨reply, -, hreply⟩ := List.mem_map.mp hr'
        cases hreply
  · rw [hr] at hreceive
    cases hreceive
    have hmore : ∀ f' ∈ [Flight.sent (Request.memResponse none o)], f'.event.notice = none := by
      simp [Flight.event, Request.notice]
    exact ⟨hplain _ hmore, hsent _ hmore⟩
  all_goals
    rw [hr] at hreceive
    cases hreceive
    exact ⟨hfollowed, fun r hr => hnotices.sent r ((mem_of_delivered heq).mpr (Or.inr hr))⟩

/-- Where channels are in order, a notice is tracked. -/
theorem NoticesOrdered.noticeTracked (hnotices : s.NoticesOrdered) (h : s.Transactional)
    (hstep : Step s label t) : s.NoticeTracked label := by
  cases label with
  | deliver before flight after present =>
    intro o ho _ _
    obtain ⟨heq, -⟩ := hstep
    cases flight with
    | queued r =>
      have hnone := hnotices.sent r (by rw [heq]; simp)
      rw [Flight.event, hnone] at ho
      cases ho
    | sent r =>
      have hfollowed := hnotices.followed
      rw [heq] at hfollowed
      refine (hfollowed.notice ho).imp_right fun hdismissed => ?_
      rcases hdismissed with hevict | hack
      · exact Or.inl ⟨_, (mem_of_delivered heq).mpr (Or.inr (List.mem_append_right _ hevict)),
          rfl⟩
      · have hmem : .sent (.fromDirectory (.ackEvictCacheLine o)) ∈ s.inFlight := by
          rw [heq]
          simp [hack]
        exact Or.inr (h.eviction_pending hmem rfl)
  | _ => trivial

theorem NoticesOrdered.step (hnotices : s.NoticesOrdered) (h : s.Transactional)
    (horder : s.InOrder label) (hstep : Step s label t) : t.NoticesOrdered := by
  cases label with
  | access o isWrite =>
    have hr := waits_accessRequest o isWrite
    have hsent : NoticesOrdered
        { s with inFlight := [.queued (accessRequest o isWrite)] ++ s.inFlight } := by
      refine ⟨⟨nofun, hnotices.followed⟩, fun r hr' => ?_⟩
      rcases List.mem_cons.mp hr' with heq | hr'
      · cases heq
        exact hr.notice
      · exact hnotices.sent r hr'
    have hopen : Transactional
        { s with inFlight := [.queued (accessRequest o isWrite)] ++ s.inFlight } := by
      refine ⟨h.consistent, fun c => ?_⟩
      rw [tokensOf_append, tokensOf_cons, tokensOf_nil, Flight.event, hr.tokens]
      exact h.one c
    have hreceive : receive { s with inFlight := [] ++ s.inFlight } true
        (Flight.queued (accessRequest o isWrite)).event = some t := hstep
    refine hsent.of_receive hopen rfl (fun o hf => ?_) hreceive
    simp [Dismisses] at hf
  | deliver before flight after present =>
    obtain ⟨heq, hreceive⟩ := hstep
    refine hnotices.of_receive h heq ?_ hreceive
    intro o hf
    simp only [Dismisses, List.mem_singleton] at hf
    rcases hf with rfl | rfl <;> exact horder
  | postpone before flight after =>
    obtain ⟨heq, rfl, hresponse⟩ := hstep
    have hnone : flight.event.notice = none := by
      rcases hresponse with ⟨source, c, hr⟩ | ⟨c, hr⟩ <;> rw [hr] <;> rfl
    have hfollowed := hnotices.followed
    rw [heq] at hfollowed
    constructor
    · refine (hfollowed.delivered fun o hf => ?_).append (noticesFollowed_of_none ?_)
        fun o ho => Or.inl ho
      · -- a response dismisses no cache
        simp only [Dismisses, List.mem_singleton] at hf
        rcases hf with rfl | rfl <;> rcases hresponse with ⟨_, _, hr⟩ | ⟨_, hr⟩ <;> cases hr
      · simpa [Flight.event] using hnone
    · intro r hr
      rcases List.mem_append.mp hr with hr | hr
      · exact hnotices.sent r ((mem_of_delivered heq).mpr (Or.inr hr))
      · cases List.mem_singleton.mp hr
        exact hnone
  | replaceLine o =>
    obtain ⟨-, -, rfl⟩ := hstep
    constructor
    · refine hnotices.followed.append (noticesFollowed_of_none ?_) fun o ho => Or.inl ho
      simp [Flight.event, Request.notice]
    · intro r hr
      rcases List.mem_append.mp hr with hr | hr
      · exact hnotices.sent r hr
      · cases List.mem_singleton.mp hr
  | replaceEntry =>
    cases hstep
    constructor
    · refine hnotices.followed.append (noticesFollowed_of_none ?_) fun o ho => ?_
      · intro f hf
        obtain ⟨c, -, rfl⟩ := List.mem_map.mp hf
        rfl
      · exact Or.inr (Or.inl (List.mem_map_of_mem
          (f := fun c => Flight.sent (Request.fromDirectory (.evictCacheLine c))) ho))
    · intro r hr
      rcases List.mem_append.mp hr with hr | hr
      · exact hnotices.sent r hr
      · obtain ⟨c, -, hc⟩ := List.mem_map.mp hr
        cases hc
  | evictShared =>
    cases hstep
    constructor
    · refine hnotices.followed.append (noticesFollowed_of_none ?_) fun o ho => Or.inl ho
      simp [Flight.event, Request.notice]
    · intro r hr
      rcases List.mem_append.mp hr with hr | hr
      · exact hnotices.sent r hr
      · cases List.mem_singleton.mp hr

end LineState

end Tejas
