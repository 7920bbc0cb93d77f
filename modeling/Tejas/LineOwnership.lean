import Tejas.LineTracking

/-!
# The owner of a modified line

A cache that has modified the line is the only sharer of the directory entry, or will
lose the right to write to an invalidation or a forward request. This holds as long as no
cache writes to a line the directory has given to others as well.
-/

namespace Tejas

variable {C : Type} {v v' : LineView C} {c o : C} {r : Request C}

/-- Waiting requests that leave the line modified have a write among them, unless it was
modified before. -/
theorem satisfy_modified {state : MESI} {pending left : List (Request C)}
    (h : LineView.satisfy state pending = some (.modified, left)) :
    state = .modified ∨ ∃ r ∈ pending, LineView.isCacheWrite r = true := by
  fun_induction LineView.satisfy state pending with
  | case1 =>
    cases h
    exact Or.inl rfl
  | case2 => cases h
  | case3 state c' rest hstate ih => exact Or.inr ⟨_, List.mem_cons_self, rfl⟩
  | case4 => cases h
  | case5 => cases h
  | case6 state r₀ rest _ hnotEvicted hnotEvict ih =>
    rcases ih h with hmodified | ⟨r, hr, hw⟩
    · exact Or.inl hmodified
    · exact Or.inr ⟨r, List.mem_cons_of_mem _ hr, hw⟩

variable [DecidableEq C]

/-- The cache that forwards the line by a request. -/
def Request.forwards : Request C → Option C
  | .fromDirectory (.directoryCachelineForwardRequest o _) => some o
  | _ => none

omit [DecidableEq C] in
theorem Request.eq_of_forwards (h : r.forwards = some c) :
    ∃ d, r = .fromDirectory (.directoryCachelineForwardRequest c d) := by
  match r with
  | .fromDirectory (.directoryCachelineForwardRequest o d) =>
    cases h
    exact ⟨d, rfl⟩

namespace LineState

variable {s t : LineState C} {label : LineLabel C}

/-- The directory takes the cache for the owner, or has sent what will end its right to
write. -/
def Claimed (s : LineState C) (c : C) : Prop :=
  s.entry.sharers = [c] ∨ ∃ f ∈ s.inFlight,
    f.event = .fromDirectory (.evictCacheLine c) ∨ f.event.forwards = some c

/-- A response makes a write that waits for the line in the cache modify it. -/
def Upgrades (s : LineState C) (r : Request C) (c : C) : Prop :=
  r.completes = some c ∧ (∃ w ∈ (s.views c).pending, LineView.isCacheWrite w = true) ∧
    ∀ r' ∈ (s.views c).pending, ¬ IsEviction c r'

/-- No write is carried out that the directory does not know of. -/
def WriteClaimed (s : LineState C) : LineLabel C → Prop
  | .deliver _ flight _ _ => ∀ c, s.Upgrades flight.event c → s.Claimed c
  | _ => True

/-- A modified line waits for nothing, and is claimed. -/
def Owned (s : LineState C) (c : C) : Prop :=
  (s.views c).state = .modified → (s.views c).pending = [] ∧ s.Claimed c

section Deliver

variable {f : Flight (Request C)} {before after flights : List (Flight (Request C))}
  {present : Bool}

omit [DecidableEq C] in
/-- A claim by a request other than the delivered one stays. -/
theorem Claimed.of_delivered (h : s.Claimed c) (heq : s.inFlight = before ++ f :: after)
    (hevict : f.event ≠ .fromDirectory (.evictCacheLine c))
    (hforward : f.event.forwards ≠ some c)
    (hviews : t.entry = s.entry) (hflights : t.inFlight = before ++ after ++ flights) :
    t.Claimed c := by
  rw [Claimed, hviews, hflights]
  refine h.imp_right fun ⟨f', hf', hr⟩ => ?_
  rcases (mem_of_delivered heq).mp hf' with rfl | hf'
  · rcases hr with hr | hr
    · exact absurd hr hevict
    · exact absurd hr hforward
  · exact ⟨f', List.mem_append_left _ hf', hr⟩

theorem Owned.receive_self (h : s.Transactional) (howned : s.Owned c)
    (heq : s.inFlight = before ++ f :: after) (hchannel : f.event.channel.2 = .cache c)
    (hreceive : (s.views c).receive c present f.event = some (v', flights))
    (hwrite : s.Upgrades f.event c → s.Claimed c) :
    (setView { s with inFlight := before ++ after } c v' flights).Owned c := by
  have hf : f ∈ s.inFlight := (mem_of_delivered heq).mpr (Or.inl rfl)
  intro hmodified
  rw [setView_views_self] at hmodified ⊢
  rcases LineView.receive_cases hchannel hreceive with hwait | ⟨-, -, rfl, -⟩ |
    ⟨state, left, hdone⟩ | ⟨state, hr, rfl, hstate, -⟩
  · -- a modified line is hit, and an invalidation does not wait
    obtain ⟨hpending, hclaimed⟩ := howned (hwait.state.symm.trans hmodified)
    have hnil := hwait.hit (hwait.state.symm.trans hmodified) hpending
    refine ⟨hnil, hclaimed.of_delivered heq ?_ ?_ rfl rfl⟩
    · intro hr
      have hmem := hwait.eviction hr
      rw [hnil] at hmem
      cases hmem
    · rcases hwait.waits with hr | hr | hr <;> rw [hr] <;> nofun
  · cases hmodified
  · -- the transaction ends with a write
    refine ⟨hdone.pending, ?_⟩
    have hsat := hdone.satisfy
    rw [hmodified] at hsat
    obtain ⟨k, hcarries⟩ := Request.carries_of_completes hdone.completes
    have hstate : state ≠ .modified := by
      rintro rfl
      rcases hdone.state with ⟨-, hs⟩ | ⟨hs, -⟩
      · cases hs
      · obtain ⟨hpending, -⟩ := howned hs.symm
        obtain ⟨-, r, rest, hcons, -⟩ := h.token heq hcarries
        rw [hpending] at hcons
        cases hcons
    have hclaimed := hwrite ⟨hdone.completes, (satisfy_modified hsat).resolve_left hstate,
      fun r hr he => by cases satisfy_evicts hsat hr he⟩
    refine hclaimed.of_delivered heq ?_ ?_ rfl rfl
    · intro hr
      have hcompletes := hdone.completes
      rw [hr] at hcompletes
      cases hcompletes
    · intro hr
      obtain ⟨d, hr⟩ := Request.eq_of_forwards hr
      have hcompletes := hdone.completes
      rw [hr] at hcompletes
      cases hcompletes
  · -- a notice makes no line modified
    rw [LineView.change] at hmodified
    split at hmodified
    · rcases hstate with rfl | rfl <;> cases hmodified
    · rename_i hkeep
      rw [not_or, not_not] at hkeep
      rw [hkeep.2] at hmodified
      cases hmodified

theorem Owned.of_receive (h : s.Transactional) (howned : s.Owned c)
    (heq : s.inFlight = before ++ f :: after)
    (hreceive : receive { s with inFlight := before ++ after } present f.event = some t)
    (hwrite : s.Upgrades f.event c → s.Claimed c) : t.Owned c := by
  have hf : f ∈ s.inFlight := (mem_of_delivered heq).mpr (Or.inl rfl)
  rcases f.event.receiver_cases with ⟨o, hchannel⟩ | ⟨req, hr⟩ | ⟨o, hr⟩ | ⟨o, hr⟩ | ⟨o, hr⟩
  · rw [receive_of_cache hchannel] at hreceive
    obtain ⟨⟨v', flights⟩, hview, rfl⟩ := Option.map_eq_some_iff.mp hreceive
    by_cases hc : c = o
    · subst hc
      exact howned.receive_self h heq hchannel hview hwrite
    · intro hmodified
      rw [setView_views_of_ne _ hc] at hmodified ⊢
      obtain ⟨hpending, hclaimed⟩ := howned hmodified
      refine ⟨hpending, hclaimed.of_delivered heq ?_ ?_ rfl rfl⟩
      · intro hr
        rw [hr] at hchannel
        exact hc (Element.cache.inj hchannel)
      · intro hr
        obtain ⟨d, hr⟩ := Request.eq_of_forwards hr
        rw [hr] at hchannel
        exact hc (Element.cache.inj hchannel)
  · obtain ⟨e', replies, hh, -⟩ := DirectoryEntry.handle_consistent h.consistent req
    rw [hr, receive_toDirectory (s := { s with inFlight := before ++ after }) hh] at hreceive
    cases hreceive
    intro hmodified
    obtain ⟨hpending, hclaimed⟩ := howned hmodified
    refine ⟨hpending, ?_⟩
    rcases hclaimed with hsharers | ⟨f', hf', hclaim⟩
    · -- the directory keeps the owner, or tells it
      rcases (handle_answers h.consistent hh).owner c hsharers with
        hkeep | hevict | ⟨d, hforward⟩ | rfl
      · exact Or.inl hkeep
      · exact Or.inr ⟨_, List.mem_append_right _ (List.mem_map_of_mem hevict), Or.inl rfl⟩
      · exact Or.inr ⟨_, List.mem_append_right _ (List.mem_map_of_mem hforward),
          Or.inr rfl⟩
      · obtain ⟨r, hr', -⟩ := h.eviction_pending hf (by rw [hr]; rfl)
        rw [hpending] at hr'
        cases hr'
    · right
      rcases (mem_of_delivered heq).mp hf' with rfl | hf'
      · rw [hr] at hclaim
        rcases hclaim with hclaim | hclaim <;> cases hclaim
      · exact ⟨f', List.mem_append_left _ hf', hclaim⟩
  all_goals
    have hevict : f.event ≠ .fromDirectory (.evictCacheLine c) := by
      rw [hr]
      nofun
    have hforward : f.event.forwards ≠ some c := by
      rw [hr]
      nofun
    rw [hr] at hreceive
    cases hreceive
    intro hmodified
    obtain ⟨hpending, hclaimed⟩ := howned hmodified
  · exact ⟨hpending, hclaimed.of_delivered heq hevict hforward rfl rfl⟩
  · exact ⟨hpending, hclaimed.of_delivered heq hevict hforward rfl (List.append_nil _).symm⟩
  · exact ⟨hpending, hclaimed.of_delivered heq hevict hforward rfl (List.append_nil _).symm⟩

end Deliver

omit [DecidableEq C] in
theorem Claimed.of_sent {more : List (Flight (Request C))} (h : s.Claimed c)
    (hentry : t.entry = s.entry) (hflights : t.inFlight = s.inFlight ++ more) : t.Claimed c := by
  rw [Claimed, hentry, hflights]
  exact h.imp_right fun ⟨f, hf, hr⟩ => ⟨f, List.mem_append_left _ hf, hr⟩

theorem owned_step (h : s.Transactional) (howned : ∀ c, s.Owned c) (hstep : Step s label t)
    (hwrite : s.WriteClaimed label) (c : C) : t.Owned c := by
  cases label with
  | access o isWrite =>
    have hr := waits_accessRequest o isWrite
    have hsent : Owned { s with inFlight := s.inFlight ++ [.sent (accessRequest o isWrite)] } c :=
      fun hmodified => (howned c hmodified).imp_right fun hclaimed =>
        hclaimed.of_sent rfl rfl
    have hreceive : receive { s with inFlight := s.inFlight ++ [] } true
        (Flight.sent (accessRequest o isWrite)).event = some t := by
      rw [List.append_nil]
      exact hstep
    refine hsent.of_receive (h.of_access hr) rfl hreceive fun hupgrades => ?_
    obtain ⟨hcompletes, -⟩ := hupgrades
    cases isWrite <;> cases hcompletes
  | deliver before flight after present =>
    obtain ⟨heq, hreceive⟩ := hstep
    exact (howned c).of_receive h heq hreceive (hwrite c)
  | postpone before flight after =>
    obtain ⟨heq, rfl, hresponse⟩ := hstep
    intro hmodified
    obtain ⟨hpending, hclaimed⟩ := howned c hmodified
    refine ⟨hpending, hclaimed.of_delivered heq ?_ ?_ rfl rfl⟩
    · rcases hresponse with ⟨_, _, hr⟩ | ⟨_, hr⟩ <;> rw [hr] <;> nofun
    · rcases hresponse with ⟨_, _, hr⟩ | ⟨_, hr⟩ <;> rw [hr] <;> nofun
  | replaceLine o =>
    obtain ⟨-, -, rfl⟩ := hstep
    intro hmodified
    by_cases hc : c = o
    · subst hc
      rw [setView_views_self] at hmodified
      cases hmodified
    · rw [setView_views_of_ne s hc] at hmodified ⊢
      exact (howned c hmodified).imp_right fun hclaimed => hclaimed.of_sent rfl rfl
  | replaceEntry =>
    cases hstep
    intro hmodified
    obtain ⟨hpending, hclaimed⟩ := howned c hmodified
    refine ⟨hpending, Or.inr ?_⟩
    rcases hclaimed with hsharers | ⟨f, hf, hr⟩
    · refine ⟨.sent (.fromDirectory (.evictCacheLine c)), List.mem_append_right _ ?_, Or.inl rfl⟩
      simp [hsharers]
    · exact ⟨f, List.mem_append_left _ hf, hr⟩
  | evictShared =>
    cases hstep
    exact fun hmodified => (howned c hmodified).imp_right fun hclaimed => hclaimed.of_sent rfl rfl

omit [DecidableEq C] in
/-- Once nothing is in flight, the copy of an owner is the only one. -/
theorem Owned.single_writer (howned : s.Owned c) (htracked : s.Tracked o)
    (hflights : s.inFlight = []) (hpending : (s.views o).pending = [])
    (hmodified : (s.views c).state = .modified) (hvalid : (s.views o).state ≠ .invalid) :
    o = c := by
  have hsharers : s.entry.sharers = [c] := by
    obtain ⟨-, hsharers | ⟨f, hf, -⟩⟩ := howned hmodified
    · exact hsharers
    · rw [hflights] at hf
      cases hf
  rcases htracked (Or.inl hvalid) with hshare | ⟨f, hf, -⟩ | ⟨r, hr, -⟩
  · simpa [hsharers] using hshare
  · rw [hflights] at hf
    cases hf
  · rw [hpending] at hr
    cases hr

instance (s : LineState C) (c : C) : Decidable (s.EvictPending c) :=
  inferInstanceAs (Decidable (_ ∨ ∃ r ∈ _, _ ∨ _))

instance (s : LineState C) (c : C) : Decidable (s.Claimed c) :=
  inferInstanceAs (Decidable (_ ∨ _))

instance (s : LineState C) (r : Request C) (c : C) : Decidable (s.Upgrades r c) :=
  inferInstanceAs (Decidable (_ ∧ _ ∧ ∀ r' ∈ _, ¬ (_ ∨ _)))

end LineState

end Tejas
