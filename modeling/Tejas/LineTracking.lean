import Tejas.LineTransactions

/-!
# The directory tracks every copy of a line

A cache that has the line, or will be given it, is a sharer of the directory entry or is
going to give the line up. What can break this is a change of state that reaches a cache
after it has lost the line: where requests of one channel arrive in order, such a notice
only finds a cache that is a sharer or is going to give the line up.
-/

namespace Tejas

variable {C : Type}

/-- The cache that gets the line by a request: the directory has been told of it. -/
def Request.grants : Request C → Option C
  | .memResponse _ c => some c
  | .fromDirectory (.cacheRead c) => some c
  | .fromDirectory (.memResponse c) => some c
  | .fromDirectory (.directoryCachelineForwardRequest _ c) => some c
  | _ => none

/-- The cache whose line changes its state on request of the directory. -/
def Request.notice : Request C → Option C
  | .fromDirectory (.directoryCachelineForwardRequest o _) => some o
  | .fromDirectory (.directorySharedToExclusive o) => some o
  | _ => none

/-- The cache whose transaction ends with a request. -/
def Request.completes : Request C → Option C
  | .memResponse _ c => some c
  | .fromDirectory (.memResponse c) => some c
  | .fromDirectory (.ackDirectoryWriteHit c) => some c
  | .fromDirectory (.ackEvictCacheLine c) => some c
  | _ => none

/-- A waiting request that gives the line up once it is served. -/
def IsEviction (c : C) (r : Request C) : Prop :=
  r = .fromDirectory (.evictCacheLine c) ∨
    r = .toDirectory (.directoryEvictedFromCoherentCache c)

variable {v v' : LineView C} {c o : C} {r : Request C} {k : Transaction} {present : Bool}
  {flights : List (Flight (Request C))}

theorem Request.carries_of_grants (h : r.grants = some c) : r.carries = some (c, .miss) := by
  match r with
  | .memResponse _ _ => cases h; rfl
  | .fromDirectory (.cacheRead _) => cases h; rfl
  | .fromDirectory (.memResponse _) => cases h; rfl
  | .fromDirectory (.directoryCachelineForwardRequest _ _) => cases h; rfl

theorem Request.carries_of_completes (h : r.completes = some c) :
    ∃ k, r.carries = some (c, k) := by
  match r with
  | .memResponse _ _ => cases h; exact ⟨_, rfl⟩
  | .fromDirectory (.memResponse _) => cases h; exact ⟨_, rfl⟩
  | .fromDirectory (.ackDirectoryWriteHit _) => cases h; exact ⟨_, rfl⟩
  | .fromDirectory (.ackEvictCacheLine _) => cases h; exact ⟨_, rfl⟩

theorem Waits.grants (h : Waits c r) : r.grants = none := by
  rcases h with rfl | rfl | rfl <;> rfl

theorem Waits.notice (h : Waits c r) : r.notice = none := by
  rcases h with rfl | rfl | rfl <;> rfl

theorem subset_enqueue (pending : List (Request C)) (r : Request C) :
    pending ⊆ LineView.enqueue pending r := by
  rcases enqueue_eq pending r with heq | heq
  · rw [heq]
    exact List.Subset.refl _
  · rw [heq]
    exact List.subset_append_left _ _

/-! ### What a cache makes of its waiting requests -/

/-- An eviction among the waiting requests leaves the line invalid. -/
theorem satisfy_evicts {state state' : MESI} {pending left : List (Request C)}
    (h : LineView.satisfy state pending = some (state', left)) (hr : r ∈ pending)
    (hevict : IsEviction c r) : state' = .invalid := by
  fun_induction LineView.satisfy state pending with
  | case1 => cases hr
  | case2 => cases h
  | case3 state c' rest hstate ih =>
    rcases List.mem_cons.mp hr with rfl | hr
    · rcases hevict with heq | heq <;> cases heq
    · exact ih h hr
  | case4 =>
    cases h
    rfl
  | case5 =>
    cases h
    rfl
  | case6 state r₀ rest _ hnotEvicted hnotEvict ih =>
    rcases List.mem_cons.mp hr with rfl | hr
    · rcases hevict with rfl | rfl
      · exact absurd rfl (hnotEvict c)
      · exact absurd rfl (hnotEvicted c)
    · exact ih h hr

theorem satisfy_suffix {state state' : MESI} {pending left : List (Request C)}
    (h : LineView.satisfy state pending = some (state', left)) : left <:+ pending.tail := by
  fun_induction LineView.satisfy state pending with
  | case1 =>
    cases h
    exact List.suffix_refl _
  | case2 => cases h
  | case3 state c' rest hstate ih => exact (ih h).trans (List.tail_suffix _)
  | case4 =>
    cases h
    exact List.suffix_refl _
  | case5 =>
    cases h
    exact List.suffix_refl _
  | case6 state r₀ rest _ hnotEvicted hnotEvict ih => exact (ih h).trans (List.tail_suffix _)

/-- A transaction that ends in a cache: `state` is the one the waiting requests are
served in. -/
structure LineView.Completes (v v' : LineView C) (c : C) (r : Request C)
    (flights : List (Flight (Request C))) (state : MESI) (left : List (Request C)) : Prop where
  satisfy : LineView.satisfy state v.pending = some (v'.state, left)
  pending : v'.pending = []
  flights : flights = left.map .queued
  completes : r.completes = some c
  state : r.grants = some c ∧ state = .shared ∨ state = v.state ∧
    (v.state ≠ .invalid ∨ r.carries = some (c, .eviction))

/-- A request that waits, or opens a transaction, or is answered at once. -/
structure LineView.Enqueues (v v' : LineView C) (c : C) (r : Request C)
    (flights : List (Flight (Request C))) : Prop where
  waits : Waits c r
  state : v'.state = v.state
  pending : v.pending ⊆ v'.pending
  eviction : r = .fromDirectory (.evictCacheLine c) → r ∈ v'.pending
  hit : v.state = .modified → v.pending = [] → v'.pending = []
  flights : ∀ f ∈ flights, ∃ req, f = .sent (.toDirectory req)

theorem LineView.completes_of_complete {state : MESI}
    (h : v.complete state = some (v', flights)) (hcompletes : r.completes = some c)
    (hstate : r.grants = some c ∧ state = .shared ∨ state = v.state ∧
      (v.state ≠ .invalid ∨ r.carries = some (c, .eviction))) :
    ∃ state left, v.Completes v' c r flights state left := by
  rw [LineView.complete] at h
  split at h
  · cases h
  · obtain ⟨⟨state', left⟩, hsat, heq⟩ := Option.map_eq_some_iff.mp h
    cases heq
    exact ⟨state, left, hsat, rfl, rfl, hcompletes, hstate⟩

/-- What a cache does on a request: the request waits or is answered, or takes the line,
or ends the transaction, or changes the state. -/
theorem LineView.receive_cases (hchannel : r.channel.2 = .cache c)
    (h : v.receive c present r = some (v', flights)) :
    v.Enqueues v' c r flights ∨
    (r = .fromDirectory (.evictCacheLine c) ∧ v.pending = [] ∧ v' = ⟨.invalid, []⟩ ∧
      flights = []) ∨
    (∃ state left, v.Completes v' c r flights state left) ∨
    ∃ state, r.notice = some c ∧ v' = v.change present state ∧
      (state = .shared ∨ state = .exclusive) ∧
      (flights = [] ∨ ∃ d, r = .fromDirectory (.directoryCachelineForwardRequest c d) ∧
        state = .shared ∧ flights = [.sent (.memResponse (some c) d)]) := by
  match r with
  | .cacheRead c' =>
    cases hchannel
    left
    have hr : Waits c (.cacheRead c) := Or.inl rfl
    rw [LineView.receive] at h
    split at h
    · rename_i hpending
      cases h
      exact ⟨hr, rfl, subset_enqueue v.pending (.cacheRead c), (by rintro ⟨⟩),
        fun _ hnil => absurd hnil hpending, by simp⟩
    · rename_i hpending
      split at h
      · rename_i hstate
        cases h
        exact ⟨hr, rfl, by simp [not_not.mp hpending], (by rintro ⟨⟩), by simp [hstate], by simp⟩
      · cases h
        exact ⟨hr, rfl, List.Subset.refl _, (by rintro ⟨⟩), fun _ hnil => hnil, by simp⟩
  | .cacheWrite c' =>
    cases hchannel
    left
    have hr : Waits c (.cacheWrite c) := Or.inr (Or.inl rfl)
    rw [LineView.receive] at h
    split at h
    · rename_i hpending
      cases h
      exact ⟨hr, rfl, subset_enqueue v.pending (.cacheWrite c), (by rintro ⟨⟩),
        fun _ hnil => absurd hnil hpending, by simp⟩
    · rename_i hpending
      split at h
      · rename_i hstate
        cases h
        exact ⟨hr, rfl, by simp [not_not.mp hpending], (by rintro ⟨⟩), by simp [hstate], by simp⟩
      · split at h
        · cases h
          exact ⟨hr, rfl, List.Subset.refl _, (by rintro ⟨⟩), fun _ hnil => hnil, by simp⟩
        · rename_i hclean
          cases h
          exact ⟨hr, rfl, by simp [not_not.mp hpending], (by rintro ⟨⟩),
            fun hstate => absurd hstate hclean, by simp⟩
  | .memResponse source c' =>
    have hc : c' = c := by cases source <;> exact Element.cache.inj hchannel
    subst hc
    exact Or.inr (Or.inr (Or.inl (completes_of_complete h rfl (Or.inl ⟨rfl, rfl⟩))))
  | .toDirectory req => cases req <;> cases hchannel
  | .fromDirectory (.evictCacheLine c') =>
    cases hchannel
    rw [LineView.receive] at h
    split at h
    · rename_i hpending
      cases h
      refine Or.inl ⟨Or.inr (Or.inr rfl), rfl,
        subset_enqueue v.pending (.fromDirectory (.evictCacheLine c)), fun _ => ?_,
        fun _ hnil => absurd hnil hpending, by simp⟩
      simp [LineView.enqueue, LineView.isCacheWrite]
    · rename_i hpending
      have hnil := not_not.mp hpending
      cases h
      refine Or.inr (Or.inl ⟨rfl, hnil, ?_, rfl⟩)
      rw [hnil]
  | .fromDirectory (.ackEvictCacheLine c') =>
    cases hchannel
    exact Or.inr (Or.inr (Or.inl (completes_of_complete h rfl (Or.inr ⟨rfl, Or.inr rfl⟩))))
  | .fromDirectory (.ackDirectoryWriteHit c') =>
    cases hchannel
    rw [LineView.receive] at h
    split at h
    · cases h
    · rename_i hvalid
      exact Or.inr (Or.inr (Or.inl (completes_of_complete h rfl
        (Or.inr ⟨rfl, Or.inl hvalid⟩))))
  | .fromDirectory (.memResponse c') =>
    cases hchannel
    exact Or.inr (Or.inr (Or.inl (completes_of_complete h rfl (Or.inl ⟨rfl, rfl⟩))))
  | .fromDirectory (.directoryCachelineForwardRequest o d) =>
    cases hchannel
    cases h
    exact Or.inr (Or.inr (Or.inr ⟨.shared, rfl, rfl, Or.inl rfl, Or.inr ⟨d, rfl, rfl, rfl⟩⟩))
  | .fromDirectory (.directorySharedToExclusive c') =>
    cases hchannel
    cases h
    exact Or.inr (Or.inr (Or.inr ⟨.exclusive, rfl, rfl, Or.inr rfl, Or.inl rfl⟩))
  | .fromDirectory (.cacheRead c') => cases hchannel
  | .writeThrough c' => cases hchannel
  | .acknowledgement c' => cases hchannel

/-! ### What the directory does -/

variable [DecidableEq C] {e e' : DirectoryEntry C} {req : DirectoryRequest C}
  {replies : List (Reply C)}

/-- What the replies say of the sharers: who is removed is told, or has asked for it; a
notice goes to a sharer, or is followed by an invalidation; who gets the line is a
sharer; and a single sharer stays the only one, or is told. -/
structure DirectoryEntry.Answers (e e' : DirectoryEntry C) (req : DirectoryRequest C)
    (replies : List (Reply C)) : Prop where
  removed : ∀ o ∈ e.sharers, o ∉ e'.sharers → .evictCacheLine o ∈ replies ∨
    req = .directoryEvictedFromCoherentCache o ∧ .ackEvictCacheLine o ∈ replies
  noticed : ∀ before reply after o, replies = before ++ reply :: after →
    (Request.fromDirectory reply).notice = some o →
      o ∈ e'.sharers ∨ .evictCacheLine o ∈ after
  granted : ∀ reply ∈ replies, ∀ c, (Request.fromDirectory reply).grants = some c →
    c ∈ e'.sharers
  owner : ∀ c, e.sharers = [c] → e'.sharers = [c] ∨ .evictCacheLine c ∈ replies ∨
    (∃ d, .directoryCachelineForwardRequest c d ∈ replies) ∨
    req = .directoryEvictedFromCoherentCache c

theorem mem_evictOthers : .evictCacheLine o ∈ e.evictOthers c ↔ o ∈ e.sharers ∧ o ≠ c := by
  simp [DirectoryEntry.evictOthers]

theorem eq_evictCacheLine_of_mem {reply : Reply C} (h : reply ∈ e.evictOthers c) :
    ∃ o, reply = .evictCacheLine o := by
  obtain ⟨o, -, rfl⟩ := List.mem_map.mp h
  exact ⟨o, rfl⟩

/-- A read miss adds the cache to the sharers; it is another sharer that forwards. -/
theorem afterReadMiss_spec (e : DirectoryEntry C) (c : C) :
    e.sharers ⊆ (e.afterReadMiss c).1.sharers ∧ c ∈ (e.afterReadMiss c).1.sharers ∧
      (∀ c', (Request.fromDirectory (e.afterReadMiss c).2).grants = some c' → c' = c) ∧
      (∀ o, (Request.fromDirectory (e.afterReadMiss c).2).notice = some o →
        o ∈ e.sharers ∧ o ≠ c) ∧
      ∀ o, e.sharers = [o] → (e.afterReadMiss c).1.sharers = [o] ∨
        (e.afterReadMiss c).2 = .directoryCachelineForwardRequest o c := by
  rw [DirectoryEntry.afterReadMiss]
  split
  · rename_i hnil
    simp [hnil, Request.grants, Request.notice]
  · rename_i first rest hsharers
    split
    · rename_i hc
      refine ⟨List.Subset.refl _, hc, fun c' hc' => ?_, fun o ho => ?_,
        fun o ho => Or.inl ho⟩
      · cases hc'
        rfl
      · cases ho
    · rename_i hc
      refine ⟨List.subset_append_left _ _, by simp, fun c' hc' => ?_, fun o ho => ?_,
        fun o ho => ?_⟩
      · cases hc'
        rfl
      · cases ho
        refine ⟨by simp [hsharers], ?_⟩
        rintro rfl
        exact hc (by simp [hsharers])
      · rw [hsharers] at ho
        cases ho
        exact Or.inr rfl

theorem handle_answers (h : e.Consistent) (hh : e.handle req = .ok (e', replies)) :
    e.Answers e' req replies := by
  cases req with
  | directoryReadMiss c =>
    rw [DirectoryEntry.handle, DirectoryEntry.handleReadMiss_eq h] at hh
    cases hh
    obtain ⟨hsub, hc, hgrants, hnotice, howner⟩ := afterReadMiss_spec e c
    constructor
    case removed => exact fun o ho hno => absurd (hsub ho) hno
    case noticed =>
      intro before reply after o heq ho
      rcases List.singleton_eq_append_iff.mp heq with ⟨-, hcons⟩ | ⟨-, hcons⟩
      · cases hcons
        exact Or.inl (hsub (hnotice o ho).1)
      · cases hcons
    case granted =>
      intro reply hreply c' hc'
      rw [List.mem_singleton] at hreply
      rw [hgrants c' (hreply ▸ hc')]
      exact hc
    case owner =>
      intro o ho
      rcases howner o ho with hone | hforward
      · exact Or.inl hone
      · exact Or.inr (Or.inr (Or.inl ⟨c, by rw [hforward]; simp⟩))
  | directoryWriteMiss c =>
    rw [DirectoryEntry.handle, DirectoryEntry.handleWriteMiss_eq h] at hh
    cases hh
    obtain ⟨hsub, hc, hgrants, hnotice, -⟩ := afterReadMiss_spec e c
    constructor
    case removed =>
      intro o ho hno
      have hoc : o ≠ c := by simpa using hno
      exact Or.inl (List.mem_cons_of_mem _ (mem_evictOthers.mpr ⟨hsub ho, hoc⟩))
    case noticed =>
      intro before reply after o heq ho
      cases before with
      | nil =>
        cases heq
        obtain ⟨hmem, hoc⟩ := hnotice o ho
        exact Or.inr (mem_evictOthers.mpr ⟨hsub hmem, hoc⟩)
      | cons reply' before =>
        have hreply : reply ∈ (e.afterReadMiss c).1.evictOthers c := by
          rw [(List.cons.inj heq).2]
          simp
        obtain ⟨o', rfl⟩ := eq_evictCacheLine_of_mem hreply
        cases ho
    case granted =>
      intro reply hreply c' hc'
      rcases List.mem_cons.mp hreply with rfl | hreply
      · rw [hgrants c' hc']
        exact List.mem_singleton_self c
      · obtain ⟨o', rfl⟩ := eq_evictCacheLine_of_mem hreply
        cases hc'
    case owner =>
      intro o ho
      by_cases hoc : o = c
      · exact Or.inl (by rw [hoc])
      · exact Or.inr (Or.inl (List.mem_cons_of_mem _
          (mem_evictOthers.mpr ⟨hsub (by simp [ho]), hoc⟩)))
  | directoryWriteHit c =>
    rw [DirectoryEntry.handle, DirectoryEntry.handleWriteHit_eq h] at hh
    cases hh
    constructor
    case removed =>
      intro o ho hno
      have hoc : o ≠ c := by simpa using hno
      exact Or.inl (List.mem_append_left _ (mem_evictOthers.mpr ⟨ho, hoc⟩))
    case noticed =>
      intro before reply after o heq ho
      have hreply : reply ∈ e.evictOthers c ++ [.ackDirectoryWriteHit c] := by
        rw [heq]
        simp
      rcases List.mem_append.mp hreply with hreply | hreply
      · obtain ⟨o', rfl⟩ := eq_evictCacheLine_of_mem hreply
        cases ho
      · cases List.mem_singleton.mp hreply
        cases ho
    case granted =>
      intro reply hreply c' hc'
      rcases List.mem_append.mp hreply with hreply | hreply
      · obtain ⟨o', rfl⟩ := eq_evictCacheLine_of_mem hreply
        cases hc'
      · cases List.mem_singleton.mp hreply
        cases hc'
    case owner =>
      intro o ho
      by_cases hoc : o = c
      · exact Or.inl (by rw [hoc])
      · exact Or.inr (Or.inl (List.mem_append_left _
          (mem_evictOthers.mpr ⟨by simp [ho], hoc⟩)))
  | directoryEvictedFromCoherentCache c =>
    rw [DirectoryEntry.handle, DirectoryEntry.handleEvictedFromCoherentCache_eq] at hh
    split at hh
    · rename_i hc
      cases hh
      -- all sharers but the evicting cache stay, and the last one is told
      have hsharers : (e.afterEviction c).1.sharers = e.sharers.erase c := by
        rw [DirectoryEntry.afterEviction]
        split <;> simp [*]
      have hnotice : ∀ reply ∈ (e.afterEviction c).2,
          ∃ o ∈ e.sharers.erase c, reply = .directorySharedToExclusive o := by
        rw [DirectoryEntry.afterEviction]
        split <;> simp [*]
      constructor
      case removed =>
        intro o ho hno
        rw [hsharers] at hno
        by_cases hoc : o = c
        · exact Or.inr ⟨by rw [hoc], by simp [hoc]⟩
        · exact absurd ((List.mem_erase_of_ne hoc).mpr ho) hno
      case noticed =>
        intro before reply after o heq ho
        have hreply : reply ∈ (e.afterEviction c).2 ++ [.ackEvictCacheLine c] := by
          rw [heq]
          simp
        rcases List.mem_append.mp hreply with hreply | hreply
        · obtain ⟨o', ho', rfl⟩ := hnotice reply hreply
          cases ho
          rw [hsharers]
          exact Or.inl ho'
        · cases List.mem_singleton.mp hreply
          cases ho
      case granted =>
        intro reply hreply c' hc'
        rcases List.mem_append.mp hreply with hreply | hreply
        · obtain ⟨o', ho', rfl⟩ := hnotice reply hreply
          cases hc'
        · cases List.mem_singleton.mp hreply
          cases hc'
      case owner =>
        intro o ho
        rw [ho, List.mem_singleton] at hc
        rw [hc]
        exact Or.inr (Or.inr (Or.inr rfl))
    · cases hh
      constructor
      case removed => exact fun o ho hno => absurd ho hno
      case noticed =>
        intro before reply after o heq ho
        rcases List.singleton_eq_append_iff.mp heq with ⟨-, hcons⟩ | ⟨-, hcons⟩
        · cases hcons
          cases ho
        · cases hcons
      case granted =>
        intro reply hreply c' hc'
        cases List.mem_singleton.mp hreply
        cases hc'
      case owner => exact fun o ho => Or.inl ho
  | directoryEvictedFromSharedCache =>
    rw [DirectoryEntry.handle] at hh
    split at hh
    · cases hh
      exact ⟨fun o ho hno => absurd ho hno, by simp, by simp, fun o ho => Or.inl ho⟩
    · cases hh
      have hevict : ∀ reply ∈ e.sharers.map Reply.evictCacheLine,
          ∃ o, reply = .evictCacheLine o := by simp
      constructor
      case removed =>
        intro o ho _
        exact Or.inl (List.mem_map_of_mem ho)
      case noticed =>
        intro before reply after o heq ho
        obtain ⟨o', rfl⟩ := hevict reply (by rw [heq]; simp)
        cases ho
      case granted =>
        intro reply hreply c' hc'
        obtain ⟨o', rfl⟩ := hevict reply hreply
        cases hc'
      case owner =>
        intro o ho
        exact Or.inr (Or.inl (List.mem_map_of_mem (by simp [ho])))

/-! ### The invariant -/

namespace LineState

variable {s t : LineState C} {label : LineLabel C}

/-- An invalidation is on its way to the cache, or waits there, or the cache waits to have
given the line up. -/
def EvictPending (s : LineState C) (c : C) : Prop :=
  (∃ f ∈ s.inFlight, f.event = .fromDirectory (.evictCacheLine c)) ∨
    ∃ r ∈ (s.views c).pending, IsEviction c r

/-- The cache has the line or will be given it. -/
def Expects (s : LineState C) (c : C) : Prop :=
  (s.views c).state ≠ .invalid ∨ ∃ f ∈ s.inFlight, f.event.grants = some c

def Tracked (s : LineState C) (c : C) : Prop :=
  s.Expects c → c ∈ s.entry.sharers ∨ s.EvictPending c

/-- A notice that reaches a line which has become invalid and still has its way finds a
sharer, or a cache that will give the line up. -/
def NoticeTracked (s : LineState C) : LineLabel C → Prop
  | .deliver _ flight _ present => ∀ o, flight.event.notice = some o →
      (s.views o).state = .invalid → present = true →
        o ∈ s.entry.sharers ∨ s.EvictPending o
  | _ => True

/-- What is known of a cache whose transaction is delivered. -/
theorem Transactional.token (h : s.Transactional) {f : Flight (Request C)}
    {before after : List (Flight (Request C))} (heq : s.inFlight = before ++ f :: after)
    (hcarries : f.event.carries = some (c, k)) :
    tokensOf c (before ++ after) = [] ∧ ∃ r rest, (s.views c).pending = r :: rest ∧
      k.Opens c (s.views c).state r ∧ ∀ r' ∈ rest, Waits c r' := by
  have hone := h.of_delivered heq c
  rw [tokens_of_carries hcarries, if_pos rfl, List.singleton_append] at hone
  exact oneTransaction_token hone

theorem Transactional.grant_pending (h : s.Transactional) {f : Flight (Request C)}
    (hf : f ∈ s.inFlight) (hgrants : f.event.grants = some c) : (s.views c).pending ≠ [] := by
  obtain ⟨before, after, heq⟩ := List.append_of_mem hf
  obtain ⟨-, r, rest, hpending, -⟩ := h.token heq (Request.carries_of_grants hgrants)
  simp [hpending]

/-- A cache that ends a transaction has no other. -/
theorem Transactional.no_other (h : s.Transactional) {f f' : Flight (Request C)}
    {before after : List (Flight (Request C))} (heq : s.inFlight = before ++ f :: after)
    (hcarries : f.event.carries = some (c, k)) (hf' : f' ∈ before ++ after) :
    f'.event.grants ≠ some c := by
  intro hgrants
  obtain ⟨hnone, -⟩ := h.token heq hcarries
  have hmem : Transaction.miss ∈ tokensOf c (before ++ after) := by
    refine List.mem_flatMap.mpr ⟨f', hf', ?_⟩
    rw [tokens_of_carries (Request.carries_of_grants hgrants), if_pos rfl]
    exact List.mem_singleton_self _
  rw [hnone] at hmem
  cases hmem

/-- The cache that ends an eviction waits for it. -/
theorem Transactional.eviction_pending (h : s.Transactional) {f : Flight (Request C)}
    (hf : f ∈ s.inFlight) (hcarries : f.event.carries = some (c, .eviction)) :
    ∃ r ∈ (s.views c).pending, IsEviction c r := by
  obtain ⟨before, after, heq⟩ := List.append_of_mem hf
  obtain ⟨-, r, rest, hpending, hopen, -⟩ := h.token heq hcarries
  exact ⟨r, by simp [hpending], Or.inr hopen⟩

/-- The requests left over once a transaction has ended wait for the cache. -/
theorem Transactional.left_waits (h : s.Transactional) {f : Flight (Request C)}
    (hf : f ∈ s.inFlight) (hcarries : f.event.carries = some (c, k)) {left : List (Request C)}
    (hleft : left <:+ (s.views c).pending.tail) : ∀ r ∈ left, Waits c r := by
  obtain ⟨before, after, heq⟩ := List.append_of_mem hf
  obtain ⟨-, r, rest, hpending, -, hrest⟩ := h.token heq hcarries
  rw [hpending, List.tail_cons] at hleft
  exact fun r' hr' => hrest r' (hleft.subset hr')

/-! ### A cache receives a request -/

section Deliver

variable {f : Flight (Request C)} {before after : List (Flight (Request C))}

omit [DecidableEq C] in
theorem mem_of_delivered (heq : s.inFlight = before ++ f :: after) {f' : Flight (Request C)} :
    f' ∈ s.inFlight ↔ f' = f ∨ f' ∈ before ++ after := by
  rw [heq]
  simp only [List.mem_append, List.mem_cons]
  tauto

/-- What a cache sends grants no line, but for the response to a forward request. -/
theorem receive_grants (h : s.Transactional) (heq : s.inFlight = before ++ f :: after)
    (hchannel : f.event.channel.2 = .cache o)
    (hreceive : (s.views o).receive o present f.event = some (v', flights))
    {f' : Flight (Request C)} (hf' : f' ∈ flights) (hgrants : f'.event.grants = some c) :
    f.event.grants = some c := by
  have hf : f ∈ s.inFlight := (mem_of_delivered heq).mpr (Or.inl rfl)
  rcases LineView.receive_cases hchannel hreceive with hwait | ⟨-, -, -, rfl⟩ |
    ⟨state, left, hdone⟩ | ⟨state, -, -, -, rfl | ⟨d, hr, -, rfl⟩⟩
  · obtain ⟨req, rfl⟩ := hwait.flights f' hf'
    cases hgrants
  · cases hf'
  · obtain ⟨k, hcarries⟩ := Request.carries_of_completes hdone.completes
    rw [hdone.flights] at hf'
    obtain ⟨r, hr, rfl⟩ := List.mem_map.mp hf'
    have hwaits := h.left_waits hf hcarries (satisfy_suffix hdone.satisfy) r hr
    rw [Flight.event, hwaits.grants] at hgrants
    cases hgrants
  · cases hf'
  · rw [List.mem_singleton.mp hf'] at hgrants
    rw [hr]
    exact hgrants

/-- A cache that receives a request stays tracked. -/
theorem Tracked.receive_self (h : s.Transactional) (htracked : s.Tracked c)
    (heq : s.inFlight = before ++ f :: after) (hchannel : f.event.channel.2 = .cache c)
    (hreceive : (s.views c).receive c present f.event = some (v', flights))
    (hnotice : f.event.notice = some c → (s.views c).state = .invalid → present = true →
      c ∈ s.entry.sharers ∨ s.EvictPending c) :
    (setView { s with inFlight := before ++ after } c v' flights).Tracked c := by
  have hf : f ∈ s.inFlight := (mem_of_delivered heq).mpr (Or.inl rfl)
  have hgrants : (∃ f' ∈ before ++ after ++ flights, f'.event.grants = some c) →
      s.Expects c := by
    rintro ⟨f', hf', hg⟩
    rcases List.mem_append.mp hf' with hf' | hf'
    · exact Or.inr ⟨f', (mem_of_delivered heq).mpr (Or.inr hf'), hg⟩
    · exact Or.inr ⟨f, hf, receive_grants h heq hchannel hreceive hf' hg⟩
  have hevict : f.event ≠ .fromDirectory (.evictCacheLine c) →
      (∃ f' ∈ s.inFlight, f'.event = .fromDirectory (.evictCacheLine c)) →
      ∃ f' ∈ before ++ after ++ flights, f'.event = .fromDirectory (.evictCacheLine c) := by
    rintro hne ⟨f', hf', he⟩
    rcases (mem_of_delivered heq).mp hf' with rfl | hf'
    · exact absurd he hne
    · exact ⟨f', List.mem_append_left _ hf', he⟩
  rcases LineView.receive_cases hchannel hreceive with hwait | ⟨hr, hpending, rfl, rfl⟩ |
    ⟨state, left, hdone⟩ | ⟨state, hr, rfl, hstate, -⟩
  · -- the request waits
    rintro hexpects
    rw [Expects, setView_views_self, hwait.state] at hexpects
    have hbefore : s.Expects c := hexpects.elim Or.inl hgrants
    refine (htracked hbefore).imp_right fun hpend => ?_
    rw [EvictPending, setView_views_self]
    rcases hpend with hflight | ⟨r, hr, he⟩
    · by_cases hr : f.event = .fromDirectory (.evictCacheLine c)
      · exact Or.inr ⟨_, hwait.eviction hr, Or.inl hr⟩
      · exact Or.inl (hevict hr hflight)
    · exact Or.inr ⟨r, hwait.pending hr, he⟩
  · -- the line is taken from a cache that waits for nothing
    rintro (hvalid | ⟨f', hf', hg⟩)
    · rw [setView_views_self] at hvalid
      exact absurd rfl hvalid
    · rw [setView_inFlight, List.append_nil] at hf'
      exact absurd hpending (h.grant_pending ((mem_of_delivered heq).mpr (Or.inr hf')) hg)
  · -- the transaction ends
    obtain ⟨k, hcarries⟩ := Request.carries_of_completes hdone.completes
    rintro hexpects
    have hvalid : v'.state ≠ .invalid := by
      rcases hexpects with hvalid | ⟨f', hf', hg⟩
      · rwa [setView_views_self] at hvalid
      · exfalso
        rw [setView_inFlight, hdone.flights] at hf'
        rcases List.mem_append.mp hf' with hf' | hf'
        · exact h.no_other heq hcarries hf' hg
        · obtain ⟨r, hr, rfl⟩ := List.mem_map.mp hf'
          have hwaits := h.left_waits hf hcarries (satisfy_suffix hdone.satisfy) r hr
          rw [Flight.event, hwaits.grants] at hg
          cases hg
    have hnone : ∀ r ∈ (s.views c).pending, ¬ IsEviction c r := fun r hr he =>
      hvalid (satisfy_evicts hdone.satisfy hr he)
    have hbefore : s.Expects c := by
      rcases hdone.state with ⟨hg, -⟩ | ⟨-, hstate | hk⟩
      · exact Or.inr ⟨f, hf, hg⟩
      · exact Or.inl hstate
      · obtain ⟨r, hr, he⟩ := h.eviction_pending hf hk
        exact absurd he (hnone r hr)
    have hne : f.event ≠ .fromDirectory (.evictCacheLine c) := by
      intro he
      rw [he] at hcarries
      cases hcarries
    exact (htracked hbefore).imp_right fun hpend =>
      hpend.elim (fun hflight => Or.inl (hevict hne hflight))
        fun hexists => hexists.elim fun r hr => absurd hr.2 (hnone r hr.1)
  · -- the state changes
    have hne : f.event ≠ .fromDirectory (.evictCacheLine c) := by
      intro he
      rw [he] at hr
      cases hr
    have hpending : ((s.views c).change present state).pending = (s.views c).pending := by
      rw [LineView.change]
      split <;> rfl
    rintro hexpects
    have hbefore : c ∈ s.entry.sharers ∨ s.EvictPending c := by
      rcases hexpects with hvalid | hflight
      · rw [setView_views_self, LineView.change] at hvalid
        by_cases hold : (s.views c).state = .invalid
        · by_cases hpresent : present = true
          · exact hnotice hr hold hpresent
          · rw [if_neg (by simp [hpresent, hold])] at hvalid
            exact htracked (Or.inl hvalid)
        · exact htracked (Or.inl hold)
      · exact htracked (hgrants hflight)
    refine hbefore.imp_right fun hpend => ?_
    rw [EvictPending, setView_views_self, hpending]
    exact hpend.imp_left (hevict hne)

/-- The other caches do not notice. -/
theorem Tracked.receive_other (h : s.Transactional) (htracked : s.Tracked c)
    (heq : s.inFlight = before ++ f :: after) (hchannel : f.event.channel.2 = .cache o)
    (hreceive : (s.views o).receive o present f.event = some (v', flights)) (hc : c ≠ o) :
    (setView { s with inFlight := before ++ after } o v' flights).Tracked c := by
  have hf : f ∈ s.inFlight := (mem_of_delivered heq).mpr (Or.inl rfl)
  rintro hexpects
  have hbefore : s.Expects c := by
    rcases hexpects with hvalid | ⟨f', hf', hg⟩
    · rw [setView_views_of_ne _ hc] at hvalid
      exact Or.inl hvalid
    · rcases List.mem_append.mp hf' with hf' | hf'
      · exact Or.inr ⟨f', (mem_of_delivered heq).mpr (Or.inr hf'), hg⟩
      · exact Or.inr ⟨f, hf, receive_grants h heq hchannel hreceive hf' hg⟩
  refine (htracked hbefore).imp_right fun hpend => ?_
  rw [EvictPending, setView_views_of_ne _ hc]
  refine hpend.imp_left fun ⟨f', hf', he⟩ => ?_
  rcases (mem_of_delivered heq).mp hf' with rfl | hf'
  · rw [he] at hchannel
    exact absurd (Element.cache.inj hchannel) hc
  · exact ⟨f', List.mem_append_left _ hf', he⟩

/-- Nor does a cache notice what the directory handles: it is still a sharer, or told. -/
theorem Tracked.receive_directory (h : s.Transactional) (htracked : s.Tracked c)
    (heq : s.inFlight = before ++ f :: after) (hr : f.event = .toDirectory req)
    (hh : s.entry.handle req = .ok (e', replies)) :
    Tracked { s with
      entry := e'
      inFlight := before ++ after ++ replies.map (fun reply => .sent (.fromDirectory reply)) }
      c := by
  have hf : f ∈ s.inFlight := (mem_of_delivered heq).mpr (Or.inl rfl)
  have hanswers := handle_answers h.consistent hh
  have hpend : s.EvictPending c → (∃ f' ∈ before ++ after, f'.event =
      .fromDirectory (.evictCacheLine c)) ∨ ∃ r ∈ (s.views c).pending, IsEviction c r := by
    refine Or.imp_left fun ⟨f', hf', he⟩ => ?_
    rcases (mem_of_delivered heq).mp hf' with rfl | hf'
    · rw [hr] at he
      cases he
    · exact ⟨f', hf', he⟩
  rintro hexpects
  have hbefore : s.Expects c ∨ c ∈ e'.sharers := by
    rcases hexpects with hvalid | ⟨f', hf', hg⟩
    · exact Or.inl (Or.inl hvalid)
    · rcases List.mem_append.mp hf' with hf' | hf'
      · exact Or.inl (Or.inr ⟨f', (mem_of_delivered heq).mpr (Or.inr hf'), hg⟩)
      · obtain ⟨reply, hreply, rfl⟩ := List.mem_map.mp hf'
        exact Or.inr (hanswers.granted reply hreply c hg)
  by_cases hc : c ∈ e'.sharers
  · exact Or.inl hc
  · right
    rcases htracked (hbefore.resolve_right hc) with hold | hold
    · rcases hanswers.removed c hold hc with hevict | ⟨rfl, -⟩
      · exact Or.inl ⟨_, List.mem_append_right _ (List.mem_map_of_mem hevict), rfl⟩
      · exact Or.inr (h.eviction_pending hf (by rw [hr]; rfl))
    · exact (hpend hold).imp_left fun ⟨f', hf', he⟩ => ⟨f', List.mem_append_left _ hf', he⟩

theorem Tracked.of_receive (h : s.Transactional) (htracked : s.Tracked c)
    (heq : s.inFlight = before ++ f :: after)
    (hreceive : receive { s with inFlight := before ++ after } present f.event = some t)
    (hnotice : f.event.notice = some c → (s.views c).state = .invalid → present = true →
      c ∈ s.entry.sharers ∨ s.EvictPending c) : t.Tracked c := by
  have hf : f ∈ s.inFlight := (mem_of_delivered heq).mpr (Or.inl rfl)
  rcases f.event.receiver_cases with ⟨o, hchannel⟩ | ⟨req, hr⟩ | ⟨o, hr⟩ | ⟨o, hr⟩ | ⟨o, hr⟩
  · rw [receive_of_cache hchannel] at hreceive
    obtain ⟨⟨v', flights⟩, hview, rfl⟩ := Option.map_eq_some_iff.mp hreceive
    by_cases hc : c = o
    · subst hc
      exact htracked.receive_self h heq hchannel hview hnotice
    · exact htracked.receive_other h heq hchannel hview hc
  · obtain ⟨e', replies, hh, -⟩ := DirectoryEntry.handle_consistent h.consistent req
    rw [hr, receive_toDirectory (s := { s with inFlight := before ++ after }) hh] at hreceive
    cases hreceive
    exact Tracked.receive_directory (s := s) h htracked heq hr hh
  · -- the next level answers
    rw [hr] at hreceive
    cases hreceive
    rintro hexpects
    have hbefore : s.Expects c := by
      rcases hexpects with hvalid | ⟨f', hf', hg⟩
      · exact Or.inl hvalid
      · rcases List.mem_append.mp hf' with hf' | hf'
        · exact Or.inr ⟨f', (mem_of_delivered heq).mpr (Or.inr hf'), hg⟩
        · rw [List.mem_singleton.mp hf'] at hg
          exact Or.inr ⟨f, hf, by rw [hr]; exact hg⟩
    refine (htracked hbefore).imp_right (Or.imp_left fun ⟨f', hf', he⟩ => ?_)
    rcases (mem_of_delivered heq).mp hf' with rfl | hf'
    · rw [hr] at he
      cases he
    · exact ⟨f', List.mem_append_left _ hf', he⟩
  all_goals
    rw [hr] at hreceive
    cases hreceive
    rintro hexpects
    have hbefore : s.Expects c := hexpects.imp_right fun ⟨f', hf', hg⟩ =>
      ⟨f', (mem_of_delivered heq).mpr (Or.inr hf'), hg⟩
    refine (htracked hbefore).imp_right (Or.imp_left fun ⟨f', hf', he⟩ => ?_)
    rcases (mem_of_delivered heq).mp hf' with rfl | hf'
    · rw [hr] at he
      cases he
    · exact ⟨f', hf', he⟩

end Deliver

omit [DecidableEq C] in
/-- What is only added to the flights, and grants nothing, leaves caches tracked. -/
theorem Tracked.of_sent {more : List (Flight (Request C))}
    (hmore : ∀ f ∈ more, f.event.grants = none) (htracked : s.Tracked c) :
    Tracked { s with inFlight := s.inFlight ++ more } c := by
  rintro hexpects
  have hbefore : s.Expects c := by
    refine hexpects.imp_right fun ⟨f, hf, hg⟩ => ?_
    rcases List.mem_append.mp hf with hf | hf
    · exact ⟨f, hf, hg⟩
    · rw [hmore f hf] at hg
      cases hg
  exact (htracked hbefore).imp_right
    (Or.imp_left fun ⟨f, hf, he⟩ => ⟨f, List.mem_append_left _ hf, he⟩)

/-- An access is a request that is sent and received at once. -/
theorem Transactional.of_access (h : s.Transactional) (hr : Waits o r) :
    Transactional { s with inFlight := s.inFlight ++ [.sent r] } where
  consistent := h.consistent
  one c := by
    rw [tokensOf_append, tokensOf_cons, tokensOf_nil, Flight.event, hr.tokens]
    simpa using h.one c

omit [DecidableEq C] in
theorem waits_accessRequest (c : C) (isWrite : Bool) : Waits c (accessRequest c isWrite) := by
  cases isWrite
  · exact Or.inl rfl
  · exact Or.inr (Or.inl rfl)

theorem tracked_step (h : s.Transactional) (htracked : ∀ c, s.Tracked c)
    (hstep : Step s label t) (hnotice : s.NoticeTracked label) (c : C) : t.Tracked c := by
  cases label with
  | access o isWrite =>
    have hr := waits_accessRequest o isWrite
    have hsent : Tracked { s with inFlight := s.inFlight ++ [.sent (accessRequest o isWrite)] } c :=
      (htracked c).of_sent (by simpa [Flight.event] using hr.grants)
    have hreceive : receive { s with inFlight := s.inFlight ++ [] } true
        (Flight.sent (accessRequest o isWrite)).event = some t := by
      rw [List.append_nil]
      exact hstep
    refine hsent.of_receive (h.of_access hr) rfl hreceive fun hn => ?_
    rw [Flight.event, hr.notice] at hn
    cases hn
  | deliver before flight after present =>
    obtain ⟨heq, hreceive⟩ := hstep
    exact (htracked c).of_receive h heq hreceive (hnotice c)
  | postpone before flight after =>
    obtain ⟨heq, rfl, -⟩ := hstep
    have hmem : ∀ p : Request C → Prop, (∃ f ∈ before ++ after ++ [.queued flight.event],
        p f.event) ↔ ∃ f ∈ s.inFlight, p f.event := by
      intro p
      simp only [List.mem_append, heq, List.mem_cons, List.not_mem_nil, or_false]
      constructor
      · rintro ⟨f, (hf | hf) | rfl, hp⟩
        · exact ⟨f, Or.inl hf, hp⟩
        · exact ⟨f, Or.inr (Or.inr hf), hp⟩
        · exact ⟨flight, Or.inr (Or.inl rfl), hp⟩
      · rintro ⟨f, hf | rfl | hf, hp⟩
        · exact ⟨f, Or.inl (Or.inl hf), hp⟩
        · exact ⟨.queued f.event, Or.inr rfl, hp⟩
        · exact ⟨f, Or.inl (Or.inr hf), hp⟩
    rintro hexpects
    exact (htracked c (hexpects.imp_right (hmem (·.grants = some c)).mp)).imp_right
      (Or.imp_left (hmem (· = .fromDirectory (.evictCacheLine c))).mpr)
  | replaceLine o =>
    obtain ⟨hpending, hstate, rfl⟩ := hstep
    rintro hexpects
    have hflight : (∃ f ∈ s.inFlight ++
        [.sent (.toDirectory (.directoryEvictedFromCoherentCache o))], f.event.grants = some c) →
        ∃ f ∈ s.inFlight, f.event.grants = some c := by
      rintro ⟨f, hf, hg⟩
      rcases List.mem_append.mp hf with hf | hf
      · exact ⟨f, hf, hg⟩
      · rw [List.mem_singleton.mp hf] at hg
        cases hg
    by_cases hc : c = o
    · -- the line is gone and no other is on its way
      subst hc
      rcases hexpects with hvalid | hg
      · rw [setView_views_self] at hvalid
        exact absurd rfl hvalid
      · obtain ⟨f, hf, hg⟩ := hflight hg
        exact absurd hpending (h.grant_pending hf hg)
    · rw [Expects, setView_views_of_ne s hc] at hexpects
      rw [EvictPending, setView_views_of_ne s hc]
      rcases htracked c (hexpects.imp_right hflight) with hc | ⟨f, hf, he⟩ | hpend
      · exact Or.inl hc
      · exact Or.inr (Or.inl ⟨f, List.mem_append_left _ hf, he⟩)
      · exact Or.inr (Or.inr hpend)
  | replaceEntry =>
    cases hstep
    rintro hexpects
    right
    have hbefore : s.Expects c := by
      rcases hexpects with hvalid | ⟨f, hf, hg⟩
      · exact Or.inl hvalid
      · rcases List.mem_append.mp hf with hf | hf
        · exact Or.inr ⟨f, hf, hg⟩
        · obtain ⟨o, -, rfl⟩ := List.mem_map.mp hf
          cases hg
    rcases htracked c hbefore with hc | ⟨f, hf, he⟩ | hpend
    · exact Or.inl ⟨_, List.mem_append_right _ (List.mem_map_of_mem hc), rfl⟩
    · exact Or.inl ⟨f, List.mem_append_left _ hf, he⟩
    · exact Or.inr hpend
  | evictShared =>
    cases hstep
    exact (htracked c).of_sent (by simp [Flight.event, Request.grants])

end LineState

end Tejas
