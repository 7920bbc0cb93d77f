import Tejas.LineProtocol

/-!
# One transaction a cache and line

A cache that waits for the line has exactly one transaction open: one request or answer
in flight carries it on, from the cache to the directory, to another cache or the next
level, and back. What waits first in the cache is what the transaction is for. No
handler takes an exit.
-/

namespace Tejas

/-- What a cache has asked for: a line, the right to write to one, or to give one up. -/
inductive Transaction where
  | miss
  | hit
  | eviction
  deriving DecidableEq

variable {C : Type}

/-- The transaction a request carries on, and its cache. -/
def Request.carries : Request C → Option (C × Transaction)
  | .memResponse _ c => some (c, .miss)
  | .toDirectory (.directoryReadMiss c) => some (c, .miss)
  | .toDirectory (.directoryWriteMiss c) => some (c, .miss)
  | .toDirectory (.directoryWriteHit c) => some (c, .hit)
  | .toDirectory (.directoryEvictedFromCoherentCache c) => some (c, .eviction)
  | .fromDirectory (.cacheRead c) => some (c, .miss)
  | .fromDirectory (.memResponse c) => some (c, .miss)
  | .fromDirectory (.directoryCachelineForwardRequest _ c) => some (c, .miss)
  | .fromDirectory (.ackDirectoryWriteHit c) => some (c, .hit)
  | .fromDirectory (.ackEvictCacheLine c) => some (c, .eviction)
  | _ => none

/-- A core access or an invalidation for cache `c`. -/
def Waits (c : C) (r : Request C) : Prop :=
  r = .cacheRead c ∨ r = .cacheWrite c ∨ r = .fromDirectory (.evictCacheLine c)

/-- The request a transaction of cache `c` has been opened for, given the state of the
line there. -/
def Transaction.Opens (c : C) (state : MESI) (r : Request C) : Transaction → Prop
  | .miss => r = .cacheRead c ∨ r = .cacheWrite c
  | .hit => r = .cacheWrite c ∧ state ≠ .invalid
  | .eviction => r = .toDirectory (.directoryEvictedFromCoherentCache c)

/-- The cache waits for nothing, or for the one transaction in flight. -/
def LineView.OneTransaction (v : LineView C) (c : C) (tokens : List Transaction) : Prop :=
  v.pending = [] ∧ tokens = [] ∨
    ∃ k r rest, tokens = [k] ∧ v.pending = r :: rest ∧ k.Opens c v.state r ∧
      ∀ r' ∈ rest, Waits c r'

variable {v : LineView C} {c : C} {r : Request C} {k : Transaction}

/-! ### What a cache does -/

theorem enqueue_eq (pending : List (Request C)) (r : Request C) :
    LineView.enqueue pending r = pending ∨ LineView.enqueue pending r = pending ++ [r] := by
  rw [LineView.enqueue]
  split
  · exact Or.inl rfl
  · exact Or.inr rfl

/-- Waiting requests are served to the end or to the first invalidation, if the line is
valid. -/
theorem satisfy_waits {state : MESI} {pending : List (Request C)} (hstate : state ≠ .invalid)
    (h : ∀ r ∈ pending, Waits c r) :
    ∃ (state' : MESI) (left : List (Request C)),
      LineView.satisfy state pending = some (state', left) ∧ left <:+ pending := by
  induction pending generalizing state with
  | nil => exact ⟨state, [], rfl, List.suffix_refl _⟩
  | cons r rest ih =>
    have hrest := fun (state : MESI) (hs : state ≠ .invalid) =>
      ih hs (fun r' hr' => h r' (List.mem_cons_of_mem _ hr'))
    rcases h r List.mem_cons_self with rfl | rfl | rfl
    · obtain ⟨state', left, heq, hsuffix⟩ := hrest state hstate
      exact ⟨state', left, heq, hsuffix.trans (List.suffix_cons _ _)⟩
    · obtain ⟨state', left, heq, hsuffix⟩ := hrest .modified (by decide)
      exact ⟨state', left, by rw [LineView.satisfy, if_neg hstate, heq],
        hsuffix.trans (List.suffix_cons _ _)⟩
    · exact ⟨.invalid, rest, rfl, List.suffix_cons _ _⟩

/-- The transaction of a cache ends without an error when it is the one the cache waits
for, and what is left over waits in the event queue. -/
theorem complete_of_open {state : MESI} {rest : List (Request C)} (hpending : v.pending = r :: rest)
    (hopen : k.Opens c state r) (hstate : k = .eviction ∨ state ≠ .invalid)
    (hrest : ∀ r' ∈ rest, Waits c r') :
    ∃ (state' : MESI) (left : List (Request C)),
      v.complete state = some (⟨state', []⟩, left.map .queued) ∧ ∀ r' ∈ left, Waits c r' := by
  rw [LineView.complete, hpending]
  cases k with
  | eviction =>
    cases hopen
    exact ⟨.invalid, rest, rfl, hrest⟩
  | miss =>
    have hs : state ≠ .invalid := by simpa using hstate
    have hall : ∀ r' ∈ r :: rest, Waits c r' := by
      intro r' hr'
      rcases List.mem_cons.mp hr' with rfl | hr'
      · exact hopen.imp_right Or.inl
      · exact hrest r' hr'
    obtain ⟨state', left, heq, hsuffix⟩ := satisfy_waits hs hall
    exact ⟨state', left, by simp [heq], fun r' hr' => hall r' (hsuffix.subset hr')⟩
  | hit =>
    have hs : state ≠ .invalid := by simpa using hstate
    have hall : ∀ r' ∈ r :: rest, Waits c r' := by
      intro r' hr'
      rcases List.mem_cons.mp hr' with rfl | hr'
      · exact Or.inr (Or.inl hopen.1)
      · exact hrest r' hr'
    obtain ⟨state', left, heq, hsuffix⟩ := satisfy_waits hs hall
    exact ⟨state', left, by simp [heq], fun r' hr' => hall r' (hsuffix.subset hr')⟩

/-- Waiting behind an open transaction keeps it open. -/
theorem oneTransaction_enqueue {tokens : List Transaction} (h : v.OneTransaction c tokens)
    (hpending : v.pending ≠ []) (hr : Waits c r) :
    LineView.OneTransaction { v with pending := LineView.enqueue v.pending r } c tokens := by
  rcases h with ⟨hnil, -⟩ | ⟨k, r₀, rest, htokens, heq, hopen, hrest⟩
  · exact absurd hnil hpending
  · right
    rcases enqueue_eq v.pending r with henq | henq
    · exact ⟨k, r₀, rest, htokens, by rw [henq, heq], hopen, hrest⟩
    · refine ⟨k, r₀, rest ++ [r], htokens, by rw [henq, heq]; rfl, hopen, fun r' hr' => ?_⟩
      rcases List.mem_append.mp hr' with hr' | hr'
      · exact hrest r' hr'
      · rw [List.mem_singleton.mp hr']
        exact hr

/-- A change of state that leaves a valid line valid. -/
theorem oneTransaction_change {tokens : List Transaction} {present : Bool} {state : MESI}
    (h : v.OneTransaction c tokens) (hstate : state ≠ .invalid) :
    (v.change present state).OneTransaction c tokens := by
  rw [LineView.change]
  split
  · rcases h with h | ⟨k, r, rest, htokens, heq, hopen, hrest⟩
    · exact Or.inl h
    · refine Or.inr ⟨k, r, rest, htokens, heq, ?_, hrest⟩
      cases k with
      | hit => exact ⟨hopen.1, hstate⟩
      | miss => exact hopen
      | eviction => exact hopen
  · exact h

theorem oneTransaction_perm {a b : List Transaction} (hperm : a.Perm b)
    (h : v.OneTransaction c a) : v.OneTransaction c b := by
  rcases h with ⟨hpending, rfl⟩ | ⟨k, r, rest, rfl, hrest⟩
  · exact Or.inl ⟨hpending, List.nil_perm.mp hperm⟩
  · exact Or.inr ⟨k, r, rest, (List.singleton_perm.mp hperm).symm, hrest⟩

theorem oneTransaction_comm {a b : List Transaction} (h : v.OneTransaction c (a ++ b)) :
    v.OneTransaction c (b ++ a) :=
  oneTransaction_perm List.perm_append_comm h

/-- A transaction in flight is the one the cache waits for, and there is no other. -/
theorem oneTransaction_token {tokens : List Transaction} (h : v.OneTransaction c (k :: tokens)) :
    tokens = [] ∧ ∃ r rest, v.pending = r :: rest ∧ k.Opens c v.state r ∧
      ∀ r' ∈ rest, Waits c r' := by
  rcases h with ⟨-, hnil⟩ | ⟨k', r, rest, htokens, hpending, hopen, hrest⟩
  · cases hnil
  · cases htokens
    exact ⟨rfl, r, rest, hpending, hopen, hrest⟩

variable [DecidableEq C]

/-- The transaction of cache `c` that a request carries on, if it does. -/
def Request.tokens (c : C) (r : Request C) : List Transaction :=
  (r.carries.filter (fun o => o.1 = c)).toList.map Prod.snd

/-- The transactions of cache `c` in flight. -/
def tokensOf (c : C) (flights : List (Flight (Request C))) : List Transaction :=
  flights.flatMap (fun f => f.event.tokens c)

/-- Every cache has at most one transaction, and the entry is consistent. -/
structure LineState.Transactional (s : LineState C) : Prop where
  consistent : s.entry.Consistent
  one : ∀ c, (s.views c).OneTransaction c (tokensOf c s.inFlight)

variable {s t : LineState C} {flights : List (Flight (Request C))} {f : Flight (Request C)}
  {e e' : DirectoryEntry C} {req : DirectoryRequest C} {replies : List (Reply C)}

@[simp] theorem tokensOf_nil : tokensOf c [] = [] := rfl

@[simp] theorem tokensOf_append (more : List (Flight (Request C))) :
    tokensOf c (flights ++ more) = tokensOf c flights ++ tokensOf c more := by
  simp [tokensOf]

@[simp] theorem tokensOf_cons :
    tokensOf c (f :: flights) = f.event.tokens c ++ tokensOf c flights :=
  rfl

theorem tokens_of_carries (hk : r.carries = some (c, k)) (c' : C) :
    r.tokens c' = if c = c' then [k] else [] := by
  by_cases hc : c = c' <;> simp [Request.tokens, hk, hc]

theorem Waits.tokens (h : Waits c r) (c' : C) : r.tokens c' = [] := by
  rcases h with rfl | rfl | rfl <;> rfl

theorem tokensOf_queued {rs : List (Request C)} (h : ∀ r ∈ rs, Waits c r) (c' : C) :
    tokensOf c' (rs.map .queued) = [] := by
  rw [tokensOf, List.flatMap_eq_nil_iff]
  intro f hf
  obtain ⟨r, hr, rfl⟩ := List.mem_map.mp hf
  exact (h r hr).tokens c'

/-! ### What the directory answers -/

theorem tokensOf_evicts {sharers : List C} :
    tokensOf c (sharers.map (fun o => .sent (.fromDirectory (.evictCacheLine o)))) = [] := by
  rw [tokensOf, List.flatMap_eq_nil_iff]
  intro f hf
  obtain ⟨o, -, rfl⟩ := List.mem_map.mp hf
  rfl

/-- The directory carries on the transaction of the request and no other. -/
theorem handle_tokens (h : e.Consistent) (hh : e.handle req = .ok (e', replies)) (c : C) :
    tokensOf c (replies.map (fun reply => .sent (.fromDirectory reply))) =
      (Request.toDirectory req).tokens c := by
  have hothers : ∀ (e : DirectoryEntry C) c', tokensOf c
      ((e.evictOthers c').map (fun reply => .sent (.fromDirectory reply))) = [] := by
    intro e c'
    rw [DirectoryEntry.evictOthers, List.map_map]
    exact tokensOf_evicts
  have hmiss : ∀ c', ((Request.fromDirectory (e.afterReadMiss c').2).tokens c) =
      (Request.toDirectory (.directoryReadMiss c')).tokens c := by
    intro c'
    rw [DirectoryEntry.afterReadMiss]
    split
    · rfl
    · split <;> rfl
  cases req with
  | directoryReadMiss c' =>
    rw [DirectoryEntry.handle, DirectoryEntry.handleReadMiss_eq h] at hh
    cases hh
    simpa [Flight.event] using hmiss c'
  | directoryWriteMiss c' =>
    rw [DirectoryEntry.handle, DirectoryEntry.handleWriteMiss_eq h] at hh
    cases hh
    rw [List.map_cons, tokensOf_cons, hothers, List.append_nil]
    exact hmiss c'
  | directoryWriteHit c' =>
    rw [DirectoryEntry.handle, DirectoryEntry.handleWriteHit_eq h] at hh
    cases hh
    rw [List.map_append, tokensOf_append, hothers]
    simp [Flight.event, Request.tokens, Request.carries]
  | directoryEvictedFromCoherentCache c' =>
    rw [DirectoryEntry.handle, DirectoryEntry.handleEvictedFromCoherentCache_eq] at hh
    split at hh
    · cases hh
      rw [List.map_append, tokensOf_append]
      have hnotice : tokensOf c
          ((e.afterEviction c').2.map (fun reply => .sent (.fromDirectory reply))) = [] := by
        rw [DirectoryEntry.afterEviction]
        split <;> rfl
      rw [hnotice]
      simp [Flight.event, Request.tokens, Request.carries]
    · cases hh
      simp [Flight.event, Request.tokens, Request.carries]
  | directoryEvictedFromSharedCache =>
    rw [DirectoryEntry.handle] at hh
    split at hh
    · cases hh
      rfl
    · cases hh
      rw [List.map_map]
      exact tokensOf_evicts

/-! ### What a cache makes of a request -/

/-- A cache that ends its transaction. -/
theorem oneTransaction_complete {tokens : List Transaction} {state : MESI}
    (h : v.OneTransaction c (k :: tokens)) (hstate : k = .eviction ∨ state ≠ .invalid) :
    ∃ v' flights, v.complete state = some (v', flights) ∧
      v'.OneTransaction c (tokens ++ tokensOf c flights) ∧ ∀ c', tokensOf c' flights = [] := by
  obtain ⟨rfl, r, rest, hpending, hopen, hrest⟩ := oneTransaction_token h
  have hopen' : k.Opens c state r := by
    cases k with
    | hit => exact ⟨hopen.1, by simpa using hstate⟩
    | miss => exact hopen
    | eviction => exact hopen
  obtain ⟨state', left, heq, hleft⟩ := complete_of_open hpending hopen' hstate hrest
  refine ⟨⟨state', []⟩, left.map .queued, heq, Or.inl ⟨rfl, ?_⟩, tokensOf_queued hleft⟩
  rw [tokensOf_queued hleft]
  rfl

/-- An access that the cache does not yet wait for. -/
theorem oneTransaction_open {state : MESI} {req : DirectoryRequest C} (hr : Waits c r)
    (hk : (Request.toDirectory req).carries = some (c, k)) (hopen : k.Opens c state r) :
    (⟨state, [r]⟩ : LineView C).OneTransaction c
        ([] ++ tokensOf c [.sent (.toDirectory req)]) ∧
      ∀ c' ≠ c, tokensOf c' [.sent (.toDirectory req)] = r.tokens c' := by
  have htokens : ∀ c', tokensOf c' [.sent (.toDirectory req)] = if c = c' then [k] else [] := by
    intro c'
    rw [tokensOf_cons, tokensOf_nil, List.append_nil]
    exact tokens_of_carries hk c'
  refine ⟨Or.inr ⟨k, r, [], by simp [htokens], rfl, hopen, by simp⟩, fun c' hc' => ?_⟩
  rw [htokens, if_neg (Ne.symm hc'), hr.tokens]

/-- A cache that receives a request is never left with two transactions or with one that
does not fit, and takes no exit. `tokens` are those of the cache that stay in flight. -/
theorem oneTransaction_receive {tokens : List Transaction} {present : Bool}
    (hchannel : r.channel.2 = .cache c) (h : v.OneTransaction c (r.tokens c ++ tokens)) :
    ∃ v' flights, v.receive c present r = some (v', flights) ∧
      v'.OneTransaction c (tokens ++ tokensOf c flights) ∧
      ∀ c' ≠ c, tokensOf c' flights = r.tokens c' := by
  -- a request that waits behind an open transaction, or starts a new one
  have hempty : v.pending = [] → tokens = [] := by
    intro hnil
    rcases h with ⟨-, htokens⟩ | ⟨k, r', rest, -, hpending, -⟩
    · exact (List.append_eq_nil_iff.mp htokens).2
    · rw [hnil] at hpending
      cases hpending
  have hwait : Waits c r → v.pending ≠ [] →
      LineView.OneTransaction { v with pending := LineView.enqueue v.pending r } c
        (tokens ++ tokensOf c []) ∧ ∀ c' ≠ c, tokensOf c' [] = r.tokens c' := by
    intro hr hpending
    rw [hr.tokens] at h
    refine ⟨by simpa using oneTransaction_enqueue h hpending hr, fun c' _ => ?_⟩
    rw [hr.tokens]
    rfl
  have hend : ∀ k state, r.carries = some (c, k) → k = .eviction ∨ state ≠ .invalid →
      ∃ v' flights, v.complete state = some (v', flights) ∧
        v'.OneTransaction c (tokens ++ tokensOf c flights) ∧
        ∀ c' ≠ c, tokensOf c' flights = r.tokens c' := by
    intro k state hk hstate
    rw [tokens_of_carries hk, if_pos rfl] at h
    obtain ⟨v', flights, heq, hone, hnone⟩ := oneTransaction_complete h hstate
    refine ⟨v', flights, heq, hone, fun c' hc' => ?_⟩
    rw [hnone, tokens_of_carries hk, if_neg (Ne.symm hc')]
  have hkeep : ∀ v' : LineView C, v'.OneTransaction c tokens → r.carries = none →
      v'.OneTransaction c (tokens ++ tokensOf c []) ∧
        ∀ c' ≠ c, tokensOf c' [] = r.tokens c' := by
    intro v' hone hnone
    exact ⟨by simpa using hone, fun c' _ => by simp [Request.tokens, hnone]⟩
  match r with
  | .cacheRead c' =>
    cases hchannel
    have hr : Waits c (.cacheRead c) := Or.inl rfl
    rw [LineView.receive]
    split
    · rename_i hpending
      exact ⟨_, _, rfl, hwait hr hpending⟩
    · rename_i hpending
      have hnil := hempty (not_not.mp hpending)
      subst hnil
      split
      · exact ⟨_, _, rfl, oneTransaction_open hr rfl (Or.inl rfl)⟩
      · exact ⟨_, _, rfl, hkeep _ (by simpa [hr.tokens] using h) rfl⟩
  | .cacheWrite c' =>
    cases hchannel
    have hr : Waits c (.cacheWrite c) := Or.inr (Or.inl rfl)
    rw [LineView.receive]
    split
    · rename_i hpending
      exact ⟨_, _, rfl, hwait hr hpending⟩
    · rename_i hpending
      have hnil := hempty (not_not.mp hpending)
      subst hnil
      split
      · exact ⟨_, _, rfl, oneTransaction_open hr rfl (Or.inr rfl)⟩
      · rename_i hvalid
        split
        · exact ⟨_, _, rfl, hkeep _ (by simpa [hr.tokens] using h) rfl⟩
        · exact ⟨_, _, rfl, oneTransaction_open hr rfl ⟨rfl, hvalid⟩⟩
  | .memResponse source c' =>
    have hc : c' = c := by cases source <;> exact Element.cache.inj hchannel
    subst hc
    exact hend .miss .shared rfl (Or.inr (by decide))
  | .toDirectory req => cases req <;> cases hchannel
  | .fromDirectory (.evictCacheLine c') =>
    cases hchannel
    have hr : Waits c (.fromDirectory (.evictCacheLine c)) := Or.inr (Or.inr rfl)
    rw [LineView.receive]
    split
    · rename_i hpending
      exact ⟨_, _, rfl, hwait hr hpending⟩
    · rename_i hpending
      have hnil := hempty (not_not.mp hpending)
      subst hnil
      exact ⟨_, _, rfl, hkeep _ (Or.inl ⟨not_not.mp hpending, rfl⟩) rfl⟩
  | .fromDirectory (.ackEvictCacheLine c') =>
    cases hchannel
    exact hend .eviction v.state rfl (Or.inl rfl)
  | .fromDirectory (.ackDirectoryWriteHit c') =>
    cases hchannel
    -- the cache waits for a write to a line it has
    have hopened : v.OneTransaction c (.hit :: tokens) := by
      rw [tokens_of_carries rfl, if_pos rfl] at h
      exact h
    obtain ⟨-, r', rest, -, hopen, -⟩ := oneTransaction_token (k := .hit) hopened
    rw [LineView.receive, if_neg hopen.2]
    exact hend .hit v.state rfl (Or.inr hopen.2)
  | .fromDirectory (.memResponse c') =>
    cases hchannel
    exact hend .miss .shared rfl (Or.inr (by decide))
  | .fromDirectory (.directoryCachelineForwardRequest o d) =>
    cases hchannel
    -- the transaction goes on with the response to the destination
    have htokens : ∀ c', tokensOf c' [.sent (.memResponse (some c) d)] =
        (Request.fromDirectory (.directoryCachelineForwardRequest c d)).tokens c' := by
      intro c'
      rw [tokensOf_cons, tokensOf_nil, List.append_nil]
      rfl
    refine ⟨_, _, rfl, ?_, fun c' _ => htokens c'⟩
    rw [htokens]
    exact oneTransaction_comm (oneTransaction_change h (by decide))
  | .fromDirectory (.directorySharedToExclusive c') =>
    cases hchannel
    exact ⟨_, _, rfl,
      hkeep _ (oneTransaction_change (show v.OneTransaction c tokens from h) (by decide)) rfl⟩
  | .fromDirectory (.cacheRead c') => cases hchannel
  | .writeThrough c' => cases hchannel
  | .acknowledgement c' => cases hchannel

/-! ### Steps and runs -/

namespace LineState

theorem transactional_initial : (initial : LineState C).Transactional where
  consistent := DirectoryEntry.consistent_empty
  one _ := Or.inl ⟨rfl, rfl⟩

/-- A request that is no longer in flight is received without an error. -/
theorem transactional_receive (present : Bool) (hentry : s.entry.Consistent)
    (h : ∀ c, (s.views c).OneTransaction c (r.tokens c ++ tokensOf c s.inFlight)) :
    ∃ t, s.receive present r = some t ∧ t.Transactional := by
  -- a receiver that is no cache leaves the views alone
  have hother : ∀ (entry : DirectoryEntry C) (flights : List (Flight (Request C))),
      entry.Consistent → (∀ c, tokensOf c flights = r.tokens c) →
      Transactional { s with entry := entry, inFlight := s.inFlight ++ flights } := by
    intro entry flights hentry' htokens
    refine ⟨hentry', fun c => ?_⟩
    rw [tokensOf_append, htokens]
    exact oneTransaction_comm (h c)
  rcases r.receiver_cases with ⟨c, hchannel⟩ | ⟨req, rfl⟩ | ⟨c, rfl⟩ | ⟨c, rfl⟩ | ⟨c, rfl⟩
  · obtain ⟨v', flights, heq, hone, hothers⟩ := oneTransaction_receive hchannel (h c)
    refine ⟨s.setView c v' flights, by rw [receive_of_cache hchannel, heq]; rfl, hentry,
      fun c' => ?_⟩
    rw [setView_inFlight, tokensOf_append]
    by_cases hc : c' = c
    · subst hc
      rw [setView_views_self]
      exact hone
    · rw [setView_views_of_ne s hc, hothers c' hc]
      exact oneTransaction_comm (h c')
  · obtain ⟨e', replies, heq, he'⟩ := DirectoryEntry.handle_consistent hentry req
    exact ⟨_, receive_toDirectory heq, hother e' _ he' (handle_tokens hentry heq)⟩
  · refine ⟨_, rfl, hother s.entry _ hentry fun c' => ?_⟩
    rw [tokensOf_cons, tokensOf_nil, List.append_nil]
    rfl
  · exact ⟨s, rfl, hentry, h⟩
  · exact ⟨s, rfl, hentry, h⟩

theorem Transactional.of_delivered {before after : List (Flight (Request C))}
    (h : s.Transactional) (hf : s.inFlight = before ++ f :: after) (c : C) :
    (s.views c).OneTransaction c (f.event.tokens c ++ tokensOf c (before ++ after)) := by
  have hone := h.one c
  rw [hf, tokensOf_append, tokensOf_cons] at hone
  refine oneTransaction_perm ?_ hone
  rw [tokensOf_append, ← List.append_assoc, ← List.append_assoc]
  exact List.perm_append_comm.append_right _

/-- No delivery makes a cache or the directory exit with an error. -/
theorem Transactional.receive_isSome {before after : List (Flight (Request C))} {present : Bool}
    (h : s.Transactional) (hf : s.inFlight = before ++ f :: after) :
    (receive { s with inFlight := before ++ after } present f.event).isSome := by
  obtain ⟨t, heq, -⟩ := transactional_receive (s := { s with inFlight := before ++ after })
    present h.consistent (h.of_delivered hf)
  rw [heq]
  rfl

theorem Transactional.step {label : LineLabel C} (h : s.Transactional) (hstep : Step s label t) :
    t.Transactional := by
  cases label with
  | access c isWrite =>
    have hr : Waits c (accessRequest c isWrite) := by
      cases isWrite
      · exact Or.inl rfl
      · exact Or.inr (Or.inl rfl)
    obtain ⟨t', heq, ht'⟩ := transactional_receive (s := s) (r := accessRequest c isWrite)
      true h.consistent (fun c' => by
        rw [hr.tokens]
        exact h.one c')
    cases heq.symm.trans hstep
    exact ht'
  | deliver before flight after present =>
    obtain ⟨hf, hreceive⟩ := hstep
    obtain ⟨t', heq, ht'⟩ := transactional_receive (s := { s with inFlight := before ++ after })
      present h.consistent (h.of_delivered hf)
    cases heq.symm.trans hreceive
    exact ht'
  | postpone before flight after =>
    obtain ⟨hf, rfl, -⟩ := hstep
    refine ⟨h.consistent, fun c => ?_⟩
    have hone := oneTransaction_comm (h.of_delivered hf c)
    rw [tokensOf_append, tokensOf_cons, tokensOf_nil, List.append_nil]
    exact hone
  | replaceLine c =>
    obtain ⟨hpending, hstate, rfl⟩ := hstep
    have htokens : ∀ c', tokensOf c'
        [.sent (.toDirectory (.directoryEvictedFromCoherentCache c))] =
          if c = c' then [.eviction] else [] := by
      intro c'
      rw [tokensOf_cons, tokensOf_nil, List.append_nil]
      exact tokens_of_carries rfl c'
    refine ⟨h.consistent, fun c' => ?_⟩
    rw [setView_inFlight, tokensOf_append, htokens]
    by_cases hc : c' = c
    · subst hc
      have hnone : tokensOf c' s.inFlight = [] := by
        rcases h.one c' with ⟨-, hnil⟩ | ⟨k, r, rest, -, hcons, -⟩
        · exact hnil
        · rw [hpending] at hcons
          cases hcons
      rw [hnone, setView_views_self, if_pos rfl]
      exact Or.inr ⟨.eviction, _, [], rfl, rfl, rfl, by simp⟩
    · rw [setView_views_of_ne s hc, if_neg (Ne.symm hc), List.append_nil]
      exact h.one c'
  | replaceEntry =>
    cases hstep
    refine ⟨DirectoryEntry.consistent_empty, fun c => ?_⟩
    rw [tokensOf_append, tokensOf_evicts, List.append_nil]
    exact h.one c
  | evictShared =>
    cases hstep
    refine ⟨h.consistent, fun c => ?_⟩
    rw [tokensOf_append, tokensOf_cons]
    exact oneTransaction_comm (h.one c)

end LineState

end Tejas
