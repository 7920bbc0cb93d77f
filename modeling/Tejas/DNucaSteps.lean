import Tejas.DNuca

/-!
# What the handlers of a bank change

The lines of a bank after a hit, a fill and a state change, the messages after one was
taken, and the MSHR after a request was added, each seen through what the search
invariants speak of.
-/

namespace Tejas
open LabelledRuns

/-! ### Lines -/

namespace LineArray

variable {σ : Type} {l l' : LineArray σ} {g : Geometry} {addr a : Address} {i : ℕ}
  {locked : Address → Bool} {state : MESI}

theorem nucaFillLine_eq_some {evicted : Bool}
    (h : l.nucaFillLine g locked addr = some (i, evicted)) :
    i ∈ g.ways addr ∧ (l.access g addr = some i ∨ l.access g addr = none) := by
  rw [nucaFillLine] at h
  split at h
  · rename_i j hj
    cases h
    exact ⟨(access_eq_some hj).1, Or.inl hj⟩
  · rename_i hnone
    split at h
    · rename_i j hj
      cases h
      exact ⟨List.mem_of_find?_eq_some hj, Or.inr hnone⟩
    · obtain ⟨j, hj, heq⟩ := Option.map_eq_some_iff.mp h
      cases heq
      rcases leastRecent_eq_some hj with ⟨hmem, -⟩ | hbest
      · exact ⟨hmem, Or.inr hnone⟩
      · cases hbest

/-- A fill gives its line the state asked for. Every other valid line was valid before. -/
theorem nucaFill_spec {evicted : Option (CacheLine σ)} (ht : l.Tagged g)
    (h : l.nucaFill g locked addr state = some (l', evicted)) :
    l'.Tagged g ∧ (∀ a, g.SameLine a addr → l'.stateAt g a = state) ∧
      ∀ a, ¬ g.SameLine a addr → l'.stateAt g a ≠ .invalid → l.stateAt g a ≠ .invalid := by
  rw [nucaFill] at h
  split at h
  · cases h
  · rename_i i evicted' hfill
    cases h
    obtain ⟨hi, hfound⟩ := nucaFillLine_eq_some hfill
    refine ⟨tagged_place state hi hfound ht, ?_, ?_⟩
    · intro a ha
      rw [stateAt_congr ha, stateAt, access_place_self state hi hfound]
      simp [place, setLine]
    · intro a ha hvalid
      rw [stateAt_place state hi ht ha] at hvalid
      split at hvalid
      · exact absurd rfl hvalid
      · exact hvalid

/-- An access finds a valid line, and only its time changes. -/
theorem accessAndMark_spec (ht : l.Tagged g) (addr : Address) :
    (∃ i, l.accessAndMark g addr = (some i, l.mark i) ∧ l.access g addr = some i ∧
      l.stateAt g addr ≠ .invalid ∧ (l.mark i).Tagged g ∧ (l.mark i).access g addr = some i ∧
      ∀ a, (l.mark i).stateAt g a = l.stateAt g a) ∨
    l.accessAndMark g addr = (none, l) ∧ l.stateAt g addr = .invalid := by
  have hvalid : (l.accessValid g addr).isSome ↔ l.stateAt g addr ≠ .invalid :=
    accessValid_eq_some_iff
  unfold accessAndMark
  cases hfound : l.accessValid g addr with
  | none =>
    right
    refine ⟨rfl, ?_⟩
    rw [hfound] at hvalid
    by_contra hne
    cases hvalid.mpr hne
  | some i =>
    left
    obtain ⟨htagged, haccess, hstate⟩ := ht.of_timestamps (mark_lines l i)
    have hi : l.access g addr = some i := (Option.filter_eq_some_iff.mp hfound).1
    refine ⟨i, rfl, hi, ?_, htagged, ?_, hstate⟩
    · apply hvalid.mp
      rw [hfound]
      rfl
    · rw [haccess, hi]

/-- The line that an access has found is invalidated. -/
theorem setLine_invalid (haccess : l.access g addr = some i) :
    l.setLine i { l.lines i with state := .invalid } = l.setState g addr .invalid := by
  unfold setState
  rw [haccess]

end LineArray

/-! ### Bank sets -/

namespace NucaConfig

variable {cfg : NucaConfig} {bank current root destination row : ℕ} {a addr : Address}

theorem setId_of_mem (h : bank ∈ cfg.bankSet row) : cfg.setId bank = row := by
  obtain ⟨-, hrow⟩ := List.mem_filter.mp h
  have hrow := of_decide_eq_true hrow
  unfold setId
  rw [List.getD_eq_getElem?_getD, hrow]
  rfl

theorem nodup_bankSet (cfg : NucaConfig) (row : ℕ) : (cfg.bankSet row).Nodup :=
  List.nodup_range.filter _

/-- The banks of a set know each other. -/
theorem bankSet_of_mem (h : bank ∈ cfg.banksOf addr) :
    cfg.bankSet (cfg.setId bank) = cfg.banksOf addr := by
  unfold banksOf
  rw [setId_of_mem h]

theorem getBankNum_congr (h : cfg.geometry.SameLine a addr) :
    cfg.getBankNum a = cfg.getBankNum addr := by
  have hbits := cfg.geometry.bits_lt
  have hline := (Geometry.getLineAddr_eq_iff (by omega)).mp h
  have hshift : ∀ n, (a >>> (n + cfg.geometry.blockSizeBits)).toNat =
      (addr >>> (n + cfg.geometry.blockSizeBits)).toNat := by
    intro n
    rw [BitVec.toNat_ushiftRight, BitVec.toNat_ushiftRight, Nat.add_comm, Nat.shiftRight_add,
      Nat.shiftRight_add, hline]
  unfold getBankNum
  cases cfg.mapping with
  | setAssociative =>
    dsimp only
    rw [hshift]
  | address =>
    dsimp only
    rw [hshift]

theorem banksOf_congr (h : cfg.geometry.SameLine a addr) : cfg.banksOf a = cfg.banksOf addr := by
  unfold banksOf
  rw [getBankNum_congr h]

theorem banksOf_ne_nil (cfg : NucaConfig) (addr : Address) : cfg.banksOf addr ≠ [] := by
  have hpos : 0 < cfg.rows.length := List.length_pos_of_ne_nil cfg.rows_ne
  have hlt : cfg.getBankNum addr < cfg.rows.length := by
    have hle : cfg.getBankNum addr ≤ cfg.rows.length - 1 := Nat.and_le_right
    omega
  apply List.ne_nil_of_mem (a := cfg.getBankNum addr)
  refine List.mem_filter.mpr ⟨List.mem_range.mpr hlt, ?_⟩
  unfold setId
  rw [List.getD_eq_getElem?_getD, List.getElem?_eq_getElem hlt]
  simp

theorem destination_mem (h : cfg.getMigrateDestination current root = some destination) :
    destination ∈ cfg.bankSet (cfg.setId root) := by
  unfold getMigrateDestination at h
  dsimp only at h
  split at h
  · exact List.mem_of_getElem? h
  · split at h
    · cases h
    · exact List.mem_of_getElem? h

end NucaConfig

/-! ### Messages -/

namespace NucaMessage

/-- A search for the request that has not been counted yet: on its way, or answered with a
miss that is on its way. -/
def searchesFor (e : NucaRequest) : NucaMessage → Bool
  | .search e' _ => e' = e
  | .missReply e' => e' = e
  | _ => false

/-- The message belongs to the search for the request. -/
def isAbout (e : NucaRequest) : NucaMessage → Bool
  | .search e' _ => e' = e
  | .hitReply e' => e' = e
  | .missReply e' => e' = e
  | _ => false

/-- The message brings the line to a bank. -/
def carries (cfg : NucaConfig) (addr : Address) : NucaMessage → Bool
  | .migrateBlock _ a => decide (cfg.geometry.SameLine a addr)
  | .memResponse _ a => decide (cfg.geometry.SameLine a addr)
  | _ => false

def request? : NucaMessage → Option NucaRequest
  | .request e => some e
  | _ => none

end NucaMessage

def NucaRecord.isAbout (e : NucaRequest) : NucaRecord → Bool
  | .misses e' => e' = e
  | .finds e' _ => e' = e
  | .answersMiss e' _ => e' = e
  | .readsBelow e' => e' = e

theorem NucaRequest.event_injective {e e' : NucaRequest} (h : e.event = e'.event) : e = e' := by
  unfold NucaRequest.event at h
  injection h with hrequest _
  split at hrequest <;> split at hrequest <;> cases hrequest <;> rfl

namespace NucaState

variable {cfg : NucaConfig} {s t : NucaState} {e e' : NucaRequest} {bank i : ℕ}
  {m message : NucaMessage} {a addr : Address}

def pendingReplies (s : NucaState) (e : NucaRequest) : ℕ :=
  s.messages.countP (NucaMessage.searchesFor e)

def hitReplies (s : NucaState) (e : NucaRequest) : ℕ := s.messages.count (.hitReply e)

/-- How often the line is on its way to a bank. -/
def carriers (cfg : NucaConfig) (s : NucaState) (addr : Address) : ℕ :=
  s.messages.countP (NucaMessage.carries cfg addr) +
    s.readsBelow.countP (fun p => decide (cfg.geometry.SameLine p.2 addr))

/-- The events that wait for the line of an address. -/
def waiting (cfg : NucaConfig) (s : NucaState) (addr : Address) :
    List (AddressCarryingEvent NucaRequest) :=
  s.mshr.waiting cfg.geometry.blockSizeBits addr

/-- The request whose miss opened the list of its line. -/
def IsHead (cfg : NucaConfig) (s : NucaState) (e : NucaRequest) : Prop :=
  (s.waiting cfg e.address).head? = some e.event

/-- Nothing has been done yet for the request. -/
structure Unsearched (s : NucaState) (e : NucaRequest) : Prop where
  inactive : s.activeEventsInNuca e.bank e = none
  messages : ∀ m ∈ s.messages, m.isAbout e = false
  history : ∀ r ∈ s.history, r.isAbout e = false

/-- The requests that have not been handled: in ports, waiting for a free register, or in
the hands of the loop over these. -/
def queued (s : NucaState) (inHand : List NucaRequest) : List NucaRequest :=
  inHand ++ s.eventsWaitingOnMSHR ++ s.messages.filterMap NucaMessage.request?

theorem waiting_congr (h : cfg.geometry.SameLine a addr) :
    s.waiting cfg a = s.waiting cfg addr := MSHR.waiting_congr h

theorem carriers_congr (h : cfg.geometry.SameLine a addr) :
    s.carriers cfg a = s.carriers cfg addr := by
  have hiff : ∀ x, cfg.geometry.SameLine x a ↔ cfg.geometry.SameLine x addr :=
    fun x => ⟨fun hx => hx.trans h, fun hx => hx.trans h.symm⟩
  have hcarries : NucaMessage.carries cfg a = NucaMessage.carries cfg addr := by
    funext m
    cases m <;> simp [NucaMessage.carries, hiff]
  unfold carriers
  rw [hcarries]
  simp only [hiff]

theorem holds_congr (h : cfg.geometry.SameLine a addr) :
    s.Holds cfg bank a ↔ s.Holds cfg bank addr := by
  unfold Holds
  rw [LineArray.stateAt_congr h]

/-! ### A message is taken -/

theorem messages_perm (h : s.messages[i]? = some m) :
    List.Perm (m :: (s.take i).messages) s.messages := by
  obtain ⟨hi, rfl⟩ := List.getElem?_eq_some_iff.mp h
  exact List.getElem_cons_eraseIdx_perm hi

theorem pendingReplies_take (h : s.messages[i]? = some m) (e : NucaRequest) :
    s.pendingReplies e = (s.take i).pendingReplies e + if m.searchesFor e then 1 else 0 := by
  unfold pendingReplies
  rw [← (messages_perm h).countP_eq, List.countP_cons]

theorem hitReplies_take (h : s.messages[i]? = some m) (e : NucaRequest) :
    s.hitReplies e = (s.take i).hitReplies e + if m = .hitReply e then 1 else 0 := by
  unfold hitReplies
  rw [← (messages_perm h).count_eq, List.count_cons]
  simp

theorem carriers_take (cfg : NucaConfig) (h : s.messages[i]? = some m) (addr : Address) :
    s.carriers cfg addr = (s.take i).carriers cfg addr + if m.carries cfg addr then 1 else 0 := by
  have hreads : (s.take i).readsBelow = s.readsBelow := rfl
  unfold carriers
  rw [← (messages_perm h).countP_eq, List.countP_cons, hreads]
  omega

theorem mem_of_take (h : m ∈ (s.take i).messages) : m ∈ s.messages := List.mem_of_mem_eraseIdx h

theorem mem_take (h : s.messages[i]? = some message) (hm : m ∈ s.messages) (hne : m ≠ message) :
    m ∈ (s.take i).messages := by
  rcases List.mem_cons.mp ((messages_perm h).mem_iff.mpr hm) with heq | hmem
  · exact absurd heq hne
  · exact hmem

/-! ### Messages are sent -/

theorem pendingReplies_send (s : NucaState) (ms : List NucaMessage) (e : NucaRequest) :
    (s.send ms).pendingReplies e =
      s.pendingReplies e + ms.countP (NucaMessage.searchesFor e) := List.countP_append

theorem hitReplies_send (s : NucaState) (ms : List NucaMessage) (e : NucaRequest) :
    (s.send ms).hitReplies e = s.hitReplies e + ms.count (.hitReply e) := List.count_append

theorem carriers_send (cfg : NucaConfig) (s : NucaState) (ms : List NucaMessage) (addr : Address) :
    (s.send ms).carriers cfg addr =
      s.carriers cfg addr + ms.countP (NucaMessage.carries cfg addr) := by
  have hreads : (s.send ms).readsBelow = s.readsBelow := rfl
  have hmessages : (s.send ms).messages = s.messages ++ ms := rfl
  unfold carriers
  rw [hreads, hmessages, List.countP_append]
  omega

/-- The searches of a broadcast. -/
def broadcast (cfg : NucaConfig) (e : NucaRequest) : List NucaMessage :=
  ((cfg.bankSet (cfg.setId e.bank)).filter (fun bank => bank ≠ e.bank)).map (NucaMessage.search e)

theorem broadcast_searches (hplaced : e.bank ∈ cfg.banksOf e.address) :
    (broadcast cfg e).countP (NucaMessage.searchesFor e) + 1 = (cfg.banksOf e.address).length := by
  have hset := NucaConfig.bankSet_of_mem hplaced
  unfold broadcast
  rw [hset, List.countP_map]
  have hall : ∀ bank, ((NucaMessage.searchesFor e) ∘ NucaMessage.search e) bank = true := by
    intro bank
    simp [NucaMessage.searchesFor]
  rw [List.countP_eq_length.mpr (fun bank _ => hall bank)]
  have hnodup : (cfg.banksOf e.address).Nodup := cfg.nodup_bankSet _
  have herase := hnodup.erase_eq_filter e.bank
  have hlength := List.length_erase_of_mem hplaced
  have hpos := List.length_pos_of_mem hplaced
  rw [herase] at hlength
  simp only [bne, ne_eq, decide_not] at hlength ⊢
  have hsame : (List.filter (fun x => !x == e.bank) (cfg.banksOf e.address)).length =
      (List.filter (fun x => !decide (x = e.bank)) (cfg.banksOf e.address)).length := rfl
  omega

theorem countP_broadcast {p : NucaMessage → Bool} (h : ∀ bank, p (.search e bank) = false) :
    (broadcast cfg e).countP p = 0 := by
  rw [List.countP_eq_zero]
  intro m hm
  obtain ⟨bank, -, rfl⟩ := List.mem_map.mp hm
  rw [h bank]
  exact Bool.false_ne_true

theorem mem_broadcast (hplaced : e.bank ∈ cfg.banksOf e.address)
    (hbank : bank ∈ cfg.banksOf e.address) (hne : bank ≠ e.bank) :
    NucaMessage.search e bank ∈ broadcast cfg e := by
  unfold broadcast
  rw [NucaConfig.bankSet_of_mem hplaced]
  exact List.mem_map.mpr ⟨bank, List.mem_filter.mpr ⟨hbank, by simpa using hne⟩, rfl⟩

end NucaState

end Tejas
