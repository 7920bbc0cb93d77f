import Tejas.ShmChannel

/-!
# The consumer of the shared-memory channel

The channel is described by positions in the list of logged packets: the packets before
`acked` have left the shared memory, those before `written` have entered it, and the
rest are in the local queue. Position `p` lies in slot `p % COUNT`.
-/

namespace Tejas.ShmChannel

open LabelledRuns Peterson
open ShmLock (queueSizeWord get_lock tejas_get_lock get_lock_mirrors tejas_get_lock_mirrors)

/-! ## Words and packets -/

theorem word_setWord (p : Packet) (x : ℤ) (f g : Field) :
    word (setWord p x f) g = if g = f then x else word p g := by
  cases f <;> cases g <;> rfl

theorem word_setSlot (slots : ℕ → Packet) (i j : ℕ) (f g : Field) (x : ℤ) :
    word (setSlot slots i f x j) g = if j = i ∧ g = f then x else word (slots j) g := by
  by_cases hij : j = i
  · subst hij
    simp [setSlot, word_setWord]
  · simp [setSlot, hij]

/-- A slot that is not written keeps its packet. -/
theorem setSlot_of_ne (slots : ℕ → Packet) {i j : ℕ} (f : Field) (x : ℤ) (h : j ≠ i) :
    setSlot slots i f x j = slots j :=
  Function.update_of_ne h _ _

theorem Field.ofWord_inj {j k : ℕ} (hslot : j / 3 = k / 3)
    (hfield : Field.ofWord j = Field.ofWord k) : j = k := by
  have hrem : j % 3 = k % 3 := by
    have hj : j % 3 = 0 ∨ j % 3 = 1 ∨ j % 3 = 2 := by omega
    have hk : k % 3 = 0 ∨ k % 3 = 1 ∨ k % 3 = 2 := by omega
    rcases hj with h | h | h <;> rcases hk with h' | h' | h' <;>
      simp [ofWord, h, h'] at hfield ⊢
  omega

theorem eq_of_words {p q : Packet} (h : ∀ f, word p f = word q f) : p = q := by
  have hip := h .ip
  have hvalue := h .value
  have htgt := h .tgt
  cases p
  cases q
  simp_all [word]

theorem exists_word (i : ℕ) (f : Field) : ∃ k, k / 3 = i ∧ Field.ofWord k = f := by
  cases f with
  | ip => exact ⟨3 * i, by omega, by simp [Field.ofWord]⟩
  | value => exact ⟨3 * i + 1, by omega, by simp [Field.ofWord]⟩
  | tgt => exact ⟨3 * i + 2, by omega, by simp [Field.ofWord]⟩

/-- The words of an array of packets. -/
def wordsOf (ps : List Packet) : List ℤ := ps.flatMap (fun p => [p.ip, p.value, p.tgt])

theorem wordsOf_length (ps : List Packet) : (wordsOf ps).length = 3 * ps.length := by
  induction ps with
  | nil => rfl
  | cons p ps ih =>
    simp only [wordsOf] at ih
    simp [wordsOf, ih]
    omega

theorem packetsOf_wordsOf (ps : List Packet) : State.packetsOf (wordsOf ps) = ps := by
  induction ps with
  | nil => rfl
  | cons p ps ih =>
    have hrest : wordsOf (p :: ps) = p.ip :: p.value :: p.tgt :: wordsOf ps := rfl
    rw [hrest, State.packetsOf, ih]

theorem wordsOf_getElem? (ps : List Packet) (k : ℕ) :
    (wordsOf ps)[k]? = (ps[k / 3]?).map (fun p => word p (Field.ofWord k)) := by
  induction ps generalizing k with
  | nil => simp [wordsOf]
  | cons p ps ih =>
    have hrest : wordsOf (p :: ps) = p.ip :: p.value :: p.tgt :: wordsOf ps := rfl
    match k with
    | 0 => rfl
    | 1 => rfl
    | 2 => rfl
    | k + 3 =>
      have hdiv : (k + 3) / 3 = k / 3 + 1 := by omega
      have hfield : Field.ofWord (k + 3) = Field.ofWord k := by simp [Field.ofWord]
      rw [hrest, hdiv, hfield]
      simpa using ih k

/-- Positions less than one round apart lie in different slots. -/
theorem slot_ne {n p q : ℕ} (hpq : p < q) (hq : q < p + n) : p % n ≠ q % n := by
  intro heq
  have hslot : RingWindow.slot n 0 p = RingWindow.slot n 0 q := by
    simpa [RingWindow.slot] using heq
  have hsame : p = q := RingWindow.slot_inj_of_le hpq.le hq hslot
  omega

/-- The two pieces of `shmreadMult` are consecutive slots of the ring. -/
theorem sourceSlot_eq {index num i : ℕ} (hindex : index < COUNT) (hi : i < num)
    (hnum : num ≤ COUNT) : State.sourceSlot index num i = (index + i) % COUNT := by
  unfold State.sourceSlot
  split
  · exact (Nat.mod_eq_of_lt (by omega)).symm
  · split
    · exact (Nat.mod_eq_of_lt (by omega)).symm
    · have hwrap : index + i = (i - (COUNT - index)) + COUNT := by omega
      rw [hwrap, Nat.add_mod_right, Nat.mod_eq_of_lt (by omega)]

/-! ## The invariant -/

/-- The packets `n` from position `acked` on. -/
def window (s : State) (acked n : ℕ) : List Packet := (s.logged.drop acked).take n

/-- Where the logged packets are. -/
structure Books (s : State) (written acked : ℕ) : Prop where
  obtains : s.obtained <+: s.logged
  total : s.logged.length = written + s.tlqsize
  size : s.words queueSizeWord = (written : ℤ) - acked
  acked_le : acked ≤ s.obtained.length
  obtained_le : s.obtained.length ≤ written
  fits : written ≤ acked + COUNT
  ring : ∀ p, acked ≤ p → p < written → s.logged[p]? = some (s.shmem (p % COUNT))
  prod_ptr : s.prod_ptr % COUNT = written % COUNT
  reader : s.readerLocation = s.obtained.length % COUNT
  tlqsize_le : s.tlqsize ≤ locQ
  inPtr : s.inPtr = (s.out + s.tlqsize) % locQ
  tlq : ∀ i < s.tlqsize, s.logged[written + i]? = some (s.tlq ((s.out + i) % locQ))

/-- The first `k` words are copied from the local queue to the shared memory. -/
def Copied (s : State) (k : ℕ) : Prop :=
  ∀ j < k, word (s.shmem ((s.prod_ptr + j / 3) % COUNT)) (Field.ofWord j) =
    word (s.tlq ((s.out + j / 3) % locQ)) (Field.ofWord j)

/-- The packets `shmwrite` is about to count are in the shared memory. -/
def Filled (s : State) (call : Call) (n : ℕ) : Prop :=
  match call with
  | .last numCISC =>
    n = 1 ∧ s.tlqsize = 0 ∧ s.shmem (s.prod_ptr % COUNT) = s.lastPacket numCISC
  | .analysisFn _ | .empty _ => 0 < n ∧ n ≤ s.tlqsize ∧ Copied s (3 * n)

/-- What the caller has left in the local queue when it calls `shmwrite`. -/
def Wants (s : State) : Call → Prop
  | .last _ => s.tlqsize = 0
  | .analysisFn _ | .empty _ => 0 < s.tlqsize

/-- What a successful `shmwrite` leaves in the local queue. -/
def Done (s : State) : Call → Prop
  | .last _ => s.tlqsize = 0
  | .analysisFn _ | .empty _ => s.tlqsize < locQ

/-- What holds in front of each access of the producer. -/
def ProducerAt (s : State) (written acked : ℕ) : Producer → Prop
  | .idle => s.producerLock = .outside
  | .starting i => s.producerLock = .outside ∧ i ≤ 2 ∧ written = acked
  | .locking call => Wants s call
  | .copying call n k => s.producerLock = .inside ∧ written + n ≤ acked + COUNT ∧
      (∀ c, call ≠ .last c) ∧ n ≤ s.tlqsize ∧ k < 3 * n ∧ Copied s k
  | .markingValue _ => s.producerLock = .inside ∧ written + 1 ≤ acked + COUNT ∧ s.tlqsize = 0
  | .markingIp _ => s.producerLock = .inside ∧ written + 1 ≤ acked + COUNT ∧ s.tlqsize = 0 ∧
      (s.shmem (s.prod_ptr % COUNT)).value = Encoding.threadComplete
  | .counting call n =>
      s.producerLock = .inside ∧ written + n ≤ acked + COUNT ∧ Filled s call n
  | .storing call n queue_size => s.producerLock = .inside ∧ written + n ≤ acked + COUNT ∧
      Filled s call n ∧ queue_size = (written : ℤ) - acked
  | .leaving call done => s.producerLock = .inside ∧ (done = true → Done s call)

/-- What holds in front of each access of the consumer. -/
def ConsumerAt (s : State) (written acked : ℕ) : Consumer → Prop
  | .idle => s.consumerLock = .outside ∧ s.obtained.length = acked
  | .sizing _ => s.obtained.length = acked
  | .sized _ size =>
      s.consumerLock = .inside ∧ s.obtained.length = acked ∧ size ≤ (written : ℤ) - acked
  | .reading n ret => s.obtained.length = acked ∧ 0 < n ∧ acked + n ≤ written ∧
      ret = (wordsOf (window s acked n)).take ret.length
  | .updating n => s.obtained.length = acked + n ∧ 0 < n
  | .storing n size => s.consumerLock = .inside ∧ s.obtained.length = acked + n ∧ 0 < n ∧
      size = (written : ℤ) - acked
  | .stored => s.consumerLock = .inside ∧ s.obtained.length = acked

/-- The consumer depends on its lock only while it holds packets that are not yet
taken off the queue size. -/
def Consumer.CountsOnly : Consumer → Prop
  | .sizing _ | .sized _ _ | .stored => True
  | .idle | .reading _ _ | .updating _ | .storing _ _ => False

/-- The invariant of the channel. `kept` fails while the consumer is in a call of the
lock whose flag `onThread_start` has cleared. -/
structure Sound (s : State) (written acked : ℕ) (kept : Prop) : Prop where
  books : Books s written acked
  lock : Excludes get_lock tejas_get_lock s.words s.producerLock s.consumerLock True kept
  producer : ProducerAt s written acked s.producer
  consumer : ConsumerAt s written acked s.consumer
  unkept : ¬ kept → s.consumer.CountsOnly

namespace Sound

variable {s : State} {written acked : ℕ} {kept : Prop}

/-! ## The consumer -/

theorem consumerAdvance_size (s : State) :
    s.consumerAdvance.words queueSizeWord = s.words queueSizeWord :=
  tejas_get_lock.advance_frame _ _ (by decide) (by decide)

/-- Neither side sees the accesses of the lock in its packets. -/
theorem books_consumerAdvance (h : Books s written acked) :
    Books s.consumerAdvance written acked :=
  { h with size := (consumerAdvance_size s).trans h.size }

theorem lock_consumerAdvance
    (h : Excludes get_lock tejas_get_lock s.words s.producerLock s.consumerLock True kept) :
    Excludes get_lock tejas_get_lock s.consumerAdvance.words s.producerLock
      s.consumerAdvance.consumerLock True (kept ∨ s.consumerLock = .inside) :=
  ((h.symm get_lock_mirrors).advance tejas_get_lock_mirrors get_lock_mirrors).symm
    tejas_get_lock_mirrors

/-- The queue size is not a word of the lock. -/
theorem lock_setSize
    (h : Excludes get_lock tejas_get_lock s.words s.producerLock s.consumerLock True kept)
    (size : ℤ) :
    Excludes get_lock tejas_get_lock (Function.update s.words queueSizeWord size) s.producerLock
      s.consumerLock True kept := by
  refine h.frame ?_ ?_ ?_
  · exact Function.update_of_ne (show get_lock.flag ≠ queueSizeWord by decide) _ _
  · exact Function.update_of_ne (show tejas_get_lock.flag ≠ queueSizeWord by decide) _ _
  · exact Function.update_of_ne (show get_lock.turn ≠ queueSizeWord by decide) _ _

/-- After `tejas_release_lock` the consumer is outside and its flag is kept. -/
theorem lock_released
    (h : Excludes get_lock tejas_get_lock s.words s.producerLock s.consumerLock True kept)
    (hin : s.consumerLock = .inside) :
    Excludes get_lock tejas_get_lock s.consumerAdvance.words s.producerLock
      s.consumerAdvance.consumerLock True True := by
  simpa [hin] using lock_consumerAdvance h

theorem consumerAdvance_outside (hin : s.consumerLock = .inside) :
    s.consumerAdvance.consumerLock = .outside := by
  simp [State.consumerAdvance, hin, LockCode.advance]

/-- An access of the waiting loop. -/
theorem consumer_waits (h : Sound s written acked kept) (hout : s.consumerLock ≠ .inside)
    (hphase : ConsumerAt s.consumerAdvance written acked s.consumer) :
    Sound s.consumerAdvance written acked kept where
  books := books_consumerAdvance h.books
  lock := by
    have moved := lock_consumerAdvance h.lock
    simp only [hout, or_false] at moved
    exact moved
  producer := h.producer
  consumer := hphase
  unkept := h.unkept

theorem consumer_sizes (h : Sound s written acked kept) (hin : s.consumerLock = .inside)
    {spaceLeft : ℤ} (hphase : s.consumer = .sizing spaceLeft) :
    Sound { s with consumer := .sized spaceLeft (s.words queueSizeWord) } written acked kept where
  books := { h.books with }
  lock := h.lock
  producer := h.producer
  consumer := by
    have hthere := h.consumer
    rw [hphase] at hthere
    exact ⟨hin, hthere, h.books.size.le⟩
  unkept := fun _ => trivial

/-- `numPacketsAlternate` returns. The size it read is still covered: the producer only
adds packets. -/
theorem consumer_chooses (h : Sound s written acked kept) {spaceLeft size : ℤ}
    (hphase : s.consumer = .sized spaceLeft size) :
    Sound (s.consumerAdvance.choose spaceLeft size) written acked True := by
  have hthere := h.consumer
  rw [hphase] at hthere
  obtain ⟨hin, hlen, hsize⟩ := hthere
  have books := books_consumerAdvance h.books
  have lock := lock_released h.lock hin
  unfold State.choose
  by_cases hnone : (min size spaceLeft).toNat = 0
  · simp only [hnone, if_true]
    exact
      { books := { books with }
        lock := lock
        producer := h.producer
        consumer := ⟨consumerAdvance_outside hin, hlen⟩
        unkept := fun hk => absurd trivial hk }
  · simp only [hnone, if_false]
    have hfit : acked + (min size spaceLeft).toNat ≤ written := by omega
    exact
      { books := { books with }
        lock := lock
        producer := h.producer
        consumer := ⟨hlen, Nat.pos_of_ne_zero hnone, hfit, rfl⟩
        unkept := fun hk => absurd trivial hk }

/-- The word that `shmreadMult` copies next is the next word of the window. -/
theorem readWord_eq (books : Books s written acked) {n k : ℕ}
    (hlen : s.obtained.length = acked) (hn : acked + n ≤ written) (hk : k < 3 * n) :
    (wordsOf (window s acked n))[k]? = some (s.readWord n k) := by
  have hslot : k / 3 < n := by omega
  have hindex : s.readerLocation < COUNT := by
    rw [books.reader]
    exact Nat.mod_lt _ COUNT_pos
  have hsource : State.sourceSlot s.readerLocation n (k / 3) = (acked + k / 3) % COUNT := by
    have hfits := books.fits
    rw [sourceSlot_eq hindex hslot (by omega), books.reader, hlen, Nat.mod_add_mod]
  have hpacket : (window s acked n)[k / 3]? = some (s.shmem ((acked + k / 3) % COUNT)) := by
    rw [window, List.getElem?_take_of_lt hslot, List.getElem?_drop]
    exact books.ring _ (by omega) (by omega)
  rw [wordsOf_getElem?, hpacket, State.readWord, hsource]
  rfl

theorem consumer_reads (h : Sound s written acked kept) {n : ℕ} {ret : List ℤ}
    (hphase : s.consumer = .reading n ret) (hmore : ret.length < 3 * n) :
    Sound { s with consumer := .reading n (ret ++ [s.readWord n ret.length]) }
      written acked kept where
  books := { h.books with }
  lock := h.lock
  producer := h.producer
  consumer := by
    have hthere := h.consumer
    rw [hphase] at hthere
    obtain ⟨hlen, hpos, hfit, hret⟩ := hthere
    have hword := readWord_eq h.books hlen hfit hmore
    refine ⟨hlen, hpos, hfit, ?_⟩
    rw [List.length_append, List.length_singleton, List.take_add_one]
    show _ = _ ++ ((wordsOf (window s acked n))[ret.length]?).toList
    rw [hword, Option.toList_some]
    exact congrArg (· ++ [s.readWord n ret.length]) hret
  unkept := by
    intro hk
    have honly := h.unkept hk
    rw [hphase] at honly
    exact honly.elim

theorem window_length (books : Books s written acked) {n : ℕ} (hn : acked + n ≤ written) :
    (window s acked n).length = n := by
  have htotal := books.total
  simp only [window, List.length_take, List.length_drop]
  omega

/-- `shmreadMult` returns: the packets handed over are the next ones of the log. -/
theorem consumer_hands (h : Sound s written acked kept) (hin : s.consumerLock = .inside)
    {n : ℕ} {ret : List ℤ} (hphase : s.consumer = .reading n ret)
    (hall : ¬ ret.length < 3 * n) :
    Sound (s.consumerAdvance.handOver n ret) written acked True := by
  have hthere := h.consumer
  rw [hphase] at hthere
  obtain ⟨hlen, hpos, hfit, hret⟩ := hthere
  have hwindow := window_length h.books hfit
  have hwords : (wordsOf (window s acked n)).length = 3 * n := by
    rw [wordsOf_length, hwindow]
  have hpackets : State.packetsOf ret = window s acked n := by
    rw [hret, List.take_of_length_le (by omega), packetsOf_wordsOf]
  have books := books_consumerAdvance h.books
  have hobtained : s.obtained = s.logged.take acked := by
    rw [← hlen]
    exact List.prefix_iff_eq_take.mp h.books.obtains
  have hnow : s.obtained ++ State.packetsOf ret = s.logged.take (acked + n) := by
    rw [hpackets, hobtained, window, List.take_add]
  have hcount : (s.obtained ++ State.packetsOf ret).length = acked + n := by
    rw [List.length_append, hpackets, hwindow, hlen]
  exact
    { books :=
        { books with
          obtains := by
            show s.obtained ++ State.packetsOf ret <+: s.logged
            rw [hnow]
            exact List.take_prefix _ _
          acked_le := by
            show acked ≤ (s.obtained ++ State.packetsOf ret).length
            omega
          obtained_le := by
            show (s.obtained ++ State.packetsOf ret).length ≤ written
            omega
          reader := by
            show (s.readerLocation + n) % COUNT =
              (s.obtained ++ State.packetsOf ret).length % COUNT
            rw [hcount, h.books.reader, hlen, Nat.mod_add_mod] }
      lock := lock_released h.lock hin
      producer := h.producer
      consumer := ⟨hcount, hpos⟩
      unkept := fun hk => absurd trivial hk }

/-- What the consumer has handed over is still counted when it takes it off. -/
theorem consumer_loads (h : Sound s written acked kept) (hin : s.consumerLock = .inside)
    {n : ℕ} (hphase : s.consumer = .updating n) :
    Sound { s with consumer := .storing n (s.words queueSizeWord) } written acked kept where
  books := { h.books with }
  lock := h.lock
  producer := h.producer
  consumer := by
    have hthere := h.consumer
    rw [hphase] at hthere
    exact ⟨hin, hthere.1, hthere.2, h.books.size⟩
  unkept := by
    intro hk
    have honly := h.unkept hk
    rw [hphase] at honly
    exact honly.elim

/-- The producer is not in the lock while the consumer changes the queue size. -/
theorem producerAt_taken (h : Sound s written acked kept) (hk : kept)
    (hin : s.consumerLock = .inside) {n : ℕ} (hlen : s.obtained.length = acked + n)
    (hpos : 0 < n) : ProducerAt s written (acked + n) s.producer := by
  have hout : s.producerLock ≠ .inside := by
    intro hprod
    exact h.lock.not_both_inside get_lock_mirrors trivial hk ⟨hprod, hin⟩
  have hthere := h.producer
  have hobtained := h.books.obtained_le
  cases hp : s.producer with
  | idle =>
    rw [hp] at hthere
    exact hthere
  | starting i =>
    rw [hp] at hthere
    have hempty : written = acked := hthere.2.2
    omega
  | locking call =>
    rw [hp] at hthere
    exact hthere
  | copying | markingValue | markingIp | counting | storing | leaving =>
    rw [hp] at hthere
    exact absurd hthere.1 hout

theorem kept_of_storing (h : Sound s written acked kept) {n : ℕ} {size : ℤ}
    (hphase : s.consumer = .storing n size) : kept := by
  by_contra hno
  have honly := h.unkept hno
  rw [hphase] at honly
  exact honly

theorem consumer_stores (h : Sound s written acked kept) {n : ℕ} {size : ℤ}
    (hphase : s.consumer = .storing n size) :
    Sound { s with
      words := Function.update s.words queueSizeWord (size - n)
      consumer := .stored } written (acked + n) kept := by
  have hthere := h.consumer
  rw [hphase] at hthere
  obtain ⟨hin, hlen, hpos, hsize⟩ := hthere
  have hk := h.kept_of_storing hphase
  have hfits := h.books.fits
  exact
    { books :=
        { h.books with
          size := by
            show Function.update s.words queueSizeWord (size - n) queueSizeWord = _
            rw [Function.update_self, hsize]
            omega
          acked_le := hlen.ge
          fits := by omega
          ring := fun p hp => h.books.ring p (by omega) }
      lock := lock_setSize h.lock _
      producer := producerAt_taken h hk hin hlen hpos
      consumer := ⟨hin, hlen⟩
      unkept := fun _ => trivial }

theorem consumer_returns (h : Sound s written acked kept) (hphase : s.consumer = .stored) :
    Sound { s.consumerAdvance with consumer := .idle } written acked True := by
  have hthere := h.consumer
  rw [hphase] at hthere
  obtain ⟨hin, hlen⟩ := hthere
  exact
    { books := { books_consumerAdvance h.books with }
      lock := lock_released h.lock hin
      producer := h.producer
      consumer := ⟨consumerAdvance_outside hin, hlen⟩
      unkept := fun hk => absurd trivial hk }

/-- Every access of the consumer keeps the invariant. -/
theorem consumerStep {t : State} (h : Sound s written acked kept)
    (hs : s.consumerStep = some t) : ∃ acked' kept', Sound t written acked' kept' := by
  have hthere := h.consumer
  cases hphase : s.consumer with
  | idle => simp [State.consumerStep, hphase] at hs
  | sizing spaceLeft =>
    simp only [State.consumerStep, hphase] at hs hthere
    split at hs
    · rename_i hin
      exact ⟨_, _, Option.some.inj hs ▸ h.consumer_sizes hin hphase⟩
    · rename_i hout
      have waits := h.consumer_waits hout (by rw [hphase]; exact hthere)
      exact ⟨_, _, Option.some.inj hs ▸ waits⟩
  | sized spaceLeft size =>
    simp only [State.consumerStep, hphase] at hs
    exact ⟨_, _, Option.some.inj hs ▸ h.consumer_chooses hphase⟩
  | reading n ret =>
    simp only [State.consumerStep, hphase] at hs hthere
    split at hs
    · rename_i hin
      split at hs
      · rename_i hmore
        exact ⟨_, _, Option.some.inj hs ▸ h.consumer_reads hphase hmore⟩
      · rename_i hall
        exact ⟨_, _, Option.some.inj hs ▸ h.consumer_hands hin hphase hall⟩
    · rename_i hout
      have waits := h.consumer_waits hout (by rw [hphase]; exact hthere)
      exact ⟨_, _, Option.some.inj hs ▸ waits⟩
  | updating n =>
    simp only [State.consumerStep, hphase] at hs hthere
    split at hs
    · rename_i hin
      exact ⟨_, _, Option.some.inj hs ▸ h.consumer_loads hin hphase⟩
    · rename_i hout
      have waits := h.consumer_waits hout (by rw [hphase]; exact hthere)
      exact ⟨_, _, Option.some.inj hs ▸ waits⟩
  | storing n size =>
    simp only [State.consumerStep, hphase] at hs
    exact ⟨_, _, Option.some.inj hs ▸ h.consumer_stores hphase⟩
  | stored =>
    simp only [State.consumerStep, hphase] at hs
    exact ⟨_, _, Option.some.inj hs ▸ h.consumer_returns hphase⟩

end Sound

end Tejas.ShmChannel
