import Tejas.ShmConsumer

/-!
# What the consumer obtains from the channel

The producer's accesses keep the invariant of the channel, and so does a thread that
starts on an empty queue. In a state where neither side is in a call the invariant names
every packet logged: obtained, in the shared memory, or in the local queue.
-/

namespace Tejas.ShmChannel

open LabelledRuns Peterson
open ShmLock (queueSizeWord get_lock tejas_get_lock get_lock_mirrors tejas_get_lock_mirrors)

namespace Sound

variable {s : State} {written acked : ℕ} {kept : Prop}

/-! ## The producer -/

theorem producerAdvance_size (s : State) :
    s.producerAdvance.words queueSizeWord = s.words queueSizeWord :=
  get_lock.advance_frame _ _ (by decide) (by decide)

theorem books_producerAdvance (h : Books s written acked) :
    Books s.producerAdvance written acked :=
  { h with size := (producerAdvance_size s).trans h.size }

theorem lock_producerAdvance
    (h : Excludes get_lock tejas_get_lock s.words s.producerLock s.consumerLock True kept) :
    Excludes get_lock tejas_get_lock s.producerAdvance.words s.producerAdvance.producerLock
      s.consumerLock True kept := by
  have moved := h.advance get_lock_mirrors tejas_get_lock_mirrors
  simp only [true_or] at moved
  exact moved

theorem producerAdvance_outside (hin : s.producerLock = .inside) :
    s.producerAdvance.producerLock = .outside := by
  simp [State.producerAdvance, hin, LockCode.advance]

/-- More logged packets and more packets in the ring change nothing for the consumer,
unless it is about to write the queue size. -/
theorem consumerAt_mono {t : State} {written' : ℕ} (books : Books s written acked)
    (hthere : ConsumerAt s written acked s.consumer) (hlog : s.logged <+: t.logged)
    (hobtained : t.obtained = s.obtained) (hlock : t.consumerLock = s.consumerLock)
    (hmore : written ≤ written')
    (hstore : ∀ n size, s.consumer = .storing n size → written' = written) :
    ConsumerAt t written' acked s.consumer := by
  cases hphase : s.consumer with
  | idle =>
    rw [hphase] at hthere
    exact ⟨hlock.trans hthere.1, hobtained ▸ hthere.2⟩
  | sizing spaceLeft =>
    rw [hphase] at hthere
    exact (congrArg List.length hobtained).trans hthere
  | sized spaceLeft size =>
    rw [hphase] at hthere
    refine ⟨hlock.trans hthere.1, hobtained ▸ hthere.2.1, ?_⟩
    have hsize := hthere.2.2
    omega
  | reading n ret =>
    rw [hphase] at hthere
    obtain ⟨hlen, hpos, hfit, hret⟩ := hthere
    have hwindow : window t acked n = window s acked n := by
      obtain ⟨more, hmoreLog⟩ := hlog
      have htotal := books.total
      rw [window, window, ← hmoreLog, List.drop_append_of_le_length (by omega),
        List.take_append_of_le_length (by rw [List.length_drop]; omega)]
    exact ⟨hobtained ▸ hlen, hpos, by omega, by rw [hwindow]; exact hret⟩
  | updating n =>
    rw [hphase] at hthere
    exact ⟨hobtained ▸ hthere.1, hthere.2⟩
  | storing n size =>
    rw [hphase] at hthere
    rw [hstore n size hphase]
    exact ⟨hlock.trans hthere.1, hobtained ▸ hthere.2.1, hthere.2.2⟩
  | stored =>
    rw [hphase] at hthere
    exact ⟨hlock.trans hthere.1, hobtained ▸ hthere.2⟩

theorem producer_waits (h : Sound s written acked kept) {call : Call}
    (hphase : s.producer = .locking call) : Sound s.producerAdvance written acked kept where
  books := books_producerAdvance h.books
  lock := lock_producerAdvance h.lock
  producer := by
    have hthere := h.producer
    rw [hphase] at hthere
    show ProducerAt _ written acked s.producer
    rw [hphase]
    exact hthere
  consumer := h.consumer
  unkept := h.unkept

/-- The free places of the ring. -/
theorem numWrite_eq (books : Books s written acked) : s.numWrite = acked + COUNT - written := by
  have hsize := books.size
  have hfits := books.fits
  have hle : acked ≤ written := books.acked_le.trans books.obtained_le
  have hsmall : (COUNT : ℤ) < 2 ^ 32 := by decide
  have hmod : ((COUNT : ℤ) - s.words queueSizeWord) % 2 ^ 32 = COUNT - s.words queueSizeWord :=
    Int.emod_eq_of_lt (by omega) (by omega)
  rw [State.numWrite, hmod]
  omega

/-- A step of the producer that changes neither words nor packets. -/
theorem producer_goes (h : Sound s written acked kept) {p : Producer}
    (hthere : ProducerAt s written acked p) :
    Sound { s with producer := p } written acked kept where
  books := { h.books with }
  lock := h.lock
  producer := hthere
  consumer := h.consumer
  unkept := h.unkept

theorem producer_measures (h : Sound s written acked kept) (hin : s.producerLock = .inside)
    {call : Call} (hphase : s.producer = .locking call) :
    Sound (s.measure call) written acked kept := by
  have hwants := h.producer
  rw [hphase] at hwants
  have hfree := numWrite_eq h.books
  have copies : ∀ call : Call, (∀ c, call ≠ .last c) → 0 < s.tlqsize → s.numWrite ≠ 0 →
      Sound (if min s.numWrite s.tlqsize = 0 then { s with producer := .counting call 0 }
        else { s with producer := .copying call (min s.numWrite s.tlqsize) 0 })
        written acked kept := by
    intro call hcall hsome hroom
    have hmin : min s.numWrite s.tlqsize ≠ 0 := by omega
    simp only [hmin, if_false]
    refine h.producer_goes ⟨hin, by omega, hcall, by omega, by omega, ?_⟩
    intro j hj
    exact absurd hj (Nat.not_lt_zero j)
  unfold State.measure
  by_cases hnone : s.numWrite = 0
  · simp only [hnone, if_true]
    exact h.producer_goes ⟨hin, fun hw => by cases hw⟩
  · simp only [hnone, if_false]
    cases call with
    | analysisFn p => exact copies _ (fun c hc => by cases hc) hwants hnone
    | empty numCISC => exact copies _ (fun c hc => by cases hc) hwants hnone
    | last numCISC => exact h.producer_goes ⟨hin, by omega, hwants⟩

/-- The slots from `prod_ptr` on are the slots of the next positions. -/
theorem prodSlot_eq (books : Books s written acked) (i : ℕ) :
    (s.prod_ptr + i) % COUNT = (written + i) % COUNT :=
  Nat.ModEq.add_right i books.prod_ptr

/-- Writing to a free slot leaves the unread packets as they are. -/
theorem books_setSlot (books : Books s written acked) {i : ℕ} (hi : written + i < acked + COUNT)
    (f : Field) (x : ℤ) :
    Books { s with shmem := setSlot s.shmem ((s.prod_ptr + i) % COUNT) f x } written acked where
  __ := books
  ring := by
    intro p hp hpw
    have hne : p % COUNT ≠ (s.prod_ptr + i) % COUNT := by
      rw [prodSlot_eq books]
      exact slot_ne (by omega) (by omega)
    show s.logged[p]? = some (setSlot s.shmem _ f x (p % COUNT))
    rw [setSlot_of_ne _ _ _ hne]
    exact books.ring p hp hpw

theorem copied_next {n k : ℕ} (hfit : n ≤ COUNT) (hk : k < 3 * n) (h : Copied s k)
    (call : Call) : Copied (s.copyWord call n k) (k + 1) := by
  intro j hj
  show word (setSlot s.shmem ((s.prod_ptr + k / 3) % COUNT) (Field.ofWord k) _ _) _ = _
  rw [word_setSlot]
  by_cases hsame : j = k
  · subst hsame
    simp [State.copyWord]
  · have hdiff : ¬ ((s.prod_ptr + j / 3) % COUNT = (s.prod_ptr + k / 3) % COUNT ∧
        Field.ofWord j = Field.ofWord k) := by
      intro hboth
      obtain ⟨hslot, hfield⟩ := hboth
      have hdiv : j / 3 = k / 3 :=
        (RingWindow.slot_inj (n := COUNT) (by omega) (by omega)).mp hslot
      exact hsame (Field.ofWord_inj hdiv hfield)
    rw [show (s.copyWord call n k).prod_ptr = s.prod_ptr from rfl, if_neg hdiff]
    exact h j (by omega)

theorem producer_copies (h : Sound s written acked kept) {call : Call} {n k : ℕ}
    (hphase : s.producer = .copying call n k) :
    Sound (s.copyWord call n k) written acked kept := by
  have hthere := h.producer
  rw [hphase] at hthere
  obtain ⟨hin, hfit, hcall, hn, hk, hcopied⟩ := hthere
  have hle : acked ≤ written := h.books.acked_le.trans h.books.obtained_le
  have hnext := copied_next (by omega) hk hcopied call
  have books := books_setSlot h.books (i := k / 3) (by omega) (Field.ofWord k)
    (word (s.tlq ((s.out + k / 3) % locQ)) (Field.ofWord k))
  exact
    { books := { books with }
      lock := h.lock
      producer := by
        show ProducerAt _ written acked (if k + 1 < 3 * n then _ else _)
        split
        · rename_i hmore
          exact ⟨hin, hfit, hcall, hn, hmore, hnext⟩
        · rename_i hlast
          have hall : k + 1 = 3 * n := by omega
          rw [hall] at hnext
          refine ⟨hin, hfit, ?_⟩
          cases call with
          | analysisFn p => exact ⟨by omega, hn, hnext⟩
          | empty numCISC => exact ⟨by omega, hn, hnext⟩
          | last numCISC => exact absurd rfl (hcall numCISC)
      consumer := h.consumer
      unkept := h.unkept }

theorem producer_marks (h : Sound s written acked kept) {numCISC : ℤ}
    (hphase : s.producer = .markingValue numCISC) :
    Sound (s.markValue numCISC) written acked kept := by
  have hthere := h.producer
  rw [hphase] at hthere
  obtain ⟨hin, hfit, hempty⟩ := hthere
  have books := books_setSlot h.books (i := 0) (by omega) .value Encoding.threadComplete
  rw [Nat.add_zero] at books
  exact
    { books := { books with }
      lock := h.lock
      producer := by
        refine ⟨hin, hfit, hempty, ?_⟩
        show (setSlot s.shmem _ .value Encoding.threadComplete (s.prod_ptr % COUNT)).value = _
        simp [setSlot, setWord]
      consumer := h.consumer
      unkept := h.unkept }

theorem producer_marksIp (h : Sound s written acked kept) {numCISC : ℤ}
    (hphase : s.producer = .markingIp numCISC) :
    Sound (s.markIp numCISC) written acked kept := by
  have hthere := h.producer
  rw [hphase] at hthere
  obtain ⟨hin, hfit, hempty, hvalue⟩ := hthere
  have books := books_setSlot h.books (i := 0) (by omega) .ip numCISC
  rw [Nat.add_zero] at books
  exact
    { books := { books with }
      lock := h.lock
      producer := by
        refine ⟨hin, hfit, rfl, hempty, ?_⟩
        simp [State.markIp, State.lastPacket, setSlot, setWord, hvalue]
      consumer := h.consumer
      unkept := h.unkept }

theorem producer_counts (h : Sound s written acked kept) {call : Call} {n : ℕ}
    (hphase : s.producer = .counting call n) :
    Sound { s with producer := .storing call n (s.words queueSizeWord) } written acked kept := by
  have hthere := h.producer
  rw [hphase] at hthere
  exact h.producer_goes ⟨hthere.1, hthere.2.1, hthere.2.2, h.books.size⟩

/-- The packets that were copied are the next packets of the log. -/
theorem copied_logged (books : Books s written acked) {n : ℕ} (hn : n ≤ s.tlqsize)
    (hcopied : Copied s (3 * n)) {p : ℕ} (hp : written ≤ p) (hlt : p < written + n) :
    s.logged[p]? = some (s.shmem (p % COUNT)) := by
  obtain ⟨i, rfl⟩ := Nat.exists_eq_add_of_le hp
  have hi : i < n := by omega
  have hpacket : s.shmem ((s.prod_ptr + i) % COUNT) = s.tlq ((s.out + i) % locQ) := by
    apply eq_of_words
    intro f
    obtain ⟨k, hk, hf⟩ := exists_word i f
    have hword := hcopied k (by omega)
    rw [hk, hf] at hword
    exact hword
  rw [← prodSlot_eq books, hpacket]
  exact books.tlq i (by omega)

/-- The books once `n` packets of the local queue are in the shared memory. -/
theorem books_moved (books : Books s written acked) {n : ℕ} {queue_size : ℤ}
    (hfit : written + n ≤ acked + COUNT) (hn : n ≤ s.tlqsize) (hcopied : Copied s (3 * n))
    (hsize : queue_size = (written : ℤ) - acked) (p : Producer) :
    Books { s with
      out := (s.out + n) % locQ
      tlqsize := s.tlqsize - n
      words := Function.update s.words queueSizeWord (queue_size + n)
      prod_ptr := (s.prod_ptr + n) % COUNT
      producer := p } (written + n) acked := by
  have htotal := books.total
  have hobtained := books.obtained_le
  have hlocal := books.tlqsize_le
  exact
    { books with
      total := by
        show s.logged.length = written + n + (s.tlqsize - n)
        omega
      size := by
        show Function.update s.words queueSizeWord (queue_size + n) queueSizeWord = _
        rw [Function.update_self, hsize]
        omega
      obtained_le := by
        show s.obtained.length ≤ written + n
        omega
      fits := hfit
      ring := by
        intro p hp hlt
        rcases Nat.lt_or_ge p written with hold | hnew
        · exact books.ring p hp hold
        · exact copied_logged books hn hcopied hnew hlt
      prod_ptr := by
        show (s.prod_ptr + n) % COUNT % COUNT = (written + n) % COUNT
        rw [Nat.mod_mod, prodSlot_eq books]
      tlqsize_le := by
        show s.tlqsize - n ≤ locQ
        omega
      inPtr := by
        show s.inPtr = ((s.out + n) % locQ + (s.tlqsize - n)) % locQ
        rw [Nat.mod_add_mod, books.inPtr]
        congr 1
        omega
      tlq := by
        intro i hi
        have hlt : i < s.tlqsize - n := hi
        have hpacket := books.tlq (n + i) (by omega)
        show s.logged[written + n + i]? = some (s.tlq (((s.out + n) % locQ + i) % locQ))
        rw [Nat.mod_add_mod, Nat.add_assoc, Nat.add_assoc, hpacket] }

/-- The books once the last packet of a thread is in the shared memory. -/
theorem books_marked (books : Books s written acked) {numCISC queue_size : ℤ}
    (hfit : written + 1 ≤ acked + COUNT) (hempty : s.tlqsize = 0)
    (hlast : s.shmem (s.prod_ptr % COUNT) = s.lastPacket numCISC)
    (hsize : queue_size = (written : ℤ) - acked) (p : Producer) :
    Books { s with
      logged := s.logged ++ [s.lastPacket numCISC]
      words := Function.update s.words queueSizeWord (queue_size + 1)
      prod_ptr := (s.prod_ptr + 1) % COUNT
      producer := p } (written + 1) acked := by
  have htotal := books.total
  have hobtained := books.obtained_le
  exact
    { books with
      obtains := books.obtains.trans (List.prefix_append _ _)
      total := by
        show (s.logged ++ [s.lastPacket numCISC]).length = written + 1 + s.tlqsize
        rw [List.length_append, List.length_singleton]
        omega
      size := by
        show Function.update s.words queueSizeWord (queue_size + 1) queueSizeWord = _
        rw [Function.update_self, hsize]
        omega
      obtained_le := by
        show s.obtained.length ≤ written + 1
        omega
      fits := hfit
      ring := by
        intro p hp hlt
        show (s.logged ++ [s.lastPacket numCISC])[p]? = some (s.shmem (p % COUNT))
        rcases Nat.lt_or_ge p written with hold | hnew
        · rw [List.getElem?_append_left (by omega)]
          exact books.ring p hp hold
        · have hp : p = s.logged.length := by omega
          have hslot : p % COUNT = s.prod_ptr % COUNT := by
            rw [books.prod_ptr, hp, htotal, hempty, Nat.add_zero]
          rw [hslot, hlast, hp, List.getElem?_concat_length]
      prod_ptr := by
        show (s.prod_ptr + 1) % COUNT % COUNT = (written + 1) % COUNT
        rw [Nat.mod_mod, prodSlot_eq books]
      tlq := by
        intro i hi
        have hlt : i < s.tlqsize := hi
        omega }

/-- Only one side at a time changes the queue size. -/
theorem consumer_not_storing (h : Sound s written acked kept)
    (hin : s.producerLock = .inside) (n : ℕ) (size : ℤ) :
    s.consumer ≠ .storing n size := by
  intro hphase
  have hthere := h.consumer
  rw [hphase] at hthere
  have hk := h.kept_of_storing hphase
  exact h.lock.not_both_inside get_lock_mirrors trivial hk ⟨hin, hthere.1⟩

theorem producer_stores (h : Sound s written acked kept) {call : Call} {n : ℕ}
    {queue_size : ℤ} (hphase : s.producer = .storing call n queue_size) :
    Sound (s.storeSize call n queue_size) (written + n) acked kept := by
  have hthere := h.producer
  rw [hphase] at hthere
  obtain ⟨hin, hfit, hfilled, hsize⟩ := hthere
  have consumer : ∀ t : State, s.logged <+: t.logged → t.obtained = s.obtained →
      t.consumerLock = s.consumerLock → ConsumerAt t (written + n) acked s.consumer := by
    intro t hlog hobtained hlock
    refine consumerAt_mono h.books h.consumer hlog hobtained hlock (by omega) ?_
    intro m size hstore
    exact absurd hstore (h.consumer_not_storing hin m size)
  have hlocal := h.books.tlqsize_le
  cases call with
  | analysisFn p | empty numCISC =>
    obtain ⟨hpos, hn, hcopied⟩ := hfilled
    exact
      { books := books_moved h.books hfit hn hcopied hsize _
        lock := lock_setSize h.lock _
        producer := by
          refine ⟨hin, fun _ => ?_⟩
          show s.tlqsize - n < locQ
          omega
        consumer := consumer _ (List.prefix_refl _) rfl rfl
        unkept := h.unkept }
  | last numCISC =>
    obtain ⟨rfl, hempty, hlast⟩ := hfilled
    exact
      { books := books_marked h.books hfit hempty hlast hsize _
        lock := lock_setSize h.lock _
        producer := ⟨hin, fun _ => hempty⟩
        consumer := consumer _ (List.prefix_append _ _) rfl rfl
        unkept := h.unkept }

/-- A packet goes into a local queue that has room. -/
theorem producer_enqueues (h : Sound s written acked kept) (hout : s.producerLock = .outside)
    (hroom : s.tlqsize < locQ) (p : Packet) : Sound (s.enqueue p) written acked kept := by
  have books := h.books
  have htotal := books.total
  exact
    { books :=
        { books with
          obtains := books.obtains.trans (List.prefix_append _ _)
          total := by
            show (s.logged ++ [p]).length = written + (s.tlqsize + 1)
            rw [List.length_append, List.length_singleton]
            omega
          ring := by
            intro q hq hlt
            show (s.logged ++ [p])[q]? = _
            rw [List.getElem?_append_left (by omega)]
            exact books.ring q hq hlt
          tlqsize_le := hroom
          inPtr := by
            show (s.inPtr + 1) % locQ = (s.out + (s.tlqsize + 1)) % locQ
            rw [books.inPtr, Nat.mod_add_mod, Nat.add_assoc]
          tlq := by
            intro i hi
            have hlt : i < s.tlqsize + 1 := hi
            show (s.logged ++ [p])[written + i]? =
              some (Function.update s.tlq s.inPtr p ((s.out + i) % locQ))
            rcases Nat.lt_or_ge i s.tlqsize with hold | hnew
            · have hne : (s.out + i) % locQ ≠ s.inPtr := by
                rw [books.inPtr]
                exact slot_ne (by omega) (by omega)
              rw [Function.update_of_ne hne, List.getElem?_append_left (by omega)]
              exact books.tlq i hold
            · have hlast : i = s.tlqsize := by omega
              rw [hlast, ← books.inPtr, Function.update_self, ← htotal,
                List.getElem?_concat_length] }
      lock := h.lock
      producer := hout
      consumer := by
        show ConsumerAt (s.enqueue p) written acked s.consumer
        exact consumerAt_mono books h.consumer (List.prefix_append _ _) rfl rfl le_rfl
          (fun _ _ _ => rfl)
      unkept := h.unkept }

/-- The head of the loop of `onThread_finish`. -/
theorem producer_empties (h : Sound s written acked kept) (numCISC : ℤ) :
    Sound (s.onThread_finish numCISC) written acked kept := by
  unfold State.onThread_finish
  by_cases hempty : s.tlqsize = 0
  · rw [if_neg (not_not.mpr hempty)]
    exact h.producer_goes (p := .locking (.last numCISC)) hempty
  · rw [if_pos hempty]
    exact h.producer_goes (p := .locking (.empty numCISC)) (Nat.pos_of_ne_zero hempty)

theorem producer_returns (h : Sound s written acked kept) {call : Call} {done : Bool}
    (hphase : s.producer = .leaving call done) :
    Sound (s.producerAdvance.returnFrom call done) written acked kept := by
  have hthere := h.producer
  rw [hphase] at hthere
  obtain ⟨hin, hdone⟩ := hthere
  have released : Sound { s.producerAdvance with producer := .idle } written acked kept :=
    { books := { books_producerAdvance h.books with }
      lock := lock_producerAdvance h.lock
      producer := producerAdvance_outside hin
      consumer := h.consumer
      unkept := h.unkept }
  cases done with
  | false => exact released
  | true =>
    cases call with
    | analysisFn p =>
      exact released.producer_enqueues (producerAdvance_outside hin) (hdone rfl) p
    | empty numCISC => exact released.producer_empties numCISC
    | last numCISC =>
      have hempty : s.tlqsize = 0 := hdone rfl
      have same : State.returnFrom s.producerAdvance (.last numCISC) true =
          { s.producerAdvance with producer := .idle } := by
        simp [State.returnFrom, State.producerAdvance, hempty]
      rw [same]
      exact released

/-- `onThread_start` on an empty queue writes nothing that either side relies on: at
most the flag of a consumer that only looks at the queue size. -/
theorem producer_clears (h : Sound s written acked kept) {i : ℕ}
    (hphase : s.producer = .starting i) :
    ∃ kept', Sound (s.clearWord i) written acked kept' := by
  have hthere := h.producer
  rw [hphase] at hthere
  obtain ⟨hout, hi, hempty⟩ := hthere
  have hzero : s.words queueSizeWord = 0 := by
    rw [h.books.size, hempty]
    omega
  have phase : ∀ t : State, t.producerLock = s.producerLock →
      ProducerAt t written acked (if i < 2 then .starting (i + 1) else .idle) := by
    intro t hlock
    split
    · exact ⟨hlock.trans hout, by omega, hempty⟩
    · exact hlock.trans hout
  have books : Books (s.clearWord i) written acked :=
    { h.books with
      size := by
        show Function.update s.words i 0 queueSizeWord = _
        by_cases hsize : queueSizeWord = i
        · rw [hsize, Function.update_self, hempty]
          omega
        · rw [Function.update_of_ne hsize]
          exact h.books.size }
  match i, hi with
  | 0, _ =>
    exact ⟨kept, { books, lock := lock_setSize h.lock 0, producer := phase _ rfl,
                   consumer := h.consumer, unkept := h.unkept }⟩
  | 1, _ =>
    have lock := h.lock.reset get_lock_mirrors
    simp only [hout] at lock
    refine ⟨kept, { books, lock := ?_, producer := phase _ rfl,
                    consumer := h.consumer, unkept := h.unkept }⟩
    show Excludes get_lock tejas_get_lock (Function.update s.words 1 0) s.producerLock
      s.consumerLock True kept
    rw [hout]
    exact lock
  | 2, _ =>
    have lock := (h.lock.symm get_lock_mirrors).reset tejas_get_lock_mirrors
    refine ⟨_, { books, lock := lock.symm tejas_get_lock_mirrors, producer := phase _ rfl,
                 consumer := h.consumer, unkept := ?_ }⟩
    intro hbusy
    have hwhere := h.consumer
    have hobtained := h.books.obtained_le
    show s.consumer.CountsOnly
    cases hconsumer : s.consumer with
    | idle =>
      rw [hconsumer] at hwhere
      exact absurd hwhere.1 hbusy
    | sizing | sized | stored => trivial
    | reading n ret =>
      rw [hconsumer] at hwhere
      have hfit := hwhere.2.2.1
      have hpos := hwhere.2.1
      omega
    | updating n =>
      rw [hconsumer] at hwhere
      have hlen := hwhere.1
      have hpos := hwhere.2
      omega
    | storing n size =>
      rw [hconsumer] at hwhere
      have hlen := hwhere.2.1
      have hpos := hwhere.2.2.1
      omega

/-- Every access of the producer keeps the invariant. -/
theorem producerStep {t : State} (h : Sound s written acked kept)
    (hs : s.producerStep = some t) : ∃ written' kept', Sound t written' acked kept' := by
  cases hphase : s.producer with
  | idle => simp [State.producerStep, hphase] at hs
  | starting i =>
    simp only [State.producerStep, hphase] at hs
    obtain ⟨kept', cleared⟩ := h.producer_clears hphase
    exact ⟨_, kept', Option.some.inj hs ▸ cleared⟩
  | locking call =>
    simp only [State.producerStep, hphase] at hs
    split at hs
    · rename_i hin
      exact ⟨_, _, Option.some.inj hs ▸ h.producer_measures hin hphase⟩
    · exact ⟨_, _, Option.some.inj hs ▸ h.producer_waits hphase⟩
  | copying call n k =>
    simp only [State.producerStep, hphase] at hs
    exact ⟨_, _, Option.some.inj hs ▸ h.producer_copies hphase⟩
  | markingValue numCISC =>
    simp only [State.producerStep, hphase] at hs
    exact ⟨_, _, Option.some.inj hs ▸ h.producer_marks hphase⟩
  | markingIp numCISC =>
    simp only [State.producerStep, hphase] at hs
    exact ⟨_, _, Option.some.inj hs ▸ h.producer_marksIp hphase⟩
  | counting call n =>
    simp only [State.producerStep, hphase] at hs
    exact ⟨_, _, Option.some.inj hs ▸ h.producer_counts hphase⟩
  | storing call n queue_size =>
    simp only [State.producerStep, hphase] at hs
    exact ⟨_, _, Option.some.inj hs ▸ h.producer_stores hphase⟩
  | leaving call done =>
    simp only [State.producerStep, hphase] at hs
    exact ⟨_, _, Option.some.inj hs ▸ h.producer_returns hphase⟩

/-- A step that starts threads on empty queues only keeps the invariant. -/
theorem step {a : Action} {t : State} (h : Sound s written acked kept)
    (hs : Guarded (StepOf next) StartsEmpty s a t) :
    ∃ written' acked' kept', Sound t written' acked' kept' := by
  obtain ⟨hstart, hs⟩ := hs
  cases a with
  | onThread_start =>
    obtain ⟨hidle, ht⟩ := Option.ite_none_right_eq_some.mp hs
    have hthere := h.producer
    rw [hidle] at hthere
    have hempty : written = acked := by
      have hsize := h.books.size
      rw [hstart rfl] at hsize
      omega
    have started : Sound s.onThread_start written acked kept :=
      h.producer_goes ⟨hthere, by omega, hempty⟩
    exact ⟨_, _, _, Option.some.inj ht ▸ started⟩
  | analysisFn p =>
    obtain ⟨hidle, ht⟩ := Option.ite_none_right_eq_some.mp hs
    have hthere := h.producer
    rw [hidle] at hthere
    have called : Sound (s.analysisFn p) written acked kept := by
      unfold State.analysisFn
      by_cases hfull : s.tlqsize = locQ
      · rw [if_pos hfull]
        have hsome : 0 < s.tlqsize := hfull ▸ locQ_pos
        exact h.producer_goes (p := .locking (.analysisFn p)) hsome
      · rw [if_neg hfull]
        have hlocal := h.books.tlqsize_le
        exact h.producer_enqueues hthere (by omega) p
    exact ⟨_, _, _, Option.some.inj ht ▸ called⟩
  | onThread_finish numCISC =>
    obtain ⟨hidle, ht⟩ := Option.ite_none_right_eq_some.mp hs
    exact ⟨_, _, _, Option.some.inj ht ▸ h.producer_empties numCISC⟩
  | fetchManyPackets spaceLeft =>
    obtain ⟨hidle, ht⟩ := Option.ite_none_right_eq_some.mp hs
    have hthere := h.consumer
    rw [hidle] at hthere
    have called : Sound { s with consumer := .sizing spaceLeft } written acked kept :=
      { books := { h.books with }
        lock := h.lock
        producer := h.producer
        consumer := hthere.2
        unkept := fun _ => trivial }
    exact ⟨_, _, _, Option.some.inj ht ▸ called⟩
  | producer =>
    obtain ⟨written', kept', sound⟩ := h.producerStep hs
    exact ⟨written', acked, kept', sound⟩
  | consumer =>
    obtain ⟨acked', kept', sound⟩ := h.consumerStep hs
    exact ⟨written, acked', kept', sound⟩

theorem initial {prod_ptr : ℕ} (hp : prod_ptr % COUNT = 0) :
    Sound (ShmChannel.initial prod_ptr) 0 0 True where
  books :=
    { obtains := List.prefix_refl _
      total := rfl
      size := rfl
      acked_le := le_rfl
      obtained_le := le_rfl
      fits := Nat.zero_le _
      ring := fun p _ hlt => absurd hlt (Nat.not_lt_zero p)
      prod_ptr := hp
      reader := rfl
      tlqsize_le := Nat.zero_le _
      inPtr := rfl
      tlq := fun i hi => absurd hi (Nat.not_lt_zero i) }
  lock := by
    constructor <;> simp [ShmChannel.initial, get_lock, tejas_get_lock]
  producer := rfl
  consumer := ⟨rfl, rfl⟩
  unkept := fun hk => absurd trivial hk

theorem run {prod_ptr : ℕ} (hp : prod_ptr % COUNT = 0) {actions : List Action}
    (run : Run (Guarded (StepOf next) StartsEmpty) (ShmChannel.initial prod_ptr) actions s) :
    ∃ written acked kept, Sound s written acked kept := by
  apply run.invariant ⟨0, 0, True, initial hp⟩
  intro s a t h hs
  obtain ⟨written, acked, kept, sound⟩ := h
  exact sound.step hs

/-- The packets that the queue size counts are the logged packets not yet obtained. -/
theorem unread_eq (h : Sound s written acked kept) (hconsumer : s.consumer = .idle) :
    s.unread = window s acked (written - acked) := by
  have hthere := h.consumer
  rw [hconsumer] at hthere
  have books := h.books
  have hle : acked ≤ written := books.acked_le.trans books.obtained_le
  have htotal := books.total
  have hcount : (s.words queueSizeWord).toNat = written - acked := by
    rw [books.size]
    omega
  apply List.ext_getElem?
  intro i
  rw [State.unread, hcount, List.getElem?_map, window, List.getElem?_take,
    List.getElem?_drop]
  rcases Nat.lt_or_ge i (written - acked) with hi | hi
  · rw [List.getElem?_range hi, if_pos hi, books.ring _ (by omega) (by omega), books.reader,
      hthere.2, Option.map_some, Nat.mod_add_mod]
  · rw [if_neg (by omega), List.getElem?_eq_none (by simpa using hi)]
    rfl

theorem queued_eq (books : Books s written acked) : s.queued = s.logged.drop written := by
  have htotal := books.total
  apply List.ext_getElem?
  intro i
  rw [State.queued, List.getElem?_map, List.getElem?_drop]
  rcases Nat.lt_or_ge i s.tlqsize with hi | hi
  · rw [List.getElem?_range hi, books.tlq i hi]
    rfl
  · rw [List.getElem?_eq_none (by simpa using hi), List.getElem?_eq_none (by omega)]
    rfl

theorem delivers (h : Sound s written acked kept) : Delivers s := by
  refine ⟨h.books.obtains, ?_⟩
  intro _ hconsumer
  have hthere := h.consumer
  rw [hconsumer] at hthere
  have hobtained : s.obtained = s.logged.take acked := by
    rw [← hthere.2]
    exact List.prefix_iff_eq_take.mp h.books.obtains
  have hle : acked ≤ written := h.books.acked_le.trans h.books.obtained_le
  rw [h.unread_eq hconsumer, queued_eq h.books, hobtained, window, ← List.take_add,
    Nat.add_sub_cancel' hle, List.take_append_drop]

end Sound

/-- On a slot whose producer starts at a multiple of `COUNT`, and where every thread
starts on an empty queue, nothing is lost, repeated or overwritten in any run. -/
theorem channel_delivers {prod_ptr : ℕ} (hp : prod_ptr % COUNT = 0) {actions : List Action}
    {s : State}
    (run : Run (Guarded (StepOf next) StartsEmpty) (initial prod_ptr) actions s) :
    Delivers s := by
  obtain ⟨written, acked, kept, sound⟩ := Sound.run hp run
  exact sound.delivers

/-- A thread logs a packet and finishes, the consumer reads both packets, and another
thread starts on the slot and logs a packet of its own. -/
theorem channel_delivers_reused : ∃ s : State,
    s.obtained.length = 2 ∧ s.logged.length = 3 ∧ Delivers s := by
  have reached : (exec (fun s a => if StartsEmpty s a then next s a else none) (initial 0)
      [[.onThread_start], List.replicate 3 .producer, [.analysisFn ⟨7, 2, 9⟩, .onThread_finish 5],
        List.replicate 19 .producer, [.fetchManyPackets 8], List.replicate 21 .consumer,
        [.onThread_start], List.replicate 3 .producer, [.analysisFn ⟨8, 3, 1⟩]].flatten).any
      (fun s => decide (s.obtained.length = 2 ∧ s.logged.length = 3)) = true := by
    decide
  obtain ⟨s, hs, hstate⟩ := (Option.any_eq_true _ _).mp reached
  obtain ⟨hobtained, hlogged⟩ := of_decide_eq_true hstate
  exact ⟨s, hobtained, hlogged, channel_delivers (by decide) (guarded_run_of_exec hs)⟩

/-- A thread finishes and the next one starts on its slot before the consumer has read:
the queue size is cleared and the last packet of the first thread is lost. -/
theorem restart_loses : ∃ actions s,
    Run (StepOf next) (initial 0) actions s ∧ ¬ Delivers s := by
  have reached : (exec next (initial 0)
      [[.onThread_start], List.replicate 3 .producer, [.onThread_finish 5],
        List.replicate 9 .producer, [.onThread_start], List.replicate 3 .producer].flatten).any
      (fun s => decide (s.producer = .idle ∧ s.consumer = .idle ∧ s.logged.length = 1 ∧
        s.obtained.length = 0 ∧ s.words queueSizeWord = 0 ∧ s.tlqsize = 0)) = true := by
    decide
  obtain ⟨s, hs, hstate⟩ := (Option.any_eq_true _ _).mp reached
  obtain ⟨hproducer, hconsumer, hlogged, hobtained, hsize, hlocal⟩ := of_decide_eq_true hstate
  refine ⟨_, s, run_of_exec hs, ?_⟩
  intro delivers
  have hall := congrArg List.length (delivers.2 hproducer hconsumer)
  simp [State.unread, State.queued, hsize, hlocal, hlogged, hobtained] at hall

end Tejas.ShmChannel
