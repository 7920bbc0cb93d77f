import Mathlib.Data.List.Basic
import Mathlib.Tactic.LinearCombination
import Mathlib.Tactic.Positivity
import Mathlib.Tactic.Ring
import Tejas.LabelledRuns
import Tejas.NetworkPackets

/-!
# The framing of the network packets

The bytes in hand and the bytes still to come are always the packets not yet delivered.
A call that is not stopped by the packet queue cuts off every complete packet and
leaves less than one packet behind.
-/

namespace Tejas.Network

open LabelledRuns
open CustomAsmCharPool (copyRow rowBytes)

/-! ## Eight bytes -/

/-- The eight digits are put together again, from the highest to the lowest. -/
theorem wrap_foldl_digits (x : ℤ) (n : ℕ) (v : ℤ) :
    Long.wrap ((List.range n).reverse.foldl
      (fun value i => Long.wrap (value * 256 + x / 256 ^ i % 256)) v) =
      Long.wrap (v * 256 ^ n + x % 256 ^ n) := by
  induction n generalizing v with
  | zero => simp
  | succ n ih =>
    have hdigits : x % 256 ^ (n + 1) = x / 256 ^ n % 256 * 256 ^ n + x % 256 ^ n := by
      have hhigh := Int.emod_add_mul_ediv x (256 ^ n)
      have hnext := Int.emod_add_mul_ediv (x / 256 ^ n) 256
      have hall := Int.emod_add_mul_ediv x (256 ^ (n + 1))
      have hdiv : x / 256 ^ n / 256 = x / 256 ^ (n + 1) := by
        rw [pow_succ, Int.ediv_ediv_of_nonneg (by positivity)]
      rw [hdiv] at hnext
      linear_combination hall - hhigh - 256 ^ n * hnext
    rw [List.range_succ, List.reverse_append, List.reverse_singleton, List.singleton_append,
      List.foldl_cons, ih, Long.wrap, Long.wrap, Long.wrap, ← Int.bmod_add_bmod,
      Int.bmod_mul_bmod, Int.bmod_add_bmod, hdigits]
    congr 1
    ring

theorem putLong_length (x : ℤ) : (putLong x).length = 8 := by simp [putLong]

/-- Eight bytes of a `long` are read back as that `long`. -/
theorem getLong_putLong {inputBytes : ℕ → UInt8} {offset : ℕ} (x : Long)
    (h : ∀ i < 8, (putLong x.1)[i]? = some (inputBytes (i + offset))) :
    getLong inputBytes offset = x.1 := by
  have hdigit : ∀ i < 8, ((inputBytes (i + offset)).toNat : ℤ) = x.1 / 256 ^ i % 256 := by
    intro i hi
    have hbyte := h i hi
    rw [putLong, List.getElem?_map, List.getElem?_range hi, Option.map_some,
      Option.some.injEq] at hbyte
    have hnonneg : 0 ≤ x.1 / 256 ^ i % 256 := Int.emod_nonneg _ (by decide)
    have hlt : x.1 / 256 ^ i % 256 < 256 := Int.emod_lt_of_pos _ (by decide)
    have hsmall : (x.1 / 256 ^ i % 256).toNat < 2 ^ 8 := by
      generalize x.1 / 256 ^ i % 256 = digit at hnonneg hlt
      omega
    rw [← hbyte, UInt8.toNat_ofNat', Nat.mod_eq_of_lt hsmall, Int.toNat_of_nonneg hnonneg]
  have hfold : getLong inputBytes offset = (List.range 8).reverse.foldl
      (fun value i => Long.wrap (value * 256 + x.1 / 256 ^ i % 256)) 0 := by
    apply List.foldl_ext
    intro value i hi
    rw [hdigit i (by simpa using hi)]
  have hwrapped : Long.wrap (getLong inputBytes offset) = getLong inputBytes offset := by
    rw [getLong, List.range_succ_eq_map, List.reverse_cons, List.foldl_append, List.foldl_cons,
      List.foldl_nil]
    exact Long.wrap_wrap _
  rw [← hwrapped, hfold, wrap_foldl_digits, zero_mul, zero_add]
  exact (Int.emod_bmod x.1 (2 ^ 64)).trans (Long.wrap_val x)

/-- The buffer shows `bytes` from position `offset` on. -/
def Shows (inputBytes : ℕ → UInt8) (offset : ℕ) (bytes : List UInt8) : Prop :=
  ∀ i < bytes.length, bytes[i]? = some (inputBytes (i + offset))

theorem Shows.append_left {inputBytes : ℕ → UInt8} {offset : ℕ} {front rest : List UInt8}
    (h : Shows inputBytes offset (front ++ rest)) : Shows inputBytes offset front := by
  intro i hi
  have hall := h i (by rw [List.length_append]; omega)
  rwa [List.getElem?_append_left hi] at hall

theorem Shows.append_right {inputBytes : ℕ → UInt8} {offset : ℕ} {front rest : List UInt8}
    (h : Shows inputBytes offset (front ++ rest)) :
    Shows inputBytes (offset + front.length) rest := by
  intro i hi
  have hall := h (front.length + i) (by rw [List.length_append]; omega)
  rw [List.getElem?_append_right (Nat.le_add_right _ _), Nat.add_sub_cancel_left] at hall
  rw [hall]
  congr 2
  omega

theorem Shows.getLong {inputBytes : ℕ → UInt8} {offset : ℕ} {x : Long}
    (h : Shows inputBytes offset (putLong x.1)) : getLong inputBytes offset = x.1 := by
  apply getLong_putLong
  intro i hi
  exact h i (by rw [putLong_length]; exact hi)

/-- A list shows itself. -/
theorem shows_self (bytes : List UInt8) : Shows (fun i => bytes.getD i 0) 0 bytes := by
  intro i hi
  simp [List.getD, hi]

theorem getLong_congr {f g : ℕ → UInt8} {a b : ℕ} (h : ∀ i < 8, f (i + a) = g (i + b)) :
    getLong f a = getLong g b := by
  apply List.foldl_ext
  intro value i hi
  rw [h i (by simpa using hi)]

/-- The `long` at place `k` of the bytes the buffer shows. -/
theorem Shows.getLong_at {inputBytes : ℕ → UInt8} {offset k : ℕ} {bytes : List UInt8}
    (h : Shows inputBytes offset bytes) (hk : k + 8 ≤ bytes.length) :
    Network.getLong inputBytes (offset + k) = Network.getLong (fun i => bytes.getD i 0) k := by
  apply getLong_congr
  intro i hi
  have hbyte := h (i + k) (by omega)
  have hplace : i + k + offset = i + (offset + k) := by omega
  rw [hplace] at hbyte
  rw [List.getD_eq_getElem?_getD, hbyte, Option.getD_some]

/-! ## One packet at the front -/

/-- A front that is there to its end can be split off. -/
theorem split_front {α : Type*} {a b c d : List α} (h : a ++ b = c ++ d)
    (hlen : c.length ≤ a.length) : ∃ e, a = c ++ e ∧ e ++ b = d := by
  rcases List.append_eq_append_iff.mp h with ⟨e, hc, hb⟩ | ⟨e, ha, hd⟩
  · have hnil : e = [] := by
      have hlength := congrArg List.length hc
      rw [List.length_append] at hlength
      exact List.eq_nil_of_length_eq_zero (by omega)
    rw [hnil] at hc hb
    refine ⟨[], by simpa using hc.symm, by simpa using hb⟩
  · exact ⟨e, ha, hd.symm⟩

def assemblyLong : Long := ⟨Encoding.assembly, by decide⟩

/-- The `value` of a packet on the wire. -/
def Record.value : Record → Long
  | data _ value _ _ => value
  | assembly _ _ => assemblyLong

/-- What comes behind `ip` and `value`. -/
def Record.body : Record → List UInt8
  | data _ _ tgt _ => putLong tgt.1
  | assembly _ text => text.1

def Record.ip : Record → Long
  | data ip _ _ _ => ip
  | assembly ip _ => ip

theorem Record.encode_eq (r : Record) :
    r.encode = putLong r.ip.1 ++ (putLong r.value.1 ++ r.body) := by
  cases r <;> simp [encode, ip, value, body, assemblyLong]

theorem Record.length_encode (r : Record) : r.encode.length = 16 + r.body.length := by
  rw [encode_eq, List.length_append, List.length_append, putLong_length, putLong_length]
  omega

theorem Record.length_body (r : Record) :
    r.body.length = if r.value.1 = Encoding.assembly then 64 else 8 := by
  cases r with
  | data ip value tgt other => simp [body, Record.value, other, putLong_length]
  | assembly ip text => simp [body, Record.value, assemblyLong, text.2]

/-- The second `long` in hand is the `value` of the packet at the front. -/
theorem front_value {bytes unread more : List UInt8} {r : Record}
    (h : bytes ++ unread = r.encode ++ more) (hlen : 24 ≤ bytes.length) :
    getLong (fun i => bytes.getD i 0) 8 = r.value.1 := by
  have hsplit : bytes ++ unread = (putLong r.ip.1 ++ putLong r.value.1) ++ (r.body ++ more) := by
    rw [h, r.encode_eq]
    simp
  obtain ⟨e, he, _⟩ := split_front hsplit (by
    rw [List.length_append, putLong_length, putLong_length]
    omega)
  have shown := shows_self bytes
  rw [he, List.append_assoc] at shown
  have value := shown.append_right.append_left.getLong
  rw [putLong_length, Nat.zero_add, ← List.append_assoc, ← he] at value
  exact value

/-- The packet at the front is not there to its end. -/
theorem frontLength_short {bytes unread more : List UInt8} {r : Record}
    (h : bytes ++ unread = r.encode ++ more) (hlen : bytes.length < r.encode.length) :
    frontLength bytes = none := by
  unfold frontLength
  by_cases hshort : bytes.length < 24
  · simp [hshort]
  · have hvalue := front_value h (by omega)
    rw [r.length_encode, r.length_body] at hlen
    by_cases hassembly : r.value.1 = Encoding.assembly
    · rw [if_pos hassembly] at hlen
      have hpart : bytes.length < 80 := by omega
      simp only [hshort, if_false, hvalue, hassembly, if_true, hpart]
    · rw [if_neg hassembly] at hlen
      omega

/-- The packet at the front is there to its end. -/
theorem frontLength_encode (r : Record) (rest : List UInt8) :
    frontLength (r.encode ++ rest) = some r.encode.length := by
  have hlen := r.length_encode
  have hbody := r.length_body
  unfold frontLength
  have hlong : 24 ≤ (r.encode ++ rest).length := by
    rw [List.length_append]
    split at hbody <;> omega
  have hshort : ¬ (r.encode ++ rest).length < 24 := by omega
  have hvalue := front_value (List.append_nil (r.encode ++ rest)) hlong
  simp only [hshort, if_false, hvalue]
  by_cases hassembly : r.value.1 = Encoding.assembly
  · rw [if_pos hassembly] at hbody
    have hpart : ¬ (r.encode ++ rest).length < 80 := by
      rw [List.length_append]
      omega
    simp only [hassembly, if_true, hpart, if_false, hlen, hbody]
  · rw [if_neg hassembly] at hbody
    simp only [hassembly, if_false, hlen, hbody]

/-! ## The loop -/

variable {n : ℕ}

/-- The bytes kept for the next call. -/
def overflow (s : Network) : List UInt8 := (List.range s.numOverflowBytes).map s.inputBytes

/-- The bytes in hand and the unread bytes are the packets still to be delivered. -/
structure Framed (n : ℕ) (s : Network) (bytes : List UInt8) (done rest : List Record) :
    Prop where
  queue : s.fromEmulator.Sound n
  pool : s.asmPool.Sound CustomAsmCharPool.bufferSize
  packets : delivered n s = done.map Record.packet
  texts : deliveredTexts s = done.flatMap Record.texts
  stream : bytes ++ s.unread = streamOf rest

/-- The bytes that are left are moved to the front. -/
theorem overflow_reset (s : Network) {bytes : List UInt8} {numBytesRead numBytesConsumed : ℕ}
    (shown : Shows s.inputBytes numBytesConsumed bytes)
    (hlen : numBytesConsumed + bytes.length = numBytesRead) :
    overflow (s.resetInputBytes numBytesRead numBytesConsumed) = bytes := by
  have hleft : numBytesRead - numBytesConsumed = bytes.length := by omega
  apply List.ext_getElem?
  intro i
  rw [overflow, resetInputBytes, hleft, List.getElem?_map]
  rcases Nat.lt_or_ge i bytes.length with hi | hi
  · rw [List.getElem?_range hi, Option.map_some, shown i hi]
    exact congrArg some (if_pos hi)
  · rw [List.getElem?_eq_none (by simpa using hi), List.getElem?_eq_none hi]
    rfl

/-- Without a complete packet at the front the loop ends. -/
theorem addPackets_stop (s : Network) {bytes : List UInt8}
    {numBytesRead numBytesConsumed free : ℕ} (shown : Shows s.inputBytes numBytesConsumed bytes)
    (hlen : numBytesConsumed + bytes.length = numBytesRead) (hnone : frontLength bytes = none) :
    addPackets n numBytesRead (free + 1) numBytesConsumed s =
      some (s.resetInputBytes numBytesRead numBytesConsumed) := by
  have hleft : numBytesRead - numBytesConsumed = bytes.length := by omega
  have hbehind : numBytesRead - (numBytesConsumed + 16) = bytes.length - 16 := by omega
  unfold addPackets
  rw [hleft, hbehind]
  unfold frontLength at hnone
  by_cases hshort : bytes.length < 24
  · rw [if_pos hshort]
  · rw [if_neg hshort]
    simp only [hshort, if_false] at hnone
    rw [shown.getLong_at (by omega)]
    by_cases hassembly : getLong (fun i => bytes.getD i 0) 8 = Encoding.assembly
    · simp only [hassembly, if_true] at hnone ⊢
      have hpart : bytes.length < 80 := by
        by_contra hlong
        simp [hlong] at hnone
      rw [if_pos (by omega)]
    · simp only [hassembly, if_false] at hnone
      cases hnone

/-- A packet with a `tgt` is cut off the front. -/
theorem addPackets_data (s : Network) {ip value tgt : Long} {other : value.1 ≠ Encoding.assembly}
    {rest : List UInt8} {numBytesRead numBytesConsumed free : ℕ}
    (shown : Shows s.inputBytes numBytesConsumed ((Record.data ip value tgt other).encode ++ rest))
    (hlen : numBytesConsumed + 24 + rest.length = numBytesRead) {t : Network}
    (ht : addPackets n numBytesRead (free + 1) numBytesConsumed s = some t) :
    ∃ fromEmulator, enqueuePacket n s.fromEmulator ip.1 value.1 tgt.1 = some fromEmulator ∧
      addPackets n numBytesRead free (numBytesConsumed + 24)
        { s with fromEmulator := fromEmulator } = some t := by
  rw [Record.encode, List.append_assoc, List.append_assoc] at shown
  have hip := shown.append_left.getLong
  have shown := shown.append_right
  rw [putLong_length] at shown
  have hvalue := shown.append_left.getLong
  have shown := shown.append_right
  rw [putLong_length] at shown
  have htgt := shown.append_left.getLong
  unfold addPackets at ht
  rw [if_neg (by omega), hip, hvalue, htgt] at ht
  simp only [other, if_false] at ht
  obtain ⟨_, ht⟩ := Option.ite_none_left_eq_some.mp ht
  exact Option.bind_eq_some_iff.mp ht

/-- A packet with a text is cut off the front. -/
theorem addPackets_assembly (s : Network) {ip : Long} {text : List.Vector UInt8 64}
    {rest : List UInt8} {numBytesRead numBytesConsumed free : ℕ}
    (shown : Shows s.inputBytes numBytesConsumed ((Record.assembly ip text).encode ++ rest))
    (hlen : numBytesConsumed + 80 + rest.length = numBytesRead) {t : Network}
    (ht : addPackets n numBytesRead (free + 1) numBytesConsumed s = some t) :
    ∃ asmPool fromEmulator,
      s.asmPool.enqueue CustomAsmCharPool.bufferSize
        (copyRow s.inputBytes bufferSize (numBytesConsumed + 16)) = some asmPool ∧
      enqueuePacket n s.fromEmulator ip.1 Encoding.assembly (-1) = some fromEmulator ∧
      addPackets n numBytesRead free (numBytesConsumed + 80)
        { s with asmPool := asmPool, fromEmulator := fromEmulator } = some t := by
  rw [Record.encode, List.append_assoc, List.append_assoc] at shown
  have hip := shown.append_left.getLong
  have shown := shown.append_right
  rw [putLong_length] at shown
  have hvalue := (show Shows _ _ (putLong assemblyLong.1) from shown.append_left).getLong
  unfold addPackets at ht
  rw [if_neg (by omega), hip, hvalue] at ht
  simp only [assemblyLong, if_true] at ht
  rw [if_neg (by omega)] at ht
  obtain ⟨asmPool, hpool, ht⟩ := Option.bind_eq_some_iff.mp ht
  obtain ⟨fromEmulator, hqueue, ht⟩ := Option.bind_eq_some_iff.mp ht
  exact ⟨asmPool, fromEmulator, hpool, hqueue, ht⟩

/-- The 64 bytes of a text are the bytes of its row. -/
theorem rowBytes_copyRow {inputBytes row : ℕ → UInt8} {offset : ℕ} {text : List.Vector UInt8 64}
    (shown : Shows inputBytes offset text.1) (hfit : offset + 64 ≤ bufferSize) :
    rowBytes (copyRow inputBytes bufferSize offset row) = text.1 := by
  apply List.ext_getElem?
  intro i
  have hlen : text.1.length = 64 := text.2
  rw [rowBytes, List.getElem?_map]
  rcases Nat.lt_or_ge i 64 with hi | hi
  · rw [List.getElem?_range hi, Option.map_some, shown i (by omega), copyRow, if_neg (by omega),
      if_pos (by omega), Nat.add_comm]
  · rw [List.getElem?_eq_none (by simpa using hi), List.getElem?_eq_none (by omega)]
    rfl

theorem contents_enqueuePacket {q q' : CircularQueue Packet} (h : q.Sound n) (hn : 0 < n)
    {ip value tgt : ℤ} (hq : enqueuePacket n q ip value tgt = some q') :
    q'.Sound n ∧ q'.contents n = q.contents n ++ [⟨ip, value, tgt⟩] := by
  obtain ⟨hsound, old, hcontents⟩ := h.enqueue hn hq
  exact ⟨hsound, hcontents⟩

/-- Delivering the packet with a `tgt` at the front. -/
theorem Framed.deliver_data {s : Network} {done rest : List Record} {bytes : List UInt8}
    {ip value tgt : Long} {other : value.1 ≠ Encoding.assembly} (hn : 0 < n)
    (h : Framed n s ((Record.data ip value tgt other).encode ++ bytes) done
      (.data ip value tgt other :: rest)) {fromEmulator : CircularQueue Packet}
    (hq : enqueuePacket n s.fromEmulator ip.1 value.1 tgt.1 = some fromEmulator) :
    Framed n { s with fromEmulator := fromEmulator } bytes
      (done ++ [.data ip value tgt other]) rest := by
  obtain ⟨hsound, hcontents⟩ := contents_enqueuePacket h.queue hn hq
  have hstream := h.stream
  rw [streamOf, List.flatMap_cons, List.append_assoc] at hstream
  exact
    { queue := hsound
      pool := h.pool
      packets := by
        rw [List.map_append, ← h.packets, delivered, delivered]
        show s.packets ++ fromEmulator.contents n = _
        rw [hcontents, ← List.append_assoc]
        rfl
      texts := by
        rw [List.flatMap_append, ← h.texts]
        exact (List.append_nil _).symm
      stream := List.append_cancel_left hstream }

/-- Delivering the packet with a text at the front. -/
theorem Framed.deliver_assembly {s : Network} {done rest : List Record} {bytes : List UInt8}
    {ip : Long} {text : List.Vector UInt8 64} (hn : 0 < n)
    (h : Framed n s ((Record.assembly ip text).encode ++ bytes) done (.assembly ip text :: rest))
    {numBytesConsumed : ℕ} (shown : Shows s.inputBytes (numBytesConsumed + 16) text.1)
    (hfit : numBytesConsumed + 80 ≤ bufferSize)
    {asmPool : CircularQueue (ℕ → UInt8)} {fromEmulator : CircularQueue Packet}
    (hpool : s.asmPool.enqueue CustomAsmCharPool.bufferSize
      (copyRow s.inputBytes bufferSize (numBytesConsumed + 16)) = some asmPool)
    (hq : enqueuePacket n s.fromEmulator ip.1 Encoding.assembly (-1) = some fromEmulator) :
    Framed n { s with asmPool := asmPool, fromEmulator := fromEmulator } bytes
      (done ++ [.assembly ip text]) rest := by
  obtain ⟨hsound, hcontents⟩ := contents_enqueuePacket h.queue hn hq
  obtain ⟨hpoolSound, row, hrows⟩ := h.pool.enqueue (by decide) hpool
  have hstream := h.stream
  rw [streamOf, List.flatMap_cons, List.append_assoc] at hstream
  exact
    { queue := hsound
      pool := hpoolSound
      packets := by
        rw [List.map_append, ← h.packets, delivered, delivered]
        show s.packets ++ fromEmulator.contents n = _
        rw [hcontents, ← List.append_assoc]
        rfl
      texts := by
        rw [List.flatMap_append, ← h.texts, deliveredTexts, deliveredTexts]
        show s.texts ++ (asmPool.contents _).map rowBytes = _
        rw [hrows, List.map_append, ← List.append_assoc, List.map_singleton,
          rowBytes_copyRow shown (by omega)]
        rfl
      stream := List.append_cancel_left hstream }

/-- What a call leaves behind: the packets delivered are a first part of all packets,
and no complete packet is kept for the next call. -/
structure Cut (n : ℕ) (t : Network) (records : List Record) : Prop where
  framed : ∃ done rest, records = done ++ rest ∧ Framed n t (overflow t) done rest
  incomplete : frontLength (overflow t) = none
  fits : t.numOverflowBytes ≤ bufferSize

/-- The loop delivers every packet that is there to its end, unless the queue is full
before the bytes in hand are used up. -/
theorem cut_addPackets (hn : 0 < n) {records : List Record} {t : Network} {free : ℕ} :
    ∀ {numBytesRead numBytesConsumed : ℕ} {s : Network} {bytes : List UInt8}
      {done rest : List Record}, records = done ++ rest → Framed n s bytes done rest →
      Shows s.inputBytes numBytesConsumed bytes →
      numBytesConsumed + bytes.length = numBytesRead → numBytesRead ≤ bufferSize →
      Fits free bytes → s.numOverflowBytes = 0 →
      addPackets n numBytesRead free numBytesConsumed s = some t → Cut n t records := by
  induction free with
  | zero =>
    intro numBytesRead numBytesConsumed s bytes done rest hrecords h _ _ _ hfits hzero ht
    cases ht
    have hnil : bytes = [] := hfits
    have hkept : overflow t = [] := by simp [overflow, hzero]
    refine ⟨⟨done, rest, hrecords, ?_⟩, ?_, by omega⟩
    · rw [hkept, ← hnil]
      exact h
    · rw [hkept]
      rfl
  | succ free ih =>
    intro numBytesRead numBytesConsumed s bytes done rest hrecords h shown hlen hbuffer hfits
      hzero ht
    cases hfront : frontLength bytes with
    | none =>
      rw [addPackets_stop s shown hlen hfront] at ht
      cases ht
      have hkept := overflow_reset s shown hlen
      refine ⟨⟨done, rest, hrecords, ?_⟩, ?_, ?_⟩
      · rw [hkept]
        exact { h with }
      · rw [hkept]
        exact hfront
      · show numBytesRead - numBytesConsumed ≤ bufferSize
        omega
    | some l =>
      have hstream := h.stream
      cases rest with
      | nil =>
        have hnil : bytes = [] := (List.append_eq_nil_iff.mp hstream).1
        simp [hnil, frontLength] at hfront
      | cons r rest =>
        rw [streamOf, List.flatMap_cons] at hstream
        have hwhole : r.encode.length ≤ bytes.length := by
          by_contra hshort
          rw [frontLength_short hstream (by omega)] at hfront
          cases hfront
        obtain ⟨bytes', rfl, _⟩ := split_front hstream hwhole
        have hfits' : Fits free bytes' := by
          simp only [Fits, frontLength_encode, List.drop_left] at hfits
          exact hfits
        have hrecords' : records = (done ++ [r]) ++ rest := by
          rw [hrecords, List.append_assoc]
          rfl
        have hsize := r.length_encode
        have hbody := r.length_body
        rw [List.length_append] at hlen
        have shown' := shown.append_right
        cases r with
        | data ip value tgt other =>
          have hcut : (Record.data ip value tgt other).encode.length = 24 := by
            simp [Record.encode, putLong_length]
          rw [hcut] at shown' hlen
          obtain ⟨q, hq, ht⟩ := addPackets_data s shown (by omega) ht
          exact ih hrecords' (h.deliver_data hn hq) shown' (by omega) hbuffer hfits' hzero ht
        | assembly ip text =>
          have hcut : (Record.assembly ip text).encode.length = 80 := by
            have htext : text.1.length = 64 := text.2
            simp [Record.encode, putLong_length, htext]
          rw [hcut] at shown' hlen
          have shownText : Shows s.inputBytes (numBytesConsumed + 16) text.1 := by
            have front := shown.append_left
            rw [Record.encode] at front
            have back := front.append_right
            rw [List.length_append, putLong_length, putLong_length] at back
            exact back
          obtain ⟨pool, q, hpool, hq, ht⟩ := addPackets_assembly s shown (by omega) ht
          exact ih hrecords' (h.deliver_assembly hn shownText (by omega) hpool hq) shown'
            (by omega) hbuffer hfits' hzero ht

theorem length_inHand {s : Network} {available : ℕ} (h : available ≤ s.unread.length) :
    (s.inHand available).length = s.numOverflowBytes + s.numBytes available := by
  have hle : s.numBytes available ≤ available := Nat.min_le_left _ _
  simp only [inHand, List.length_append, List.length_map, List.length_range, List.length_take]
  omega

/-- After the read the buffer shows the bytes in hand. -/
theorem shows_inHand {s : Network} {available : ℕ} (h : available ≤ s.unread.length) :
    Shows (s.readBytes (s.numBytes available)).inputBytes 0 (s.inHand available) := by
  intro i hi
  rw [length_inHand h] at hi
  show (s.inHand available)[i]? = some (if _ then _ else _)
  rw [Nat.add_zero, inHand]
  rcases Nat.lt_or_ge i s.numOverflowBytes with hold | hnew
  · rw [if_neg (by omega), List.getElem?_append_left (by simpa using hold), List.getElem?_map,
      List.getElem?_range hold]
    rfl
  · have hle : s.numBytes available ≤ available := Nat.min_le_left _ _
    have hplace : i - s.numOverflowBytes < s.unread.length := by omega
    rw [if_pos ⟨hnew, by omega⟩, List.getElem?_append_right (by simpa using hnew),
      List.length_map, List.length_range, List.getElem?_take_of_lt (by omega),
      List.getD_eq_getElem?_getD, List.getElem?_eq_getElem hplace, Option.getD_some]

namespace Cut

variable {records : List Record} {s t : Network}

theorem start (n : ℕ) (records : List Record) :
    Cut n (Network.start (streamOf records)) records where
  framed := by
    refine ⟨[], records, rfl, ?_⟩
    exact
      { queue := CircularQueue.sound_empty n _
        pool := CircularQueue.sound_empty _ _
        packets := by simp [delivered, Network.start]
        texts := by simp [deliveredTexts, Network.start]
        stream := by simp [overflow, Network.start] }
  incomplete := rfl
  fits := Nat.zero_le _

/-- A call of `fetchManyPackets`. -/
theorem fetchManyPackets (hn : 0 < n) (h : Cut n s records) {available : ℕ}
    (havailable : available ≤ s.unread.length)
    (hholds : available = 0 ∨ Fits (s.fromEmulator.spaceLeft n) (s.inHand available))
    (ht : s.fetchManyPackets n available = some t) : Cut n t records := by
  unfold Network.fetchManyPackets at ht
  by_cases hzero : available = 0
  · rw [if_pos hzero] at ht
    cases ht
    exact h
  · rw [if_neg hzero] at ht
    obtain ⟨done, rest, hrecords, framed⟩ := h.framed
    have hlen := length_inHand havailable
    have hbuffer : s.numBytes available ≤ bufferSize - s.numOverflowBytes := Nat.min_le_right _ _
    have hfits := h.fits
    have hread : Framed n (s.readBytes (s.numBytes available)) (s.inHand available) done rest :=
      { queue := framed.queue
        pool := framed.pool
        packets := framed.packets
        texts := framed.texts
        stream := by
          rw [← framed.stream, inHand, List.append_assoc]
          exact congrArg _ (List.take_append_drop _ _) }
    exact cut_addPackets hn hrecords hread (shows_inHand havailable) (by omega) (by omega)
      (hholds.resolve_left hzero) rfl ht

/-- The reader takes a packet that was delivered. -/
theorem dequeuePacket (hn : 0 < n) (h : Cut n s records) (ht : s.dequeuePacket n = some t) :
    Cut n t records := by
  obtain ⟨⟨p, q⟩, hq, rfl⟩ := Option.map_eq_some_iff.mp ht
  obtain ⟨done, rest, hrecords, framed⟩ := h.framed
  obtain ⟨hsound, hcontents⟩ := framed.queue.dequeue hn hq
  refine ⟨⟨done, rest, hrecords, ?_⟩, h.incomplete, h.fits⟩
  exact
    { queue := hsound
      pool := framed.pool
      packets := by
        rw [← framed.packets, delivered, delivered, hcontents]
        simp
      texts := framed.texts
      stream := framed.stream }

/-- The reader takes a text that was delivered. -/
theorem dequeueText (h : Cut n s records) (ht : s.dequeueText = some t) : Cut n t records := by
  obtain ⟨⟨row, q⟩, hq, rfl⟩ := Option.map_eq_some_iff.mp ht
  obtain ⟨done, rest, hrecords, framed⟩ := h.framed
  obtain ⟨hsound, hcontents⟩ := framed.pool.dequeue (by decide) hq
  refine ⟨⟨done, rest, hrecords, ?_⟩, h.incomplete, h.fits⟩
  exact
    { queue := framed.queue
      pool := hsound
      packets := framed.packets
      texts := by
        rw [← framed.texts, deliveredTexts, deliveredTexts, hcontents]
        simp
      stream := framed.stream }

theorem step (hn : 0 < n) {a : Action} (h : Cut n s records)
    (hs : Guarded (StepOf (next n)) (QueueHolds n) s a t) : Cut n t records := by
  obtain ⟨hholds, hs⟩ := hs
  cases a with
  | fetchManyPackets available =>
    obtain ⟨havailable, ht⟩ := Option.ite_none_right_eq_some.mp hs
    exact h.fetchManyPackets hn havailable hholds ht
  | dequeuePacket => exact h.dequeuePacket hn hs
  | dequeueText => exact h.dequeueText hs

/-- With nothing unread nothing is left over: what is left over is a row of whole packets
without a whole packet at its front. -/
theorem all_done (h : Cut n t records) (hunread : t.unread = []) :
    overflow t = [] ∧ delivered n t = records.map Record.packet ∧
      deliveredTexts t = records.flatMap Record.texts := by
  obtain ⟨done, rest, hrecords, framed⟩ := h.framed
  have hstream := framed.stream
  rw [hunread, List.append_nil] at hstream
  cases rest with
  | nil =>
    rw [List.append_nil] at hrecords
    rw [hrecords]
    exact ⟨hstream, framed.packets, framed.texts⟩
  | cons r rest =>
    have hfront := h.incomplete
    rw [hstream, streamOf, List.flatMap_cons, frontLength_encode] at hfront
    cases hfront

end Cut

/-- Two packets, the second with a text, in three reads that cut both of them. -/
def twoRecords : List Record :=
  [.data ⟨7, by decide⟩ ⟨2, by decide⟩ ⟨-9, by decide⟩ (by decide),
    .assembly ⟨8, by decide⟩ ⟨List.replicate 64 65, rfl⟩]

end Tejas.Network
