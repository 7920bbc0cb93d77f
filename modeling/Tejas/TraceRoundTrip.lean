import Tejas.LabelledRuns
import Tejas.TraceNumbers

/-!
# Reading back a trace file

The file is the lines of the records that were kept. Reading it delivers what each line
says, whatever the space in the packet queue, so that the round trip succeeds exactly
when every record is kept and every line says what was written.
-/

namespace Tejas.TraceFile

open LabelledRuns
open CustomAsmCharPool (copyRow rowText rowBytes)

/-! ## Lines and tokens -/

theorem span_append (p : UInt8 → Bool) (front rest : List UInt8) (hfront : ∀ c ∈ front, p c)
    (hrest : ∀ c, rest.head? = some c → ¬ p c) :
    (front ++ rest).takeWhile p = front ∧ (front ++ rest).dropWhile p = rest := by
  induction front with
  | nil =>
    cases rest with
    | nil => simp
    | cons c rest =>
      have hc := hrest c rfl
      simp [hc]
  | cons c front ih =>
    have hc := hfront c List.mem_cons_self
    obtain ⟨htake, hdrop⟩ := ih (fun d hd => hfront d (List.mem_cons_of_mem _ hd))
    simp [hc, htake, hdrop]

/-- A token between delimiters. -/
theorem nextToken_eq (delims before token rest : List UInt8) (hbefore : ∀ c ∈ before, c ∈ delims)
    (htoken : ∀ c ∈ token, c ∉ delims) (hne : token ≠ [])
    (hrest : ∀ c, rest.head? = some c → c ∈ delims) :
    nextToken delims (before ++ (token ++ rest)) = some (token, rest) := by
  have hhead : ∀ c, (token ++ rest).head? = some c → ¬ decide (c ∈ delims) = true := by
    intro c hc
    cases token with
    | nil => exact absurd rfl hne
    | cons d token =>
      have hcd : d = c := by simpa using hc
      have hd := htoken d List.mem_cons_self
      rw [hcd] at hd
      simpa using hd
  have hskip := (span_append (fun c => decide (c ∈ delims)) before (token ++ rest)
    (by simpa using hbefore) hhead).2
  have hspan := span_append (fun c => decide (c ∉ delims)) token rest
    (by simpa using htoken) (by simpa using hrest)
  have hsome : token ++ rest ≠ [] := by simp [hne]
  rw [nextToken, hskip, if_neg hsome, hspan.1, hspan.2]

/-- A line that holds no end of a line. -/
theorem readLine_eq {line rest : List UInt8}
    (hline : ∀ c ∈ line, c ≠ newline ∧ c ≠ carriageReturn) :
    readLine (line ++ newline :: rest) = some (line, rest) := by
  have hspan := span_append (fun c => decide (c ≠ newline ∧ c ≠ carriageReturn)) line
    (newline :: rest) (by simpa using hline) (by
      intro c hc
      have hcn : newline = c := by simpa using hc
      simp [← hcn])
  have hsome : line ++ newline :: rest ≠ [] := by simp
  unfold readLine
  split
  · rename_i heq
    exact absurd heq hsome
  · simp only [hspan.1, hspan.2]
    rfl

/-! ## The lines of the file -/

namespace Seen

def ip : Seen → Long
  | data ip _ _ => ip
  | assembly ip _ => ip

/-- The number in the second place of a line. -/
def val : Seen → ℤ
  | data _ val _ => val.1
  | assembly _ _ => Encoding.assembly

/-- What stands in the third place of a line. -/
def body : Seen → List UInt8
  | data _ _ addr => printLong addr.1
  | assembly _ asmb => asmb.1

/-- The line without its end. -/
def inputLine (r : Seen) : List UInt8 :=
  printLong r.ip.1 ++ space :: (printLong r.val ++ space :: r.body)

def line (r : Seen) : List UInt8 := r.inputLine ++ [newline]

/-- The packet a line says. -/
def readPacket (r : Seen) : Packet :=
  ⟨parseLong (printLong r.ip.1), r.val,
    if r.val = Encoding.assembly then -1 else parseLong r.body⟩

/-- The text a line says. -/
def readTexts (r : Seen) : List (List UInt8) :=
  if r.val = Encoding.assembly then [r.body] else []

theorem line_eq (r : Seen) : r.line = FileWrite.line r.ip.1 r.val r.body := by
  simp [line, inputLine, FileWrite.line]

theorem body_not_special (r : Seen) {c : UInt8} (hc : c ∈ r.body) :
    c ≠ 0 ∧ c ≠ newline ∧ c ≠ carriageReturn := by
  cases r with
  | data ip val addr => exact (printLong_not_special hc).2
  | assembly ip asmb => exact asmb.2.2 c hc

theorem length_body (r : Seen) : r.body.length < 64 := by
  cases r with
  | data ip val addr =>
    have hlen := length_printLong addr
    show (printLong addr.1).length < 64
    omega
  | assembly ip asmb => exact asmb.2.1

theorem val_read (r : Seen) : javaParseLong (printLong r.val) = some r.val := by
  cases r with
  | data ip val addr => exact javaParseLong_print val
  | assembly ip asmb => exact javaParseLong_print ⟨Encoding.assembly, by decide⟩

theorem inputLine_not_special (r : Seen) : ∀ c ∈ r.inputLine, c ≠ newline ∧ c ≠ carriageReturn := by
  intro c hc
  simp only [inputLine, List.mem_append, List.mem_cons] at hc
  rcases hc with hc | rfl | hc | rfl | hc
  · exact (printLong_not_special hc).2.2
  · decide
  · exact (printLong_not_special hc).2.2
  · decide
  · exact (r.body_not_special hc).2

end Seen

/-! ## The writer -/

/-- The records that reach the file when `count` lines are in `sb`: the one that comes
after a thousand lines does not. -/
def keep : ℕ → List Seen → List Seen
  | _, [] => []
  | count, r :: rest => if count < 1000 then r :: keep (count + 1) rest else keep 0 rest

/-- The lines of a sequence of records. -/
def linesOf (records : List Seen) : List UInt8 := records.flatMap Seen.line

def FileWrite.print (w : FileWrite) (r : Seen) : FileWrite :=
  w.printToFileIpValAddr r.ip.1 r.val r.body

theorem analysisFn_eq (hashtable : Long → Option AsmText) (w : FileWrite) (p : TracePacket) :
    w.analysisFn hashtable p.ip p.val p.addr = (seen hashtable p).foldl FileWrite.print w := by
  unfold FileWrite.analysisFn seen
  split
  · rfl
  · split
    · rfl
    · cases hashtable p.ip <;> rfl

/-- Every line printed is in `out` or in `sb`. -/
theorem foldl_print (w : FileWrite) (hw : w.count = 0 → w.sb = []) (records : List Seen) :
    (records.foldl FileWrite.print w).closeFile =
      w.out ++ w.sb ++ linesOf (keep w.count records) := by
  induction records generalizing w with
  | nil =>
    rw [List.foldl_nil, FileWrite.closeFile]
    split
    · simp [keep, linesOf]
    · rename_i hcount
      have hempty := hw (by omega)
      simp [keep, linesOf, hempty]
  | cons r rest ih =>
    rw [List.foldl_cons, FileWrite.print, FileWrite.printToFileIpValAddr]
    by_cases hcount : w.count < 1000
    · rw [if_pos hcount, ih _ (fun h => absurd h (Nat.succ_ne_zero _)), keep, if_pos hcount]
      simp [linesOf, r.line_eq]
    · rw [if_neg hcount, ih _ (fun _ => rfl), keep, if_neg hcount]
      simp

theorem writeFile_eq (hashtable : Long → Option AsmText) (packets : List TracePacket) :
    writeFile hashtable packets = linesOf (keep 0 (seenOf hashtable packets)) := by
  have hfold : packets.foldl (fun w p => w.analysisFn hashtable p.ip p.val p.addr)
      FileWrite.new = (seenOf hashtable packets).foldl FileWrite.print FileWrite.new := by
    rw [seenOf, List.foldl_flatMap]
    simp only [analysisFn_eq]
  rw [writeFile, hfold, foldl_print _ (fun _ => rfl)]
  rfl

/-- While `sb` is not full nothing is dropped. -/
theorem keep_eq_self {count : ℕ} {records : List Seen} (h : count + records.length ≤ 1000) :
    keep count records = records := by
  induction records generalizing count with
  | nil => rfl
  | cons r rest ih =>
    rw [List.length_cons] at h
    rw [keep, if_pos (by omega), ih (by omega)]

theorem length_keep_le (count : ℕ) (records : List Seen) :
    (keep count records).length ≤ records.length := by
  induction records generalizing count with
  | nil => exact le_rfl
  | cons r rest ih =>
    rw [keep]
    split
    · simpa using ih (count + 1)
    · have hrest := ih 0
      rw [List.length_cons]
      omega

/-- After a thousand lines a record is dropped. -/
theorem length_keep_lt {count : ℕ} {records : List Seen} (hcount : count ≤ 1000)
    (h : 1000 < count + records.length) : (keep count records).length < records.length := by
  induction records generalizing count with
  | nil =>
    rw [List.length_nil] at h
    omega
  | cons r rest ih =>
    rw [List.length_cons] at h
    rw [keep]
    split
    · rename_i hroom
      have hrest := @ih (count + 1) (by omega) (by omega)
      simpa using hrest
    · have hrest := length_keep_le 0 rest
      rw [List.length_cons]
      omega

/-! ## The reader -/

/-- A short text without zeros comes out of its row as it went in. -/
theorem rowText_copyRow {body : List UInt8} (hlen : body.length < 64) (hzero : ∀ c ∈ body, c ≠ 0)
    (before : UInt8) (row : ℕ → UInt8) :
    rowText (copyRow (fun i => (before :: body).getD i 0) (before :: body).length 1 row) =
      body := by
  have hrow : ∃ behind, rowBytes (copyRow (fun i => (before :: body).getD i 0)
      (before :: body).length 1 row) = body ++ 0 :: behind := by
    refine ⟨(List.range (63 - body.length)).map (fun i => row (body.length + 1 + i)), ?_⟩
    apply List.ext_getElem?
    intro i
    rw [rowBytes, List.getElem?_map]
    have hlength : (before :: body).length = body.length + 1 := rfl
    rcases Nat.lt_trichotomy i body.length with hi | hi | hi
    · rw [List.getElem?_range (by omega), List.getElem?_append_left hi, Option.map_some, copyRow,
        if_neg (by omega), if_pos (by omega), List.getD_eq_getElem?_getD, Nat.add_comm,
        List.getElem?_cons_succ, List.getElem?_eq_getElem hi, Option.getD_some]
    · rw [List.getElem?_range (by omega), List.getElem?_append_right (by omega), Option.map_some,
        copyRow, if_neg (by omega), if_neg (by omega), if_pos (by omega), hi, Nat.sub_self]
      rfl
    · obtain ⟨k, hk⟩ := Nat.exists_eq_add_of_lt hi
      rw [List.getElem?_append_right (by omega)]
      have hplace : i - body.length = k + 1 := by omega
      rw [hplace, List.getElem?_cons_succ, List.getElem?_map]
      rcases Nat.lt_or_ge i 64 with hrow | hrow
      · rw [List.getElem?_range hrow, List.getElem?_range (by omega), Option.map_some,
          Option.map_some, copyRow, if_neg (by omega), if_neg (by omega), if_neg (by omega)]
        congr 2
        omega
      · rw [List.getElem?_eq_none (by simpa using hrow),
          List.getElem?_eq_none (by rw [List.length_range]; omega)]
        rfl
  obtain ⟨behind, hbytes⟩ := hrow
  rw [rowText, hbytes]
  refine (span_append (fun c => decide (c ≠ 0)) body (0 :: behind) (by simpa using hzero) ?_).1
  intro c hc
  have hzero : 0 = c := by simpa using hc
  simp [← hzero]

namespace FilePacket

/-- The third token of a line whose packet is not an assembly packet. -/
theorem body_token {r : Seen} (h : r.val ≠ Encoding.assembly) :
    nextToken blanks (space :: r.body) = some (r.body, []) := by
  cases r with
  | data ip val addr =>
    have token := nextToken_eq blanks [space] (printLong addr.1) [] (by simp [space, blanks])
      (fun c hc => (printLong_not_special hc).1) (printLong_ne_nil _) (by simp)
    rw [List.append_nil] at token
    exact token
  | assembly ip asmb => exact absurd rfl h

/-- The rest of the line, with the blank in front of it. -/
theorem text_token (r : Seen) :
    nextToken [newline] (space :: r.body) = some (space :: r.body, []) := by
  have token := nextToken_eq [newline] [] (space :: r.body) [] (by simp) (by
      intro c hc
      rcases List.mem_cons.mp hc with rfl | hc
      · decide
      · simpa using (r.body_not_special hc).2.1) (List.cons_ne_nil _ _) (by simp)
  simpa using token

theorem head_blank (s : List UInt8) (c : UInt8) (hc : (space :: s).head? = some c) :
    c ∈ blanks := by
  have heq : space = c := by simpa using hc
  rw [← heq]
  decide

/-- A line is cut into its numbers and what stands in the third place. -/
theorem addLine_eq (s : FilePacket) (r : Seen) :
    s.addLine r.inputLine =
      if r.val ≠ Encoding.assembly then
        some (s.enqueue (parseLong (printLong r.ip.1)) r.val (parseLong r.body))
      else
        (s.asmPool.enqueue CustomAsmCharPool.bufferSize
          (copyRow (fun i => (space :: r.body).getD i 0) (space :: r.body).length 1)).map
            (fun asmPool => { s with asmPool := asmPool }.enqueue
              (parseLong (printLong r.ip.1)) r.val (-1)) := by
  have ipToken := nextToken_eq blanks [] (printLong r.ip.1)
    (space :: (printLong r.val ++ space :: r.body)) (by simp)
    (fun c hc => (printLong_not_special hc).1) (printLong_ne_nil _) (head_blank _)
  have valueToken := nextToken_eq blanks [space] (printLong r.val) (space :: r.body)
    (by simp [space, blanks]) (fun c hc => (printLong_not_special hc).1) (printLong_ne_nil _)
    (head_blank _)
  rw [List.nil_append] at ipToken
  rw [List.singleton_append] at valueToken
  rw [addLine, Seen.inputLine, ipToken]
  show (nextToken blanks (space :: (printLong r.val ++ space :: r.body))).bind _ = _
  rw [valueToken, Option.bind_some]
  show (javaParseLong (printLong r.val)).bind _ = _
  rw [r.val_read, Option.bind_some]
  by_cases hval : r.val = Encoding.assembly
  · rw [if_neg (not_not.mpr hval), if_neg (not_not.mpr hval)]
    show (nextToken [newline] (space :: r.body)).bind _ = _
    rw [text_token, Option.bind_some, Option.map_eq_bind]
    rfl
  · rw [if_pos hval, if_pos hval]
    show (nextToken blanks (space :: r.body)).bind _ = _
    rw [body_token hval]
    rfl

/-- The records read so far, and the lines still in the file. -/
structure Reads (s : FilePacket) (done todo : List Seen) : Prop where
  pool : s.asmPool.Sound CustomAsmCharPool.bufferSize
  packets : s.packets = done.map Seen.readPacket
  texts : s.deliveredTexts = done.flatMap Seen.readTexts
  rest : s.rest = linesOf todo

theorem Reads.openFile (records : List Seen) : Reads (openFile (linesOf records)) [] records where
  pool := CircularQueue.sound_empty _ _
  packets := rfl
  texts := by simp [deliveredTexts, FilePacket.openFile]
  rest := rfl

theorem readLine_linesOf (r : Seen) (todo : List Seen) :
    readLine (linesOf (r :: todo)) = some (r.inputLine, linesOf todo) := by
  rw [linesOf, List.flatMap_cons, Seen.line, List.append_assoc, List.singleton_append]
  exact readLine_eq r.inputLine_not_special

/-- One line is read. -/
theorem Reads.addLine {s t : FilePacket} {done todo : List Seen} {r : Seen}
    (h : Reads s done (r :: todo))
    (ht : { s with rest := linesOf todo }.addLine r.inputLine = some t) :
    Reads t (done ++ [r]) todo := by
  rw [addLine_eq] at ht
  by_cases hval : r.val = Encoding.assembly
  · rw [if_neg (not_not.mpr hval)] at ht
    obtain ⟨pool, hpool, rfl⟩ := Option.map_eq_some_iff.mp ht
    obtain ⟨hsound, row, hcontents⟩ := h.pool.enqueue (by decide) hpool
    have htext := rowText_copyRow r.length_body (fun c hc => (r.body_not_special hc).1) space row
    exact
      { pool := hsound
        packets := by
          show s.packets ++ _ = _
          rw [h.packets, List.map_append, List.map_singleton, Seen.readPacket, if_pos hval]
        texts := by
          show s.texts ++ (pool.contents _).map rowText = _
          rw [hcontents, List.map_append, ← List.append_assoc, List.map_singleton, htext,
            List.flatMap_append, ← h.texts, List.flatMap_singleton, Seen.readTexts, if_pos hval]
          rfl
        rest := rfl }
  · rw [if_pos hval] at ht
    cases ht
    exact
      { pool := h.pool
        packets := by
          show s.packets ++ _ = _
          rw [h.packets, List.map_append, List.map_singleton, Seen.readPacket, if_neg hval]
        texts := by
          rw [List.flatMap_append, List.flatMap_singleton, Seen.readTexts, if_neg hval,
            List.append_nil]
          exact h.texts
        rest := rfl }

theorem Reads.fetchManyPackets {maxSize : ℕ} {s t : FilePacket} {done todo : List Seen}
    (h : Reads s done todo) (ht : s.fetchManyPackets maxSize = some t) :
    ∃ now later, todo = now ++ later ∧ Reads t (done ++ now) later := by
  induction maxSize generalizing s done todo with
  | zero =>
    cases ht
    exact ⟨[], todo, rfl, by simpa using h⟩
  | succ maxSize ih =>
    cases todo with
    | nil =>
      have hnone : readLine s.rest = none := by
        rw [h.rest]
        rfl
      rw [FilePacket.fetchManyPackets, hnone] at ht
      cases ht
      exact ⟨[], [], rfl, by simpa using h⟩
    | cons r todo =>
      rw [FilePacket.fetchManyPackets, h.rest, readLine_linesOf] at ht
      obtain ⟨u, hu, ht⟩ := Option.bind_eq_some_iff.mp ht
      obtain ⟨now, later, hsplit, reads⟩ := ih (h.addLine hu) ht
      refine ⟨r :: now, later, by rw [hsplit]; rfl, ?_⟩
      simpa using reads

theorem Reads.dequeueText {s t : FilePacket} {done todo : List Seen} (h : Reads s done todo)
    (ht : s.dequeueText = some t) : Reads t done todo := by
  obtain ⟨⟨row, q⟩, hq, rfl⟩ := Option.map_eq_some_iff.mp ht
  obtain ⟨hsound, hcontents⟩ := h.pool.dequeue (by decide) hq
  exact
    { pool := hsound
      packets := h.packets
      texts := by
        rw [← h.texts, deliveredTexts, deliveredTexts, hcontents]
        simp
      rest := h.rest }

/-- A run has read a first part of the lines. -/
theorem reads_of_run {records : List Seen} {actions : List Action} {s : FilePacket}
    (run : Run (StepOf next) (openFile (linesOf records)) actions s) :
    ∃ done todo, records = done ++ todo ∧ Reads s done todo := by
  apply run.invariant ⟨[], records, rfl, Reads.openFile records⟩
  intro s a t h hs
  obtain ⟨done, todo, hrecords, reads⟩ := h
  cases a with
  | fetchManyPackets maxSize =>
    obtain ⟨now, later, hsplit, reads⟩ := reads.fetchManyPackets hs
    exact ⟨done ++ now, later, by rw [hrecords, hsplit, List.append_assoc], reads⟩
  | dequeueText => exact ⟨done, todo, hrecords, reads.dequeueText hs⟩

theorem fetch_one {s t : FilePacket} {done todo : List Seen} {r : Seen}
    (h : Reads s done (r :: todo))
    (ht : { s with rest := linesOf todo }.addLine r.inputLine = some t) :
    s.fetchManyPackets 1 = some t := by
  rw [FilePacket.fetchManyPackets, h.rest, readLine_linesOf]
  exact Option.bind_eq_some_iff.mpr ⟨t, ht, rfl⟩

/-- The line that comes next, and the text beside it, can always be taken. -/
theorem exists_read_line {s : FilePacket} {done todo : List Seen} {r : Seen}
    (h : Reads s done (r :: todo)) (hempty : s.asmPool.size CustomAsmCharPool.bufferSize = 0) :
    ∃ actions t, Run (StepOf next) s actions t ∧ Reads t (done ++ [r]) todo ∧
      t.asmPool.size CustomAsmCharPool.bufferSize = 0 := by
  have hpos : 0 < CustomAsmCharPool.bufferSize := by decide
  have hline := addLine_eq { s with rest := linesOf todo } r
  by_cases hval : r.val = Encoding.assembly
  · rw [if_neg (not_not.mpr hval)] at hline
    obtain ⟨pool, hpool⟩ := Option.isSome_iff_exists.mp (h.pool.enqueue_isSome
      (by omega))
    rw [hpool, Option.map_some] at hline
    obtain ⟨hsound, row, hcontents⟩ := h.pool.enqueue hpos hpool
    have hsize : pool.size CustomAsmCharPool.bufferSize = 1 := by
      rw [← CircularQueue.length_contents, hcontents, List.length_append,
        CircularQueue.length_contents, hempty]
      rfl
    obtain ⟨⟨text, q⟩, hq⟩ := Option.isSome_iff_exists.mp
      (hsound.dequeue_isSome hpos (by omega))
    have fetched := h.addLine hline
    have taken := fetched.dequeueText (Option.map_eq_some_iff.mpr ⟨(text, q), hq, rfl⟩)
    refine ⟨[.fetchManyPackets 1, .dequeueText], _, ?_, taken, ?_⟩
    · refine Run.cons (fetch_one h hline) (Run.single ?_)
      exact Option.map_eq_some_iff.mpr ⟨(text, q), hq, rfl⟩
    · obtain ⟨_, hrest⟩ := hsound.dequeue hpos hq
      show q.size _ = 0
      have hlength := congrArg List.length hrest
      rw [List.length_cons, CircularQueue.length_contents, CircularQueue.length_contents] at hlength
      omega
  · rw [if_pos hval] at hline
    exact ⟨[.fetchManyPackets 1], _, Run.single (fetch_one h hline), h.addLine hline, hempty⟩

/-- The whole file can be read. -/
theorem exists_read_all {todo : List Seen} :
    ∀ {s : FilePacket} {done : List Seen}, Reads s done todo →
      s.asmPool.size CustomAsmCharPool.bufferSize = 0 →
      ∃ actions t, Run (StepOf next) s actions t ∧ Reads t (done ++ todo) [] := by
  induction todo with
  | nil =>
    intro s done h _
    exact ⟨[], s, .nil, by simpa using h⟩
  | cons r todo ih =>
    intro s done h hempty
    obtain ⟨first, u, hfirst, reads, hu⟩ := exists_read_line h hempty
    obtain ⟨more, t, hmore, all⟩ := ih reads hu
    exact ⟨first ++ more, t, hfirst.append hmore, by simpa using all⟩

end FilePacket

/-! ## The round trip -/

/-- The round trip succeeds when the lines kept say what was written. -/
theorem roundTrips_iff_kept (hashtable : Long → Option AsmText) (packets : List TracePacket) :
    RoundTrips hashtable packets ↔
      (keep 0 (seenOf hashtable packets)).map Seen.readPacket =
          (seenOf hashtable packets).map Seen.packet ∧
        (keep 0 (seenOf hashtable packets)).flatMap Seen.readTexts =
          (seenOf hashtable packets).flatMap Seen.texts := by
  rw [RoundTrips, writeFile_eq]
  generalize seenOf hashtable packets = records
  constructor
  · intro h
    obtain ⟨actions, t, run, reads⟩ :=
      FilePacket.exists_read_all (FilePacket.Reads.openFile (keep 0 records)) rfl
    obtain ⟨_, _, hall⟩ := h actions t run
    obtain ⟨hpackets, htexts⟩ := hall reads.rest
    rw [reads.packets, List.nil_append] at hpackets
    rw [reads.texts, List.nil_append] at htexts
    exact ⟨hpackets, htexts⟩
  · intro h actions s run
    obtain ⟨hpackets, htexts⟩ := h
    obtain ⟨done, todo, hkept, reads⟩ := FilePacket.reads_of_run run
    rw [← hpackets, ← htexts, reads.packets, reads.texts, hkept, List.map_append,
      List.flatMap_append]
    refine ⟨List.prefix_append _ _, List.prefix_append _ _, ?_⟩
    intro hend
    have hnone : todo = [] := by
      have hlines := reads.rest
      rw [hend] at hlines
      cases todo with
      | nil => rfl
      | cons r todo => simp [linesOf, Seen.line] at hlines
    simp [hnone]

/-- More than a thousand records do not all come back. -/
theorem not_roundTrips_of_many {hashtable : Long → Option AsmText} {packets : List TracePacket}
    (h : 1000 < (seenOf hashtable packets).length) : ¬ RoundTrips hashtable packets := by
  rw [roundTrips_iff_kept]
  intro hall
  have hlength := congrArg List.length hall.1
  rw [List.length_map, List.length_map] at hlength
  have hlt := @length_keep_lt 0 (seenOf hashtable packets) (Nat.zero_le 1000) (by omega)
  omega

namespace Seen

theorem length_texts_le (r : Seen) : r.texts.length ≤ r.readTexts.length := by
  cases r with
  | data ip val addr => exact Nat.zero_le _
  | assembly ip asmb => simp [texts, readTexts, Seen.val]

/-- A line says what was written. -/
theorem read_eq_iff (r : Seen) :
    (r.readPacket = r.packet ∧ r.readTexts.length = r.texts.length) ↔ r.Readable := by
  cases r with
  | data ip val addr =>
    rw [Readable, ← parse_print_iff, ← parse_print_iff]
    by_cases hval : val.1 = Encoding.assembly
    · simp [readTexts, texts, Seen.val, hval]
    · simp [readTexts, texts, readPacket, packet, Seen.val, Seen.ip, Seen.body, hval]
  | assembly ip asmb =>
    rw [Readable, ← parse_print_iff]
    simp [readTexts, texts, readPacket, packet, Seen.val, Seen.ip]

/-- A readable line says the text that was written, if any. -/
theorem readTexts_eq {r : Seen} (h : r.Readable) : r.readTexts = r.texts := by
  cases r with
  | data ip val addr => exact if_neg h.2.2
  | assembly ip asmb => exact if_pos rfl

/-- When all texts together are as many as they should be, so are those of each record. -/
theorem length_readTexts_eq {records : List Seen}
    (h : (records.flatMap readTexts).length = (records.flatMap texts).length) :
    ∀ r ∈ records, r.readTexts.length = r.texts.length := by
  have hle : ∀ records : List Seen,
      (records.flatMap texts).length ≤ (records.flatMap readTexts).length := by
    intro records
    induction records with
    | nil => exact le_rfl
    | cons r records ih =>
      have hr := r.length_texts_le
      simp only [List.flatMap_cons, List.length_append]
      omega
  induction records with
  | nil => simp
  | cons r records ih =>
    have hr := r.length_texts_le
    have hrest := hle records
    simp only [List.flatMap_cons, List.length_append] at h
    intro r' hr'
    rcases List.mem_cons.mp hr' with rfl | hmem
    · omega
    · exact ih (by omega) r' hmem

end Seen

/-- The round trip succeeds exactly when at most a thousand records are written, every
number but the second of each line is readable, and no packet that is not an instruction
has the value of an assembly packet. -/
theorem trace_round_trip_iff (hashtable : Long → Option AsmText) (packets : List TracePacket) :
    RoundTrips hashtable packets ↔
      (seenOf hashtable packets).length ≤ 1000 ∧
        ∀ r ∈ seenOf hashtable packets, r.Readable := by
  constructor
  · intro h
    have hfew : (seenOf hashtable packets).length ≤ 1000 := by
      by_contra hmany
      exact not_roundTrips_of_many (by omega) h
    refine ⟨hfew, ?_⟩
    rw [roundTrips_iff_kept, keep_eq_self (by omega)] at h
    obtain ⟨hpackets, htexts⟩ := h
    intro r hr
    have hpacket := List.map_inj_left.mp hpackets r hr
    have htext := Seen.length_readTexts_eq (congrArg List.length htexts) r hr
    exact r.read_eq_iff.mp ⟨hpacket, htext⟩
  · intro h
    obtain ⟨hfew, hreadable⟩ := h
    rw [roundTrips_iff_kept, keep_eq_self (by omega)]
    constructor
    · apply List.map_congr_left
      intro r hr
      exact (r.read_eq_iff.mpr (hreadable r hr)).1
    · apply List.flatMap_congr
      intro r hr
      exact Seen.readTexts_eq (hreadable r hr)

/-- A thread that logs 1001 packets: the last one is not in the file. -/
theorem thousand_and_one_fail : ¬ RoundTrips (fun _ => none)
    (List.replicate 1001 ⟨⟨1, by decide⟩, ⟨2, by decide⟩, ⟨3, by decide⟩⟩) := by
  apply not_roundTrips_of_many
  have hone : seen (fun _ => none) ⟨⟨1, by decide⟩, ⟨2, by decide⟩, ⟨3, by decide⟩⟩ =
      [.data ⟨1, by decide⟩ ⟨2, by decide⟩ ⟨3, by decide⟩] := rfl
  rw [seenOf, List.length_flatMap, List.map_replicate, hone, List.sum_replicate]
  decide

end Tejas.TraceFile
