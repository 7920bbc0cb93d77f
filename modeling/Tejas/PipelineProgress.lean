import Tejas.Announcements

/-!
# How an instruction advances

Between its rename and its commit an instruction moves through the stages of its entry,
announces its results and settles them in the tables. Every step of the later stages is
an advance of one entry, which leaves the names of all entries as they are.
-/

namespace Tejas
open RingWindow RingIndices RegisterPool

/-- The entry at another stage. -/
def ReorderBufferEntry.staged (e : ReorderBufferEntry)
    (isIssued isExecuted isWriteBackDone associatedIWEntry : Bool) : ReorderBufferEntry :=
  { e with
    isIssued := isIssued
    isExecuted := isExecuted
    isWriteBackDone := isWriteBackDone
    associatedIWEntry := associatedIWEntry }

namespace Pipeline

variable {s t u v : Pipeline} {pos i j q : ℕ} {type : RegisterType}
  {l m : List (RegisterType × ℕ)} {blind : ℕ → Prop}

/-- The result is there for the instructions that read it: the instruction has executed,
or the broadcast of its unit is over. -/
def Done (s : Pipeline) (i : ℕ) : Prop :=
  (s.entry i).isExecuted = true ∨ (s.entry i).isIssued = true ∧
    OperationType.issueKind (s.entry i).instruction.operationType = .unit ∧
    .broadCast i ∉ s.eventQueue

/-- The values of the results `m` are in the register files. -/
structure Settled (s t : Pipeline) (m : List (RegisterType × ℕ)) : Prop where
  after : t = { s with tables := t.tables }
  valid : ∀ type, (t.tables type).Valid
  registerFile : ∀ type q, (t.tables type).registerFile q = true ↔
    (s.tables type).registerFile q = true ∨ (type, q) ∈ m
  valueValid : ∀ type q, (t.tables type).valueValid q = true ↔
    (s.tables type).valueValid q = true ∨ (type, q) ∈ m
  archToPhyMapping : ∀ type, (t.tables type).archToPhyMapping = (s.tables type).archToPhyMapping
  nPhyRegisters : ∀ type, (t.tables type).nPhyRegisters = (s.tables type).nPhyRegisters
  inBounds : ∀ type j n, (t.tables type).InBounds j n ↔ (s.tables type).InBounds j n

theorem Settled.nil (h : ∀ type, (s.tables type).Valid) : s.Settled s [] where
  after := rfl
  valid := h
  registerFile _ _ := by simp
  valueValid _ _ := by simp
  archToPhyMapping _ := rfl
  nPhyRegisters _ := rfl
  inBounds _ _ _ := Iff.rfl

theorem Settled.trans (h : s.Settled u l) (h' : u.Settled t m) : s.Settled t (l ++ m) where
  after := by rw [h'.after, h.after]
  valid := h'.valid
  registerFile type q := by
    rw [h'.registerFile, h.registerFile, List.mem_append, or_assoc]
  valueValid type q := by
    rw [h'.valueValid, h.valueValid, List.mem_append, or_assoc]
  archToPhyMapping type := (h'.archToPhyMapping type).trans (h.archToPhyMapping type)
  nPhyRegisters type := (h'.nPhyRegisters type).trans (h.nPhyRegisters type)
  inBounds type j n := (h'.inBounds type j n).trans (h.inBounds type j n)

/-- What holds of the new table and of the other ones holds of all tables. -/
theorem forall_setTable {P : RegisterType → RenameTable → Prop} {table : RenameTable}
    (hself : P type table) (hother : ∀ type', type' ≠ type → P type' (s.tables type'))
    (type' : RegisterType) : P type' ((s.setTable type table).tables type') := by
  by_cases htype : type' = type
  · subst htype
    rw [setTable_self]
    exact hself
  · rw [setTable_of_ne _ _ htype]
    exact hother type' htype

/-- One pending result is written to its register file. -/
theorem writeToRF_spec (hvalid : ∀ type, (s.tables type).Valid)
    (hp : (s.tables type).Pending q) {o : Option Operand} {n : ℕ}
    (ho : o.bind Operand.register? = some (type, n)) :
    ∃ t, s.writeToRFAndAddToAvailableList o (some q) = .ok t ∧ s.Settled t [(type, q)] := by
  obtain ⟨table, heq, hwritten⟩ :=
    RenameTable.writeToRFAndAddToAvailableList_spec (hvalid type) hp
  refine ⟨s.setTable type table, ?_, rfl, ?_, ?_, ?_, ?_, ?_, ?_⟩
  · rw [writeToRFAndAddToAvailableList, ho]
    simp only [heq]
    rfl
  · exact forall_setTable hwritten.valid fun type' _ => hvalid type'
  · refine forall_setTable (P := fun type' t => ∀ q', t.registerFile q' = true ↔
      (s.tables type').registerFile q' = true ∨ (type', q') ∈ [(type, q)]) (fun q' => ?_)
      fun type' hne q' => by simp [hne]
    rw [hwritten.registerFile]
    by_cases hq : q' = q
    · simp [hq]
    · simp [hq]
  · refine forall_setTable (P := fun type' t => ∀ q', t.valueValid q' = true ↔
      (s.tables type').valueValid q' = true ∨ (type', q') ∈ [(type, q)]) (fun q' => ?_)
      fun type' hne q' => by simp [hne]
    rw [hwritten.valueValid]
    by_cases hq : q' = q
    · simp [hq]
    · simp [hq]
  · exact forall_setTable (P := fun type' t => t.archToPhyMapping =
      (s.tables type').archToPhyMapping) hwritten.archToPhyMapping fun _ _ => rfl
  · exact forall_setTable (P := fun type' t => t.nPhyRegisters =
      (s.tables type').nPhyRegisters) hwritten.nPhyRegisters fun _ _ => rfl
  · exact forall_setTable (P := fun type' t => ∀ j n, t.InBounds j n ↔
      (s.tables type').InBounds j n) hwritten.inBounds fun _ _ _ _ => Iff.rfl

/-- Writing the results of an exchange back succeeds when they are pending. -/
theorem writeResults_xchg (hx : (s.entry pos).instruction.operationType = .xchg)
    (hvalid : ∀ type, (s.tables type).Valid) (hcomplete : (s.entry pos).Complete)
    (hpending : ∀ type q, (type, q) ∈ (s.entry pos).results → (s.tables type).Pending q)
    (hnodup : (s.entry pos).results.Nodup) :
    ∃ t m, s.writeResults pos = .ok t ∧ s.Settled t m ∧
      ∀ r, r ∈ m ↔ r ∈ (s.entry pos).results := by
  obtain ⟨r₁, r₂, hr₁, hr₂, hd⟩ := Instruction.xchg_operands hx
  obtain ⟨o₁, h₁, ho₁⟩ := Option.bind_eq_some_iff.mp hr₁
  obtain ⟨o₂, h₂, ho₂⟩ := Option.bind_eq_some_iff.mp hr₂
  have htype₁ : o₁.operandType = r₁.1.operandType := Operand.operandType_eq_iff.mpr ⟨r₁.2, ho₁⟩
  have htype₂ : o₂.operandType = r₂.1.operandType := Operand.operandType_eq_iff.mpr ⟨r₂.2, ho₂⟩
  have hwrites := ReorderBufferEntry.writes_xchg hx hr₁ hr₂
  have hsome : ∀ w ∈ (s.entry pos).writes, ∃ q, w.2 = some q := fun w hw =>
    Option.isSome_iff_exists.mp (hcomplete.allocated w hw)
  by_cases heq : r₁ = r₂
  · rw [if_pos heq] at hwrites
    obtain ⟨q₁, hq₁⟩ := hsome _ (hwrites ▸ List.mem_singleton_self _)
    simp only at hq₁
    have hresults : (s.entry pos).results = [(r₁.1, q₁)] := by
      rw [ReorderBufferEntry.results, hwrites, hq₁]
      rfl
    have hsame := hcomplete.exchange hx (by rw [hr₁, hr₂, heq])
    obtain ⟨u, hu, hsettled⟩ := writeToRF_spec hvalid
      (hpending r₁.1 q₁ (hresults ▸ List.mem_singleton_self _)) hr₁
    refine ⟨u, _, ?_, hsettled, fun r => by rw [hresults]⟩
    rw [writeResults.eq_def]
    simp only [hd, if_pos hx, hsame, hq₁, h₁, h₂, Option.map_some, htype₁, htype₂, heq]
    rw [← h₁, hu]
    simp [Bind.bind, Except.bind]
  · rw [if_neg heq] at hwrites
    obtain ⟨q₁, hq₁⟩ := hsome (r₁, (s.entry pos).operand1.phyReg1) (by simp [hwrites])
    obtain ⟨q₂, hq₂⟩ := hsome (r₂, (s.entry pos).operand2.phyReg1) (by simp [hwrites])
    simp only at hq₁ hq₂
    have hresults : (s.entry pos).results = [(r₁.1, q₁), (r₂.1, q₂)] := by
      rw [ReorderBufferEntry.results, hwrites, hq₁, hq₂]
      rfl
    have hne : (r₁.1, q₁) ≠ (r₂.1, q₂) := by
      rw [hresults] at hnodup
      simpa using hnodup
    obtain ⟨u, hu, hsettled⟩ := writeToRF_spec hvalid
      (hpending r₁.1 q₁ (by simp [hresults])) hr₁
    have hpending₂ := hpending r₂.1 q₂ (by simp [hresults])
    have hpending' : (u.tables r₂.1).Pending q₂ := by
      refine ⟨by rw [hsettled.nPhyRegisters]; exact hpending₂.1, ?_⟩
      rw [← Bool.not_eq_true, hsettled.registerFile, List.mem_singleton]
      rintro (hfile | hmem)
      · rw [hpending₂.2] at hfile
        cases hfile
      · exact hne hmem.symm
    obtain ⟨t, ht, hsettled'⟩ := writeToRF_spec hsettled.valid hpending' hr₂
    refine ⟨t, _, ?_, hsettled.trans hsettled', fun r => by rw [hresults]; rfl⟩
    rw [writeResults.eq_def]
    have hcond : (some o₁).map Operand.operandType ≠ (some o₂).map Operand.operandType ∨
        some q₁ ≠ some q₂ := by
      rw [Option.map_some, Option.map_some, htype₁, htype₂]
      by_contra hnot
      rw [not_or, not_not, not_not, Option.some.injEq, Option.some.injEq,
        RegisterType.operandType_inj] at hnot
      exact hne (Prod.ext hnot.1 hnot.2)
    simp only [hd, if_pos hx, hq₁, hq₂, h₁, h₂]
    rw [← h₁, hu]
    simp only [Bind.bind, Except.bind]
    rw [h₁, if_pos hcond, ← h₂, ht]

/-- Writing the results of an entry back succeeds when they are pending. -/
theorem writeResults_spec (hvalid : ∀ type, (s.tables type).Valid)
    (hcomplete : (s.entry pos).Complete)
    (hpending : ∀ type q, (type, q) ∈ (s.entry pos).results → (s.tables type).Pending q)
    (hnodup : (s.entry pos).results.Nodup) :
    ∃ t m, s.writeResults pos = .ok t ∧ s.Settled t m ∧
      ∀ r, r ∈ m ↔ r ∈ (s.entry pos).results := by
  by_cases hx : (s.entry pos).instruction.operationType = .xchg
  · exact writeResults_xchg hx hvalid hcomplete hpending hnodup
  · rw [writeResults.eq_def]
    simp only
    cases hd : (s.entry pos).instruction.destinationOperand with
    | none =>
      rw [if_neg hx]
      refine ⟨s, [], rfl, .nil hvalid, fun r => ?_⟩
      rw [ReorderBufferEntry.results, ReorderBufferEntry.writes_of_ne hx, hd]
      simp
    | some d =>
      have hresults : ∀ type q, (type, q) ∈ (s.entry pos).results ↔
          type.operandType = d.operandType ∧
            (s.entry pos).physicalDestinationRegister = some q :=
        fun _ _ => mem_results_of_destination hd
      cases hr : d.register? with
      | none =>
        refine ⟨s, [], ?_, .nil hvalid, fun r => ?_⟩
        · simp [writeToRFAndAddToAvailableList, hr]
        · rw [ReorderBufferEntry.results, ReorderBufferEntry.writes_of_ne hx, hd, Option.bind_some,
            hr]
          simp
      | some r =>
        have htype : d.operandType = r.1.operandType :=
          Operand.operandType_eq_iff.mpr ⟨r.2, hr⟩
        simp only [htype, RegisterType.operandType_inj] at hresults
        have hsome : ((s.entry pos).physicalDestinationRegister).isSome = true := by
          refine hcomplete.allocated (r, (s.entry pos).physicalDestinationRegister) ?_
          rw [ReorderBufferEntry.writes_of_ne hx, hd, Option.bind_some, hr]
          exact List.mem_singleton_self _
        obtain ⟨q, hq⟩ := Option.isSome_iff_exists.mp hsome
        obtain ⟨t, ht, hsettled⟩ := writeToRF_spec hvalid
          (hpending r.1 q ((hresults _ _).mpr ⟨rfl, hq⟩)) (o := some d) hr
        rw [hq]
        refine ⟨t, _, ht, hsettled, fun r' => ?_⟩
        rw [hresults, List.mem_singleton, Prod.ext_iff, hq, Option.some.injEq, eq_comm (a := q)]

/-- The entry at `pos` has advanced: it announced the results `l` and settled `m`. -/
structure Progress (s t : Pipeline) (pos : ℕ) (blind : ℕ → Prop)
    (l m : List (RegisterType × ℕ)) : Prop where
  ring : t.rob = { s.rob with ROB := t.rob.ROB }
  decodeBuffer : t.decodeBuffer = s.decodeBuffer
  names : ∀ i, (s.entry i).SameNames (t.entry i)
  isValid : ∀ i, (t.entry i).isValid = (s.entry i).isValid
  stage : ∀ i, i ≠ pos → (s.entry i).SameStage (t.entry i)
  untouched : ∀ i, i ≠ pos → (s.entry i).isRenameDone = false → t.entry i = s.entry i
  coherent : ∀ i, (s.entry i).Coherent → (t.entry i).Coherent
  missing : ∀ i, ∀ part ∈ (t.entry i).parts, part.ready = false → part ∈ (s.entry i).parts
  ready : ∀ i, (s.entry i).Coherent → ¬ blind i → ∀ part ∈ (t.entry i).parts,
    part.ready = true → ∃ old ∈ (s.entry i).parts, old.register = part.register ∧
      old.phyReg = part.phyReg ∧
      (old.ready = true ∨ ∃ q, part.phyReg = some q ∧ (part.register.1, q) ∈ l)
  heard : ∀ i before between after, s.Hears pos l i before between after →
    ∀ part ∈ (t.entry i).parts, part.ready = false →
      ∀ q, part.phyReg = some q → (part.register.1, q) ∉ l
  valid : ∀ type, (t.tables type).Valid
  registerFile : ∀ type q, (t.tables type).registerFile q = true ↔
    (s.tables type).registerFile q = true ∨ (type, q) ∈ m
  valueValid : ∀ type q, (t.tables type).valueValid q = true ↔
    (s.tables type).valueValid q = true ∨ (type, q) ∈ l ∨ (type, q) ∈ m
  archToPhyMapping : ∀ type, (t.tables type).archToPhyMapping = (s.tables type).archToPhyMapping
  nPhyRegisters : ∀ type, (t.tables type).nPhyRegisters = (s.tables type).nPhyRegisters
  inBounds : ∀ type j n, (t.tables type).InBounds j n ↔ (s.tables type).InBounds j n

theorem Progress.window (h : s.Progress t pos blind l m) : t.rob.window = s.rob.window := by
  rw [h.ring]
  rfl

/-- What the entry at `pos` itself has become does not stop its announcement. -/
theorem Hears.of_other {before between after : List ℕ}
    (h : s.Hears pos l i before between after) (hring : u.rob = { s.rob with ROB := u.rob.ROB })
    (hother : ∀ k, k ≠ pos → u.entry k = s.entry k) :
    u.Hears pos l i before between after := by
  have hnodup : s.rob.window.Nodup := h.indices.occupied_nodup
  rw [h.window] at hnodup
  have hbehind := (List.nodup_cons.mp (List.nodup_append.mp hnodup).2.1).1
  have hne : ∀ k ∈ between ++ i :: after, k ≠ pos := fun k hk heq => hbehind (heq ▸ hk)
  have hi := hother i (hne i (List.mem_append_right _ List.mem_cons_self))
  refine ⟨?_, ?_, fun k hk => ?_, ?_, ?_, ?_⟩
  · rw [hring]
    exact h.indices
  · rw [hring]
    exact h.window
  · rw [hother k (hne k (List.mem_append_left _ hk))]
    exact h.open' k hk
  · rw [hi, h.isValid]
  · rw [hi, h.isRenameDone]
  · rw [hi, h.isIssued]

/-- A change of stage, an announcement and a write-back make one advance. -/
theorem progress_of_stages {isIssued isExecuted isWriteBackDone associatedIWEntry : Bool}
    {renameBuffer : List ℕ} {eventQueue : List ExecutionEvent}
    (hu : u = { s.setEntry pos ((s.entry pos).staged isIssued isExecuted isWriteBackDone
      associatedIWEntry) with renameBuffer := renameBuffer, eventQueue := eventQueue })
    (hannounced : u.Announced v pos blind l) (hsettled : v.Settled t m) :
    s.Progress t pos blind l m ∧ t.renameBuffer = renameBuffer ∧ t.eventQueue = eventQueue ∧
      (t.entry pos).isIssued = isIssued ∧ (t.entry pos).isExecuted = isExecuted ∧
      (t.entry pos).isWriteBackDone = isWriteBackDone ∧
      (t.entry pos).associatedIWEntry = associatedIWEntry := by
  have hother : ∀ i, i ≠ pos → u.entry i = s.entry i := by
    intro i hi
    rw [hu]
    exact Function.update_of_ne hi _ _
  have hself : u.entry pos = (s.entry pos).staged isIssued isExecuted isWriteBackDone
      associatedIWEntry := by
    rw [hu]
    exact Function.update_self _ _ _
  have hsame : ∀ i, (s.entry i).SameNames (u.entry i) ∧
      (u.entry i).isValid = (s.entry i).isValid ∧ (u.entry i).parts = (s.entry i).parts ∧
      ((u.entry i).Coherent ↔ (s.entry i).Coherent) := by
    intro i
    by_cases hi : i = pos
    · rw [hi, hself]
      exact ⟨⟨rfl, rfl, rfl, rfl, rfl, rfl⟩, rfl, rfl, Iff.rfl⟩
    · rw [hother i hi]
      exact ⟨.rfl, rfl, rfl, Iff.rfl⟩
  have hentry : ∀ i, t.entry i = v.entry i := by
    intro i
    rw [hsettled.after]
    rfl
  have htables : u.tables = s.tables := by rw [hu]; rfl
  refine ⟨?_, ?_, ?_, ?_, ?_, ?_, ?_⟩
  · refine ⟨?_, ?_, fun i => ?_, fun i => ?_, fun i hi => ?_, fun i hi hr => ?_, fun i hi => ?_,
      fun i part hpart hmissing => ?_, fun i hi hblind part hpart hready => ?_,
      fun i before between after hears part hpart hmissing q hq => ?_, hsettled.valid,
      fun type q => ?_, fun type q => ?_, fun type => ?_, fun type => ?_, fun type j n => ?_⟩
    · rw [hsettled.after]
      simp only
      rw [hannounced.ring, hu]
      rfl
    · rw [hsettled.after]
      simp only
      rw [hannounced.after, hu]
      rfl
    · rw [hentry]
      exact (hsame i).1.trans (hannounced.names i)
    · rw [hentry, (hannounced.stage i).isValid, (hsame i).2.1]
    · rw [hentry, ← hother i hi]
      exact hannounced.stage i
    · rw [hentry, hannounced.untouched i (by rw [hother i hi, hr]), hother i hi]
    · rw [hentry]
      exact hannounced.coherent i ((hsame i).2.2.2.mpr hi)
    · rw [hentry] at hpart
      rw [← (hsame i).2.2.1]
      exact hannounced.missing i part hpart hmissing
    · rw [hentry] at hpart
      rw [← (hsame i).2.2.1]
      exact hannounced.ready i ((hsame i).2.2.2.mpr hi) hblind part hpart hready
    · rw [hentry] at hpart
      have hring : u.rob = { s.rob with ROB := u.rob.ROB } := by
        rw [hu]
        rfl
      exact hannounced.heard i before between after (hears.of_other hring hother) part hpart
        hmissing q hq
    · rw [hsettled.registerFile, hannounced.table type, htables]
    · rw [hsettled.valueValid, hannounced.valueValid, htables, or_assoc]
    · rw [hsettled.archToPhyMapping, hannounced.table type, htables]
    · rw [hsettled.nPhyRegisters, hannounced.table type, htables]
    · rw [hsettled.inBounds, hannounced.table type, htables]
      rfl
  · rw [hsettled.after]
    simp only
    rw [hannounced.after, hu]
  · rw [hsettled.after]
    simp only
    rw [hannounced.after, hu]
  · rw [hentry, (hannounced.stage pos).isIssued, hself]
    rfl
  · rw [hentry, (hannounced.stage pos).isExecuted, hself]
    rfl
  · rw [hentry, (hannounced.stage pos).isWriteBackDone, hself]
    rfl
  · rw [hentry, (hannounced.stage pos).associatedIWEntry, hself]
    rfl

end Pipeline

end Tejas
