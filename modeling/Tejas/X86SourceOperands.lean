import Tejas.AddressFlow
import Tejas.MicroOpMeaning

/-!
# What the text of an operand means

A text is read as a register, an immediate, or a location with base, index, scale and offset.
The translated operand, behind the micro-operation that computes a scaled index, is at the
place that the text names.
-/

namespace Tejas

namespace X86

open Registers OperandTranslator

/-! ## Texts -/

inductive SourceOperand where
  | base (operand : BaseOperand)
  | location (tokens : MemoryTokens)
  deriving DecidableEq, Repr

/-- The tokens of a location, if it is one. -/
def location (memLocation : Text) : Option SourceOperand :=
  (memoryTokens memLocation).toOption.map .location

/-- What the text of an operand says, in the order of the shapes of `simplifyOperand`. -/
def sourceOperand (operandStr : Text) : Option SourceOperand :=
  let operandStr := normalize operandStr
  if Numbers.isValidNumber operandStr then some (.base .immediate)
  else
    match integerRegister? operandStr, floatRegister? operandStr with
    | some value, _ => some (.base (.register .integer value))
    | none, some value => some (.base (.register .float value))
    | none, none =>
      if isMemLocation operandStr then (bracketed operandStr).toOption.bind location
      else if isMemAddressRef operandStr then some (.base .immediate)
      else if isWordPtr operandStr then
        if "PTR".toList <:+: operandStr then location ((operandStr.dropWhile (· ≠ ':')).drop 1)
        else some (.location ⟨none, some .immediate, none, none⟩)
      else none

namespace SourceOperand

/-- A location whose index is multiplied. -/
def Scaled : SourceOperand → Prop
  | .location m => m.scale.isSome = true
  | .base _ => False

/-- The registers of an operand and of an address. -/
def registers : SourceOperand → List (RegisterType × ℕ)
  | .base operand => operand.register?.toList
  | .location m =>
    (m.base.bind BaseOperand.register?).toList ++ (m.index.bind BaseOperand.register?).toList

end SourceOperand

/-! ## Places -/

section Places

variable {V : Type} (I : Interpretation V) (s : Machine V)

/-- An offset beside a base and an index is left out. -/
def effectiveAddress (base index offset : Option V) : V :=
  match base, index with
  | none, none => I.address offset none
  | none, some index => I.address (some index) offset
  | some base, none => I.address (some base) offset
  | some base, some index => I.address (some base) (some index)

/-- The value of a register or an immediate. -/
def baseValue (operand : BaseOperand) : V := s.read (I.basePlace operand)

/-- The value of the index, multiplied if there is a scale. -/
def indexValue (m : MemoryTokens) : Option V :=
  match m.scale with
  | some scale =>
    some (I.compute .integerALU (m.index.map (baseValue I s)) (some (baseValue I s scale)))
  | none => m.index.map (baseValue I s)

def SourceOperand.place : SourceOperand → Place V
  | .base operand => I.basePlace operand
  | .location m =>
    .cell (effectiveAddress I (m.base.map (baseValue I s)) (indexValue I s m)
      (m.offset.map (baseValue I s)))

end Places

/-! ## Translated operands -/

/-- The translation of an operand with `n` temporaries taken before it, and the
micro-operations that it appends. -/
inductive Translated (n : ℕ) : Option SourceOperand → Option Operand → List Instruction → ℕ → Prop
  | null : Translated n none none [] n
  | base {operand : BaseOperand} (h : ∀ value, operand = .register .integer value → value < 29) :
      Translated n (some (.base operand)) (some (.base operand)) [] n
  | plain {m : MemoryTokens} {first second : Option BaseOperand} (hm : PlainTokens m)
      (hscale : m.scale = none) (haddress : addressing m.base m.index m.offset = (first, second)) :
      Translated n (some (.location m)) (some (.memory first second)) [] n
  | scaled {m : MemoryTokens} {scale : BaseOperand} {first second : Option BaseOperand}
      (hm : PlainTokens m) (hscale : m.scale = some scale)
      (haddress : addressing m.base (some (.register .integer (29 + n))) m.offset =
        (first, second)) :
      Translated n (some (.location m)) (some (.memory first second))
        [getIntALUInstruction (m.index.map .base) (some (.base scale))
          (some (integerRegister (29 + n)))] (n + 1)

section Texts

variable {t t' : Translation} {m : MemoryTokens} {o : Option Operand} {s : Text}

/-- The location of an x86 text is an operand, unless it is refused. -/
theorem getMemoryOperand_machine {base index offset : Option BaseOperand}
    (hbase : ∀ part ∈ base, ∃ value, part = .register .integer value)
    (hindex : ∀ part ∈ index, ∃ value, part = .register .integer value)
    (hoffset : ∀ part ∈ offset, part = .immediate)
    (h : getMemoryOperand (addressing base index offset).1 (addressing base index offset).2 =
      .ok o) :
    o = some (.memory (addressing base index offset).1 (addressing base index offset).2) := by
  cases base with
  | none =>
    cases index with
    | none =>
      cases offset with
      | none => cases h
      | some offset =>
        obtain rfl := hoffset offset rfl
        cases h
        rfl
    | some index =>
      obtain ⟨value, rfl⟩ := hindex index rfl
      cases offset with
      | none =>
        cases h
        rfl
      | some offset =>
        obtain rfl := hoffset offset rfl
        cases h
        rfl
  | some base =>
    obtain ⟨value, rfl⟩ := hbase base rfl
    cases index with
    | none =>
      cases offset with
      | none =>
        cases h
        rfl
      | some offset =>
        obtain rfl := hoffset offset rfl
        cases h
        rfl
    | some index =>
      obtain ⟨value', rfl⟩ := hindex index rfl
      cases h
      rfl

theorem integerRegister_of_machine {part : Option BaseOperand}
    (h : ∀ p ∈ part, MachineRegister p) : ∀ p ∈ part, ∃ value, p = .register .integer value := by
  intro p hp
  obtain ⟨value, -, rfl⟩ := h p hp
  exact ⟨value, rfl⟩

theorem memoryLocation_translated (hm : PlainTokens m) (h : memoryLocation m t = .ok (o, t')) :
    ∃ microOps, Translated t.numTempIntRegister (some (.location m)) o microOps
      t'.numTempIntRegister ∧ t'.instructionList = t.instructionList ++ microOps := by
  obtain ⟨⟨index, t₁⟩, hscale, h⟩ := bind_eq_ok.mp h
  obtain ⟨operand, hoperand, h⟩ := bind_eq_ok.mp h
  cases h
  have hbase := integerRegister_of_machine hm.base
  cases hscaleOf : m.scale with
  | none =>
    rw [getScaledIndex, hscaleOf] at hscale
    cases hscale
    obtain rfl := getMemoryOperand_machine hbase (integerRegister_of_machine hm.index) hm.offset
      hoperand
    exact ⟨[], .plain hm hscaleOf rfl, (List.append_nil _).symm⟩
  | some scale =>
    rw [getScaledIndex, hscaleOf] at hscale
    obtain ⟨⟨register, t₂⟩, htemp, hscale⟩ := bind_eq_ok.mp hscale
    obtain ⟨-, rfl, rfl⟩ := getTempIntReg_spec htemp
    cases hscale
    have hindex : ∀ p ∈ some (BaseOperand.register .integer (29 + t.numTempIntRegister)),
        ∃ value, p = .register .integer value := by
      intro p hp
      cases hp
      exact ⟨_, rfl⟩
    obtain rfl := getMemoryOperand_machine hbase hindex hm.offset hoperand
    exact ⟨_, .scaled hm hscaleOf rfl, rfl⟩

theorem simplifyMemoryLocation_translated (hx86 : ¬ "temp".toList <:+: s)
    (h : simplifyMemoryLocation s t = .ok (o, t')) :
    ∃ microOps, Translated t.numTempIntRegister (location s) o microOps t'.numTempIntRegister ∧
      t'.instructionList = t.instructionList ++ microOps := by
  obtain ⟨m, hm, h⟩ := bind_eq_ok.mp h
  have hlocation : location s = some (.location m) := by
    rw [location, hm]
    rfl
  rw [hlocation]
  exact memoryLocation_translated (memoryTokens_plain hx86 hm) h

theorem simplifyOperand_translated {operandStr : Option Text} (hx86 : IsX86 operandStr)
    (h : simplifyOperand operandStr t = .ok (o, t')) :
    ∃ microOps, Translated t.numTempIntRegister (operandStr.bind sourceOperand) o microOps
      t'.numTempIntRegister ∧ t'.instructionList = t.instructionList ++ microOps := by
  cases operandStr with
  | none =>
    cases h
    exact ⟨[], .null, (List.append_nil _).symm⟩
  | some text =>
    have hname := hx86 text rfl
    have himmediate : ∀ value, BaseOperand.immediate = .register .integer value → value < 29 := by
      intro value heq
      cases heq
    simp only [simplifyOperand] at h
    simp only [Option.bind_some, sourceOperand]
    split at h
    case isTrue hnumber =>
      cases h
      rw [if_pos hnumber]
      exact ⟨[], .base himmediate, (List.append_nil _).symm⟩
    case isFalse hnumber =>
      rw [if_neg hnumber]
      cases hinteger : integerRegister? (normalize text) with
      | some value =>
        rw [hinteger] at h
        obtain ⟨register, hregister, h⟩ := bind_eq_ok.mp h
        obtain ⟨-, rfl⟩ := getIntegerRegister_spec hregister
        cases h
        refine ⟨[], .base ?_, (List.append_nil _).symm⟩
        intro value' heq
        cases heq
        exact lt_of_integerRegister? hinteger hname
      | none =>
        rw [hinteger] at h
        cases hfloat : floatRegister? (normalize text) with
        | some value =>
          rw [hfloat] at h
          cases h
          refine ⟨[], .base ?_, (List.append_nil _).symm⟩
          intro value' heq
          cases heq
        | none =>
          rw [hfloat] at h
          simp only at h ⊢
          split at h
          case isTrue hmemory =>
            obtain ⟨memLocation, hbracketed, h⟩ := bind_eq_ok.mp h
            rw [if_pos hmemory, hbracketed]
            exact simplifyMemoryLocation_translated
              (not_within_of_within hname (bracketed_within hbracketed)) h
          case isFalse hmemory =>
            rw [if_neg hmemory]
            split at h
            case isTrue href =>
              cases h
              rw [if_pos href]
              exact ⟨[], .base himmediate, (List.append_nil _).symm⟩
            case isFalse href =>
              rw [if_neg href]
              split at h
              case isFalse => cases h
              case isTrue hwordPtr =>
                rw [if_pos hwordPtr]
                split at h
                case isTrue hptr =>
                  rw [if_pos hptr]
                  have hsuffix :
                      ((normalize text).dropWhile (· ≠ ':')).drop 1 <:+: normalize text :=
                    ((List.drop_suffix _ _).trans (List.dropWhile_suffix _)).isInfix
                  exact simplifyMemoryLocation_translated (not_within_of_within hname hsuffix) h
                case isFalse hptr =>
                  rw [if_neg hptr]
                  obtain ⟨operand, hoperand, h⟩ := bind_eq_ok.mp h
                  cases hoperand
                  cases h
                  refine ⟨[], .plain ⟨by simp, by simp, ?_, by simp⟩ rfl rfl,
                    (List.append_nil _).symm⟩
                  intro part hpart
                  exact (Option.some.inj hpart).symm

end Texts

/-! ## What the handler may rely on -/

/-- The integer registers of an operand are the machine's and the temporaries from `lo`
to `hi`. -/
def Within (lo hi : ℕ) (operand : Operand) : Prop :=
  ∀ value, (RegisterType.integer, value) ∈ operand.registers →
    value < 29 ∨ 29 + lo ≤ value ∧ value < 29 + hi

/-- An operand that is a register is one of the machine. -/
def OfMachine : Operand → Prop
  | .base operand => ∀ value, operand = .register .integer value → value < 29
  | .memory _ _ => True

section Meaning

variable {V : Type} {I : Interpretation V} {s s' : MicroMachine V} {n n' : ℕ}
  {p : Option SourceOperand} {o : Option Operand} {microOps : List Instruction}

theorem Translated.le (h : Translated n p o microOps n') : n ≤ n' := by
  cases h with
  | null => exact Nat.le_refl _
  | base => exact Nat.le_refl _
  | plain => exact Nat.le_refl _
  | scaled => exact Nat.le_succ _

theorem Translated.ofMachine (h : Translated n p o microOps n') :
    ∀ operand ∈ o, OfMachine operand := by
  intro operand hmem
  cases h with
  | null => cases hmem
  | base h =>
    cases hmem
    exact h
  | plain =>
    cases hmem
    trivial
  | scaled =>
    cases hmem
    trivial

/-- A register of an address is one of the parts that the address is made of. -/
theorem mem_registers_addressing {base index offset first second : Option BaseOperand}
    (haddress : addressing base index offset = (first, second))
    (hoffset : ∀ part ∈ offset, part = .immediate) {r : RegisterType × ℕ}
    (hmem : r ∈ (Operand.memory first second).registers) :
    r ∈ base.bind BaseOperand.register? ∨ r ∈ index.bind BaseOperand.register? := by
  have hno : ∀ part : Option BaseOperand, (∀ p ∈ part, p = .immediate) →
      part.bind BaseOperand.register? = none := by
    intro part hpart
    cases part with
    | none => rfl
    | some p =>
      obtain rfl := hpart p rfl
      rfl
  simp only [Operand.registers, List.mem_append, Option.mem_toList] at hmem
  cases base with
  | none =>
    cases index with
    | none =>
      cases haddress
      obtain hmem | hmem := hmem
      · rw [hno offset hoffset] at hmem
        cases hmem
      · cases hmem
    | some index =>
      cases haddress
      obtain hmem | hmem := hmem
      · exact Or.inr hmem
      · rw [hno offset hoffset] at hmem
        cases hmem
  | some base =>
    cases index with
    | none =>
      cases haddress
      obtain hmem | hmem := hmem
      · exact Or.inl hmem
      · rw [hno offset hoffset] at hmem
        cases hmem
    | some index =>
      cases haddress
      exact hmem

/-- The registers of the translated operand are those of the text, and the temporary of a
scaled index. -/
theorem Translated.registers (h : Translated n p o microOps n') {operand : Operand}
    (hmem : operand ∈ o) {r : RegisterType × ℕ} (hr : r ∈ operand.registers) :
    ∃ source ∈ p, r ∈ source.registers ∨ source.Scaled ∧ r = (.integer, 29 + n) ∧ n' = n + 1 := by
  cases h with
  | null => cases hmem
  | base =>
    cases hmem
    exact ⟨_, rfl, Or.inl hr⟩
  | plain hm hscale haddress =>
    cases hmem
    refine ⟨_, rfl, Or.inl ?_⟩
    obtain h | h := mem_registers_addressing haddress hm.offset hr
    · exact List.mem_append_left _ (Option.mem_toList.mpr h)
    · exact List.mem_append_right _ (Option.mem_toList.mpr h)
  | @scaled m scale first second hm hscale haddress =>
    cases hmem
    refine ⟨_, rfl, ?_⟩
    obtain h | h := mem_registers_addressing haddress hm.offset hr
    · exact Or.inl (List.mem_append_left _ (Option.mem_toList.mpr h))
    · refine Or.inr ⟨?_, (Option.some.inj h).symm, rfl⟩
      change m.scale.isSome = true
      rw [hscale]
      rfl

/-- The registers of the text are the machine's. -/
theorem Translated.source_lt (h : Translated n p o microOps n') {source : SourceOperand}
    (hmem : source ∈ p) {value : ℕ} (hvalue : (RegisterType.integer, value) ∈ source.registers) :
    value < 29 := by
  have hpart : ∀ part : Option BaseOperand, (∀ q ∈ part, MachineRegister q) →
      (RegisterType.integer, value) ∈ part.bind BaseOperand.register? → value < 29 := by
    intro part hmachine hregister
    obtain ⟨q, hq, hregister⟩ := Option.bind_eq_some_iff.mp hregister
    obtain ⟨value', hlt, rfl⟩ := hmachine q hq
    cases hregister
    exact hlt
  have hlocation : ∀ {m : MemoryTokens}, PlainTokens m →
      (RegisterType.integer, value) ∈ (SourceOperand.location m).registers → value < 29 := by
    intro m hm hregister
    obtain h | h := List.mem_append.mp hregister
    · exact hpart m.base hm.base (Option.mem_toList.mp h)
    · exact hpart m.index hm.index (Option.mem_toList.mp h)
  cases h with
  | null => cases hmem
  | @base operand h =>
    cases hmem
    cases operand with
    | register type number =>
      have heq : (RegisterType.integer, value) = (type, number) :=
        List.mem_singleton.mp hvalue
      cases heq
      exact h value rfl
    | immediate => cases hvalue
    | inValid => cases hvalue
  | plain hm =>
    cases hmem
    exact hlocation hm hvalue
  | scaled hm =>
    cases hmem
    exact hlocation hm hvalue

theorem Translated.within (h : Translated n p o microOps n') :
    ∀ operand ∈ o, Within n n' operand := by
  intro operand hmem value hvalue
  obtain ⟨source, hsource, hregister | ⟨-, heq, rfl⟩⟩ := h.registers hmem hvalue
  · exact Or.inl (h.source_lt hsource hregister)
  · cases heq
    exact Or.inr ⟨Nat.le_refl _, Nat.lt_succ_self _⟩

/-- Without a scaled index there is no temporary in the operand. -/
theorem Translated.noTemporary (h : Translated n p o microOps n')
    (hplain : ∀ source ∈ p, ¬ source.Scaled) : ∀ operand ∈ o, NoTemporary operand := by
  intro operand hmem value hvalue
  obtain ⟨source, hsource, hregister | ⟨hscaled, -⟩⟩ := h.registers hmem hvalue
  · exact h.source_lt hsource hregister
  · exact absurd hscaled (hplain source hsource)

/-- The registers of the machine in an operand stand in its text. -/
theorem Translated.register_source (h : Translated n p o microOps n') {operand : Operand}
    (hmem : operand ∈ o) {r : RegisterType × ℕ} (hr : r ∈ operand.registers)
    (hmachine : ¬ IsTemporaryRegister r) : ∃ source ∈ p, r ∈ source.registers := by
  obtain ⟨source, hsource, hregister | ⟨-, rfl, -⟩⟩ := h.registers hmem hr
  · exact ⟨source, hsource, hregister⟩
  · exact absurd ⟨rfl, Nat.le_add_right _ _⟩ hmachine

/-! ## The place of a translated operand -/

theorem address_addressing {base index offset first second : Option BaseOperand}
    (haddress : addressing base index offset = (first, second)) (f : BaseOperand → V) :
    I.address (first.map f) (second.map f) =
      effectiveAddress I (base.map f) (index.map f) (offset.map f) := by
  cases base <;> cases index <;> cases haddress <;> rfl

theorem baseValue_machine {part : BaseOperand} (h : PlainPart part) :
    s.baseValue I part = baseValue I s.machine part := by
  obtain ⟨value, hlt, rfl⟩ | rfl := h
  · refine MicroMachine.read_visible ?_
    intro htemp
    exact absurd htemp.2 (Nat.not_le.mpr hlt)
  · rfl

theorem map_baseValue {part : Option BaseOperand} (h : ∀ q ∈ part, PlainPart q) :
    part.map (s.baseValue I) = part.map (baseValue I s.machine) := by
  cases part with
  | none => rfl
  | some q => exact congrArg some (baseValue_machine (h q rfl))

variable [DecidableEq V]

/-- The micro-operation of a scaled index sets one temporary, and the operand is where the
text says. -/
theorem Translated.run (h : Translated n p o microOps n') :
    (s.run I microOps).machine = s.machine ∧
      (∀ number, number < 29 + n → (s.run I microOps).temporaries number = s.temporaries number) ∧
        o.map ((s.run I microOps).place I) = p.map (SourceOperand.place I s.machine) := by
  cases h with
  | null => exact ⟨rfl, fun _ _ => rfl, rfl⟩
  | base => exact ⟨rfl, fun _ _ => rfl, rfl⟩
  | @plain m first second hm hscale haddress =>
    refine ⟨rfl, fun _ _ => rfl, congrArg some ?_⟩
    have hbase : ∀ q ∈ m.base, PlainPart q := fun q hq => Or.inl (hm.base q hq)
    have hindex : ∀ q ∈ m.index, PlainPart q := fun q hq => Or.inl (hm.index q hq)
    have hoffset : ∀ q ∈ m.offset, PlainPart q := fun q hq => Or.inr (hm.offset q hq)
    have hplace : s.place I (.memory first second) = .cell (effectiveAddress I
        (m.base.map (s.baseValue I)) (m.index.map (s.baseValue I))
          (m.offset.map (s.baseValue I))) :=
      congrArg Place.cell (address_addressing haddress (s.baseValue I))
    rw [MicroMachine.run_nil, hplace, map_baseValue hbase, map_baseValue hindex,
      map_baseValue hoffset, SourceOperand.place, indexValue, hscale]
  | @scaled m scale first second hm hscale haddress =>
    have hbase : ∀ q ∈ m.base, PlainPart q := fun q hq => Or.inl (hm.base q hq)
    have hindex : ∀ q ∈ m.index, PlainPart q := fun q hq => Or.inl (hm.index q hq)
    have hoffset : ∀ q ∈ m.offset, PlainPart q := fun q hq => Or.inr (hm.offset q hq)
    have hscaleValue := baseValue_machine (s := s) (I := I)
      (Or.inr (hm.scale scale hscale) : PlainPart scale)
    have hparts : ∀ part : Option BaseOperand, (part.map Operand.base).map (s.value I) =
        part.map (s.baseValue I) := by
      intro part
      cases part <;> rfl
    -- the temporary gets the index times the scale
    have hrun : s.run I [getIntALUInstruction (m.index.map .base) (some (.base scale))
        (some (integerRegister (29 + n)))] = s.setTemporary (29 + n)
          (I.compute .integerALU (m.index.map (baseValue I s.machine))
            (some (baseValue I s.machine scale))) := by
      change s.write (.register (.integer, 29 + n)) (I.compute .integerALU
        ((m.index.map Operand.base).map (s.value I)) (some (s.baseValue I scale))) = _
      rw [MicroMachine.write_temporary (Nat.le_add_right _ _), hparts, map_baseValue hindex,
        hscaleValue]
    rw [hrun]
    refine ⟨rfl, ?_, congrArg some ?_⟩
    · intro number hlt
      exact Function.update_of_ne (Nat.ne_of_lt hlt) _ _
    · have htemporary : (some (BaseOperand.register .integer (29 + n))).map
          ((s.setTemporary (29 + n) (I.compute .integerALU (m.index.map (baseValue I s.machine))
            (some (baseValue I s.machine scale)))).baseValue I) = indexValue I s.machine m := by
        rw [indexValue, hscale]
        refine congrArg some ?_
        refine (MicroMachine.read_temporary (Nat.le_add_right _ _)).trans ?_
        exact Function.update_self _ _ _
      refine congrArg Place.cell ?_
      rw [address_addressing haddress, htemporary, map_baseValue hbase, map_baseValue hoffset]
      rfl

/-- The place stays where it is while later operands are translated. -/
theorem Translated.place_later {p' : Option SourceOperand} {o' : Option Operand} {lo : ℕ}
    (h : Translated n p' o' microOps n') (hwithin : ∀ operand ∈ o, Within lo n operand) :
    o.map ((s.run I microOps).place I) = o.map (s.place I) := by
  obtain ⟨hmachine, htemporaries, -⟩ := h.run (I := I) (s := s)
  cases o with
  | none => rfl
  | some operand =>
    refine congrArg some (MicroMachine.place_congr ?_)
    intro r hr
    refine MicroMachine.read_register_congr hmachine ?_
    intro htemp
    obtain ⟨type, number⟩ := r
    obtain ⟨rfl, hle⟩ : type = .integer ∧ 29 ≤ number := htemp
    refine htemporaries number ?_
    obtain hlt | ⟨-, hlt⟩ := hwithin operand rfl number hr
    · exact absurd hle (Nat.not_le.mpr hlt)
    · exact hlt

end Meaning

end X86

end Tejas
