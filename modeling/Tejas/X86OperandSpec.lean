import Mathlib.Tactic.Common
import Tejas.X86Handlers

/-!
# What the translation of an operand does

An x86 text names no temporary registers. Its operand then contains a temporary only where
a scaled index was computed into one.
-/

namespace Tejas

namespace X86

open Registers OperandTranslator

/-- The text names none of the temporaries, which are no registers of the machine. -/
def IsX86 (operandStr : Option Text) : Prop :=
  ∀ s, operandStr = some s → ¬ "temp".toList <:+: normalize s

/-- The text is a memory location `[...]` with a scale other than 0 and 1. -/
def Scaled (operandStr : Option Text) : Prop :=
  ∃ s memLocation m, operandStr = some s ∧ isMemLocation (normalize s) = true ∧
    bracketed (normalize s) = .ok memLocation ∧ memoryTokens memLocation = .ok m ∧
    m.scale.isSome = true

/-! ## Texts -/

section Texts

variable {s token : Text} {value : ℕ}

theorem mem_of_lookup {table : List (String × ℕ)} {key : String}
    (h : table.lookup key = some value) : (key, value) ∈ table := by
  induction table with
  | nil => cases h
  | cons entry rest ih =>
    obtain ⟨key', value'⟩ := entry
    rw [List.lookup_cons] at h
    split at h
    case h_1 heq =>
      cases h
      rw [eq_of_beq heq]
      exact List.mem_cons_self
    case h_2 => exact List.mem_cons_of_mem _ (ih h)

/-- Only the names of the temporaries have their numbers. -/
theorem temp_of_table : ∀ entry ∈ integerRegistersHashTable,
    entry.2 < 29 ∨ "temp".toList <:+: entry.1.toList := by
  decide +kernel

theorem lt_of_integerRegister? (h : integerRegister? token = some value)
    (hx86 : ¬ "temp".toList <:+: token) : value < 29 := by
  obtain hlt | hwithin := temp_of_table _ (mem_of_lookup h)
  · exact hlt
  · have htoken : "temp".toList <:+: (String.ofList token).toList := hwithin
    rw [@String.toList_ofList token] at htoken
    exact absurd htoken hx86

theorem not_within_of_within {s t u : Text} (h : ¬ s <:+: t) (hu : u <:+: t) : ¬ s <:+: u :=
  fun hs => h (hs.trans hu)

theorem splitOnP_within (p : Char → Bool) (s : Text) :
    (∀ token ∈ s.splitOnP p, token <:+: s) ∧ ∀ first ∈ (s.splitOnP p).head?, first <+: s := by
  induction s with
  | nil => simp
  | cons c rest ih =>
    obtain ⟨hwithin, hprefix⟩ := ih
    rw [List.splitOnP_cons_eq_if_modifyHead]
    split
    case isTrue =>
      refine ⟨?_, by simp⟩
      intro token htoken
      obtain rfl | htoken := List.mem_cons.mp htoken
      · exact List.nil_infix
      · exact List.infix_cons (hwithin token htoken)
    case isFalse =>
      cases hparts : rest.splitOnP p with
      | nil => simp
      | cons first others =>
        rw [hparts] at hwithin hprefix
        have hfirst : c :: first <+: c :: rest :=
          List.cons_prefix_cons.mpr ⟨rfl, hprefix first rfl⟩
        refine ⟨?_, by simpa using hfirst⟩
        intro token htoken
        obtain rfl | htoken := List.mem_cons.mp htoken
        · exact hfirst.isInfix
        · exact List.infix_cons (hwithin token (List.mem_cons_of_mem _ htoken))

theorem splitTokens_within (h : token ∈ splitTokens s) : token <:+: s := by
  rw [splitTokens] at h
  split at h
  case isTrue => exact (splitOnP_within _ s).1 token h
  case isFalse => exact (splitOnP_within _ s).1 token ((List.rdropWhile_prefix _ _).subset h)

theorem indexScale?_within {indexStr scaleStr : Text}
    (h : indexScale? s = some (indexStr, scaleStr)) : indexStr <:+: s := by
  rw [indexScale?] at h
  split at h
  case h_1 =>
    split at h
    case isTrue =>
      cases h
      exact (List.takeWhile_prefix _).isInfix
    case isFalse => cases h
  case h_2 => cases h

theorem bracketed_within {memLocation : Text} (h : bracketed s = .ok memLocation) :
    memLocation <:+: s := by
  rw [bracketed] at h
  split at h
  case isTrue =>
    cases h
    exact (List.drop_suffix _ _).isInfix.trans (List.take_prefix _ _).isInfix
  case isFalse => cases h

/-- A memory location is neither a number nor a register. -/
theorem bracket_of_isMemLocation (h : isMemLocation s = true) : '[' ∈ s := by
  have hrest : ']' ∈ s.dropWhile (· ≠ '[') := by
    have := (Bool.and_eq_true _ _ ▸ h : _ ∧ _).2
    simpa using this
  by_contra hno
  have hnil : s.dropWhile (· ≠ '[') = [] := by
    rw [List.dropWhile_eq_nil_iff]
    intro c hc
    exact decide_eq_true (fun heq => hno (heq ▸ hc))
  rw [hnil] at hrest
  exact absurd hrest List.not_mem_nil

theorem not_bracket_of_isValidNumber (h : Numbers.isValidNumber s = true) : '[' ∉ s := by
  intro hmem
  have hall := (Bool.and_eq_true _ _ ▸ h : _ ∧ _).2
  exact absurd (List.all_eq_true.mp hall '[' hmem) (by decide)

theorem not_bracket_of_table : ∀ entry ∈ integerRegistersHashTable ++ floatRegistersHashTable,
    '[' ∉ entry.1.toList := by
  decide +kernel

theorem not_bracket_of_integerRegister? (h : integerRegister? s = some value) : '[' ∉ s := by
  have hname : '[' ∉ (String.ofList s).toList :=
    not_bracket_of_table _ (List.mem_append_left _ (mem_of_lookup h))
  rwa [@String.toList_ofList s] at hname

theorem not_bracket_of_floatRegister? (h : floatRegister? s = some value) : '[' ∉ s := by
  have hname : '[' ∉ (String.ofList s).toList :=
    not_bracket_of_table _ (List.mem_append_right _ (mem_of_lookup h))
  rwa [@String.toList_ofList s] at hname

end Texts

/-! ## Operands -/

/-- Both parts of a computation that ends normally end normally. -/
theorem bind_eq_ok {α β : Type} {x : Except Failure α} {f : α → Except Failure β} {result : β} :
    x >>= f = .ok result ↔ ∃ a, x = .ok a ∧ f a = .ok result := by
  constructor
  · intro h
    cases x with
    | error e => cases h
    | ok a => exact ⟨a, rfl, h⟩
  · intro h
    obtain ⟨a, rfl, h⟩ := h
    exact h

section Operands

variable {t t' : Translation} {m m' : MemoryTokens} {token s : Text} {o : Option Operand}
  {register : BaseOperand} {value : ℕ}

theorem getIntegerRegister_spec (h : getIntegerRegister value = .ok register) :
    value < 36 ∧ register = .register .integer value := by
  rw [getIntegerRegister] at h
  split at h
  case isTrue hlt =>
    cases h
    exact ⟨hlt, rfl⟩
  case isFalse => cases h

theorem getTempIntReg_spec (h : getTempIntReg t = .ok (register, t')) :
    t.numTempIntRegister < 7 ∧ register = .register .integer (29 + t.numTempIntRegister) ∧
      t' = { t with numTempIntRegister := t.numTempIntRegister + 1 } := by
  rw [getTempIntReg] at h
  split at h
  case h_1 number hnumber =>
    rw [temporary] at hnumber
    split at hnumber
    case isTrue hlt =>
      cases hnumber
      obtain ⟨r, hregister, h⟩ := bind_eq_ok.mp h
      cases h
      obtain ⟨hbound, rfl⟩ := getIntegerRegister_spec hregister
      exact ⟨by omega, rfl, rfl⟩
    case isFalse => cases hnumber
  case h_2 => cases h

/-- A part of an address that is a register of the machine. -/
def MachineRegister (part : BaseOperand) : Prop :=
  ∃ value < 29, part = .register .integer value

/-- The parts of the location name no temporaries. -/
structure PlainTokens (m : MemoryTokens) : Prop where
  base : ∀ part ∈ m.base, MachineRegister part
  index : ∀ part ∈ m.index, MachineRegister part
  offset : ∀ part ∈ m.offset, part = .immediate
  scale : ∀ part ∈ m.scale, part = .immediate

theorem machineRegister_of_name (hlookup : integerRegister? token = some value)
    (hx86 : ¬ "temp".toList <:+: token) (hregister : getIntegerRegister value = .ok register) :
    ∀ part ∈ some register, MachineRegister part := by
  intro part hpart
  cases hpart
  exact ⟨value, lt_of_integerRegister? hlookup hx86, (getIntegerRegister_spec hregister).2⟩

theorem addToken_plain (hm : PlainTokens m) (hx86 : ¬ "temp".toList <:+: token)
    (h : addToken m token = .ok m') : PlainTokens m' := by
  have himmediate : ∀ part ∈ some BaseOperand.immediate, part = .immediate := by
    intro part hpart
    exact (Option.some.inj hpart).symm
  rw [addToken] at h
  split at h
  case h_1 value hlookup =>
    obtain ⟨register, hregister, h⟩ := bind_eq_ok.mp h
    have hmachine := machineRegister_of_name hlookup hx86 hregister
    split at h
    case isTrue =>
      cases h
      exact ⟨hmachine, hm.index, hm.offset, hm.scale⟩
    case isFalse =>
      cases h
      exact ⟨hm.base, hmachine, hm.offset, hm.scale⟩
  case h_2 =>
    split at h
    case isTrue =>
      split at h
      case isTrue =>
        cases h
        exact hm
      case isFalse =>
        cases h
        exact ⟨hm.base, hm.index, himmediate, hm.scale⟩
    case isFalse =>
      split at h
      case h_2 => cases h
      case h_1 indexStr scaleStr hsplit =>
        split at h
        case isTrue =>
          cases h
          exact hm
        case isFalse =>
          split at h
          case h_2 => cases h
          case h_1 value hlookup =>
            obtain ⟨register, hregister, h⟩ := bind_eq_ok.mp h
            have hmachine := machineRegister_of_name hlookup
              (not_within_of_within hx86 (indexScale?_within hsplit)) hregister
            split at h
            case isTrue =>
              cases h
              exact ⟨hm.base, fun _ hpart => absurd hpart (by simp), hm.offset, hm.scale⟩
            case isFalse =>
              split at h
              case isTrue =>
                cases h
                exact ⟨hm.base, hmachine, hm.offset, himmediate⟩
              case isFalse =>
                cases h
                exact ⟨hm.base, hmachine, hm.offset, hm.scale⟩

theorem foldlM_addToken_plain {tokens : List Text} (hm : PlainTokens m)
    (hx86 : ∀ token ∈ tokens, ¬ "temp".toList <:+: token)
    (h : tokens.foldlM addToken m = .ok m') : PlainTokens m' := by
  induction tokens generalizing m with
  | nil =>
    cases h
    exact hm
  | cons token rest ih =>
    rw [List.foldlM_cons] at h
    obtain ⟨m₁, htoken, hrest⟩ := bind_eq_ok.mp h
    exact ih (addToken_plain hm (hx86 token List.mem_cons_self) htoken)
      (fun token hmem => hx86 token (List.mem_cons_of_mem _ hmem)) hrest

theorem memoryTokens_plain (hx86 : ¬ "temp".toList <:+: s) (h : memoryTokens s = .ok m) :
    PlainTokens m := by
  rw [memoryTokens] at h
  split at h
  case isTrue =>
    refine foldlM_addToken_plain ?_ ?_ h
    · exact ⟨by simp, by simp, by simp, by simp⟩
    · intro token htoken
      exact not_within_of_within hx86 (splitTokens_within htoken)
  case isFalse => cases h

/-- No integer register of the operand is a temporary. -/
def NoTemporary (operand : Operand) : Prop :=
  ∀ value, (RegisterType.integer, value) ∈ operand.registers → value < 29

/-- What the translation of an operand does: nothing, or it computes a scaled index
into a temporary of the address. -/
inductive Simplified (t : Translation) : Bool → Option Operand → Translation → Prop
  | plain {o : Option Operand} (h : ∀ operand ∈ o, NoTemporary operand) : Simplified t false o t
  | scaled {first second : Option BaseOperand} {source source' : Option Operand}
      (hlt : t.numTempIntRegister < 7)
      (htemp : getTemporaryMemoryRegister first second =
        some (.register .integer (29 + t.numTempIntRegister)))
      (hregisters : ∀ value, (RegisterType.integer, value) ∈
        (Operand.memory first second).registers → value < 29 ∨ value = 29 + t.numTempIntRegister) :
      Simplified t true (some (.memory first second))
        ⟨t.instructionList ++ [getIntALUInstruction source source'
          (some (.base (.register .integer (29 + t.numTempIntRegister))))],
          t.numTempIntRegister + 1⟩

theorem mem_registers_memory {first second : Option BaseOperand} :
    (RegisterType.integer, value) ∈ (Operand.memory first second).registers ↔
      first = some (.register .integer value) ∨ second = some (.register .integer value) := by
  have hpart : ∀ part : Option BaseOperand,
      (RegisterType.integer, value) ∈ (part.bind BaseOperand.register?).toList ↔
        part = some (.register .integer value) := by
    intro part
    match part with
    | none => simp
    | some (.register type value') => simp [BaseOperand.register?, eq_comm]
    | some .immediate => simp [BaseOperand.register?]
    | some .inValid => simp [BaseOperand.register?]
  rw [Operand.registers, List.mem_append, hpart, hpart]

theorem getMemoryOperand_spec {first second : Option BaseOperand}
    (h : getMemoryOperand first second = .ok o) : o = none ∨ o = some (.memory first second) := by
  rw [getMemoryOperand.eq_def] at h
  split at h
  all_goals first
    | cases h; exact Or.inr rfl
    | cases h; exact Or.inl rfl
    | cases h

/-- A register of the machine or a displacement. -/
def PlainPart (part : BaseOperand) : Prop := MachineRegister part ∨ part = .immediate

theorem noTemporary_memory {first second : Option BaseOperand}
    (hfirst : ∀ part ∈ first, PlainPart part) (hsecond : ∀ part ∈ second, PlainPart part) :
    NoTemporary (.memory first second) := by
  have hpart : ∀ value, ∀ part : Option BaseOperand, (∀ p ∈ part, PlainPart p) →
      part = some (.register .integer value) → value < 29 := by
    intro value part hparts heq
    obtain ⟨value', hlt, heq'⟩ | himm := hparts _ heq
    · cases heq'
      exact hlt
    · cases himm
  intro value hmem
  obtain h | h := mem_registers_memory.mp hmem
  · exact hpart value first hfirst h
  · exact hpart value second hsecond h

theorem isTempIntRegister_eq_false {part : Option BaseOperand} (h : ∀ p ∈ part, PlainPart p) :
    isTempIntRegister part = false := by
  cases part with
  | none => rfl
  | some p =>
    obtain ⟨value, hlt, rfl⟩ | rfl := h p rfl
    · have : ¬ 29 ≤ value := by omega
      simp [isTempIntRegister, this]
    · rfl

theorem isTempIntRegister_temporary (h : t.numTempIntRegister < 7) :
    isTempIntRegister (some (.register .integer (29 + t.numTempIntRegister))) = true := by
  simp only [isTempIntRegister, Bool.and_eq_true, decide_eq_true_eq]
  omega

theorem addressing_plain {base scaledIndex offset : Option BaseOperand}
    (hbase : ∀ part ∈ base, MachineRegister part)
    (hindex : ∀ part ∈ scaledIndex, MachineRegister part)
    (hoffset : ∀ part ∈ offset, part = .immediate) :
    (∀ part ∈ (addressing base scaledIndex offset).1, PlainPart part) ∧
      ∀ part ∈ (addressing base scaledIndex offset).2, PlainPart part := by
  have hoffset' : ∀ part ∈ offset, PlainPart part := fun part h => Or.inr (hoffset part h)
  cases base with
  | none =>
    cases scaledIndex with
    | none => exact ⟨hoffset', by simp [addressing]⟩
    | some register => exact ⟨fun part h => Or.inl (hindex part h), hoffset'⟩
  | some base =>
    cases scaledIndex with
    | none => exact ⟨fun part h => Or.inl (hbase part h), hoffset'⟩
    | some register =>
      exact ⟨fun part h => Or.inl (hbase part h), fun part h => Or.inl (hindex part h)⟩

theorem memoryLocation_spec (hm : PlainTokens m) (h : memoryLocation m t = .ok (o, t')) :
    Simplified t m.scale.isSome o t' := by
  obtain ⟨⟨scaledIndex, t₁⟩, hscale, h⟩ := bind_eq_ok.mp h
  obtain ⟨operand, hoperand, h⟩ := bind_eq_ok.mp h
  cases h
  cases hscaleOf : m.scale with
  | none =>
    rw [getScaledIndex, hscaleOf] at hscale
    cases hscale
    obtain ⟨hfirst, hsecond⟩ := addressing_plain hm.base hm.index hm.offset
    refine Simplified.plain ?_
    intro operand hmem
    obtain rfl | rfl := getMemoryOperand_spec hoperand
    · cases hmem
    · cases hmem
      exact noTemporary_memory hfirst hsecond
  | some scale =>
    rw [getScaledIndex, hscaleOf] at hscale
    obtain ⟨⟨register, t₂⟩, htemp, hscale⟩ := bind_eq_ok.mp hscale
    obtain ⟨hlt, rfl, rfl⟩ := getTempIntReg_spec htemp
    cases hscale
    have htemporary := isTempIntRegister_temporary hlt
    cases hbase : m.base with
    | none =>
      rw [hbase] at hoperand
      have hnumber : ∀ value', some (BaseOperand.register .integer (29 + t.numTempIntRegister)) =
          some (.register .integer value') → value' = 29 + t.numTempIntRegister := by
        intro value' h
        cases h
        rfl
      have hfirst : getTemporaryMemoryRegister
          (some (.register .integer (29 + t.numTempIntRegister))) m.offset =
            some (.register .integer (29 + t.numTempIntRegister)) := by
        rw [getTemporaryMemoryRegister, htemporary]
        rfl
      cases hoffset : m.offset with
      | none =>
        rw [hoffset] at hoperand hfirst
        cases hoperand
        refine Simplified.scaled hlt hfirst ?_
        intro value' hmem
        obtain h | h := mem_registers_memory.mp hmem
        · exact Or.inr (hnumber value' h)
        · cases h
      | some offset =>
        obtain rfl := hm.offset offset hoffset
        rw [hoffset] at hoperand hfirst
        cases hoperand
        refine Simplified.scaled hlt hfirst ?_
        intro value' hmem
        obtain h | h := mem_registers_memory.mp hmem
        · exact Or.inr (hnumber value' h)
        · cases h
    | some base =>
      rw [hbase] at hoperand
      obtain ⟨value, hbound, rfl⟩ := hm.base base hbase
      cases hoperand
      refine Simplified.scaled hlt ?_ ?_
      · have hplain : isTempIntRegister (some (.register .integer value)) = false :=
          isTempIntRegister_eq_false (fun p hp => Or.inl ⟨value, hbound, (Option.some.inj hp).symm⟩)
        rw [getTemporaryMemoryRegister, hplain, htemporary]
        rfl
      · intro value' hmem
        obtain h | h := mem_registers_memory.mp hmem
        · cases h
          exact Or.inl hbound
        · cases h
          exact Or.inr rfl

/-- A number leaves the scale as it is. -/
theorem addToken_number (h : addToken m token = .ok m')
    (hnumber : Numbers.isValidNumber token = true) : m'.scale = m.scale := by
  rw [addToken] at h
  split at h
  case h_1 =>
    obtain ⟨register, -, h⟩ := bind_eq_ok.mp h
    split at h <;> cases h <;> rfl
  case h_2 =>
    rw [if_pos hnumber] at h
    split at h <;> cases h <;> rfl

theorem isLowerHex_spec {c : Char} (h : isLowerHex c = true) :
    (c ≠ '+' ∧ c ≠ '-') ∧ (c = 'x' || c = 'X' || ('0' ≤ c && c ≤ '9') || ('a' ≤ c && c ≤ 'f') ||
      ('A' ≤ c && c ≤ 'F')) = true := by
  refine ⟨⟨?_, ?_⟩, ?_⟩
  · intro hc
    rw [hc] at h
    exact absurd h (by decide)
  · intro hc
    rw [hc] at h
    exact absurd h (by decide)
  · simp only [isLowerHex, Bool.or_eq_true] at h
    obtain h | h := h <;> simp [h]

/-- The address behind a segment name is a hexadecimal number. -/
theorem location_of_isWordPtr (h : isWordPtr s = true) :
    ∃ digits : Text, (s.dropWhile (· ≠ ':')).drop 1 = '0' :: 'x' :: digits ∧
      digits.all isLowerHex = true := by
  simp only [isWordPtr, Bool.and_eq_true] at h
  obtain ⟨⟨⟨-, hprefix⟩, -⟩, hdigits⟩ := h
  obtain ⟨digits, hrest⟩ := List.isPrefixOf_iff_prefix.mp hprefix
  rw [← hrest] at hdigits
  refine ⟨digits, ?_, hdigits⟩
  have hletters : ∀ c ∈ s.takeWhile isLetterOrSpace, decide (c ≠ ':') = true := by
    intro c hc
    refine decide_eq_true ?_
    intro heq
    have hletter := List.mem_takeWhile_imp hc
    rw [heq] at hletter
    exact absurd hletter (by decide)
  rw [← List.takeWhile_append_dropWhile (p := isLetterOrSpace) (l := s),
    List.dropWhile_append_of_pos hletters, ← hrest]
  rfl

theorem scale_of_wordPtr (h : isWordPtr s = true)
    (hm : memoryTokens ((s.dropWhile (· ≠ ':')).drop 1) = .ok m) : m.scale.isSome = false := by
  obtain ⟨digits, hlocation, hdigits⟩ := location_of_isWordPtr h
  rw [hlocation] at hm
  have hall := List.all_eq_true.mp hdigits
  have hsingle : splitTokens ('0' :: 'x' :: digits) = ['0' :: 'x' :: digits] := by
    have hsplit : ('0' :: 'x' :: digits).splitOnP (fun c => c = '+' || c = '-') =
        ['0' :: 'x' :: digits] := by
      refine List.splitOnP_eq_singleton ?_
      intro c hc
      obtain rfl | hc := List.mem_cons.mp hc
      · decide
      · obtain rfl | hc := List.mem_cons.mp hc
        · decide
        · obtain ⟨⟨hplus, hminus⟩, -⟩ := isLowerHex_spec (hall c hc)
          simp [hplus, hminus]
    rw [splitTokens, hsplit]
    rfl
  have hnumber : Numbers.isValidNumber ('0' :: 'x' :: digits) = true := by
    simp only [Numbers.isValidNumber, List.all_cons, Bool.and_eq_true]
    refine ⟨by simp, by decide, by decide, ?_⟩
    rw [List.all_eq_true]
    exact fun c hc => (isLowerHex_spec (hall c hc)).2
  rw [memoryTokens, hsingle] at hm
  obtain ⟨m₁, htoken, hend⟩ := bind_eq_ok.mp hm
  cases hend
  rw [addToken_number htoken hnumber]
  rfl

theorem noTemporary_base {operand : BaseOperand}
    (h : ∀ value, operand = .register .integer value → value < 29) :
    NoTemporary (.base operand) := by
  intro value hmem
  match operand with
  | .register .integer value' =>
    have heq : value = value' := by simpa [Operand.registers, BaseOperand.register?] using hmem
    exact heq ▸ h value' rfl
  | .register .float value' => simp [Operand.registers, BaseOperand.register?] at hmem
  | .immediate => simp [Operand.registers, BaseOperand.register?] at hmem
  | .inValid => simp [Operand.registers, BaseOperand.register?] at hmem

theorem simplifyOperand_spec {operandStr : Option Text} (hx86 : IsX86 operandStr)
    (h : simplifyOperand operandStr t = .ok (o, t')) :
    ∃ scaled, Simplified t scaled o t' ∧ (scaled = true ↔ Scaled operandStr) := by
  have hplain : ∀ {o : Option Operand}, (∀ operand ∈ o, NoTemporary operand) →
      ¬ Scaled operandStr →
        ∃ scaled, Simplified t scaled o t ∧ (scaled = true ↔ Scaled operandStr) :=
    fun ho hno => ⟨false, .plain ho, ⟨fun h => absurd h (by decide), fun h => absurd h hno⟩⟩
  cases operandStr with
  | none =>
    cases h
    refine hplain (by simp) ?_
    intro hscaled
    obtain ⟨s, -, -, hs, -⟩ := hscaled
    cases hs
  | some s =>
    have hname := hx86 s rfl
    have hnot : isMemLocation (normalize s) = false → ¬ Scaled (some s) := by
      intro hno hscaled
      obtain ⟨s', -, -, hs, hmem, -⟩ := hscaled
      cases hs
      rw [hno] at hmem
      cases hmem
    have hbracket : '[' ∉ normalize s → isMemLocation (normalize s) = false := by
      intro hno
      rw [Bool.eq_false_iff]
      exact fun hmem => hno (bracket_of_isMemLocation hmem)
    have himmediate : ∀ operand ∈ some (Operand.base .immediate), NoTemporary operand := by
      intro operand hmem
      cases hmem
      exact noTemporary_base (fun value h => by cases h)
    have hlocation : ∀ {memLocation}, ¬ "temp".toList <:+: memLocation →
        simplifyMemoryLocation memLocation t = .ok (o, t') →
          ∃ m, memoryTokens memLocation = .ok m ∧ Simplified t m.scale.isSome o t' := by
      intro memLocation hname h
      obtain ⟨m, hm, h⟩ := bind_eq_ok.mp h
      exact ⟨m, hm, memoryLocation_spec (memoryTokens_plain hname hm) h⟩
    simp only [simplifyOperand] at h
    split at h
    case isTrue hnumber =>
      cases h
      exact hplain himmediate (hnot (hbracket (not_bracket_of_isValidNumber hnumber)))
    case isFalse =>
      split at h
      case h_1 _ _ value hlookup =>
        obtain ⟨register, hregister, h⟩ := bind_eq_ok.mp h
        obtain ⟨-, rfl⟩ := getIntegerRegister_spec hregister
        cases h
        refine hplain ?_ (hnot (hbracket (not_bracket_of_integerRegister? hlookup)))
        intro operand hmem
        cases hmem
        refine noTemporary_base ?_
        intro value' heq
        cases heq
        exact lt_of_integerRegister? hlookup hname
      case h_2 _ _ value hlookup =>
        cases h
        refine hplain ?_ (hnot (hbracket (not_bracket_of_floatRegister? hlookup)))
        intro operand hmem
        cases hmem
        exact noTemporary_base (fun value h => by cases h)
      case h_3 =>
        split at h
        case isTrue hmemory =>
          obtain ⟨memLocation, hbracketed, h⟩ := bind_eq_ok.mp h
          obtain ⟨m, hm, hsimplified⟩ :=
            hlocation (not_within_of_within hname (bracketed_within hbracketed)) h
          refine ⟨m.scale.isSome, hsimplified, ?_⟩
          constructor
          · intro hscale
            exact ⟨s, memLocation, m, rfl, hmemory, hbracketed, hm, hscale⟩
          · intro hscaled
            obtain ⟨s', memLocation', m', hs, -, hbracketed', hm', hscale⟩ := hscaled
            cases hs
            cases hbracketed.symm.trans hbracketed'
            cases hm.symm.trans hm'
            exact hscale
        case isFalse hmemory =>
          have hno := hnot (Bool.eq_false_iff.mpr hmemory)
          split at h
          case isTrue =>
            cases h
            exact hplain himmediate hno
          case isFalse =>
            split at h
            case isFalse => cases h
            case isTrue hwordPtr =>
              split at h
              case isTrue =>
                have hsuffix : ((normalize s).dropWhile (· ≠ ':')).drop 1 <:+: normalize s :=
                  ((List.drop_suffix _ _).trans (List.dropWhile_suffix _)).isInfix
                obtain ⟨m, hm, hsimplified⟩ := hlocation (not_within_of_within hname hsuffix) h
                have hscale := scale_of_wordPtr hwordPtr hm
                rw [hscale] at hsimplified
                exact ⟨false, hsimplified, ⟨fun h => absurd h (by decide), fun h => absurd h hno⟩⟩
              case isFalse =>
                obtain ⟨operand, hoperand, h⟩ := bind_eq_ok.mp h
                cases hoperand
                cases h
                refine hplain ?_ hno
                intro operand hmem
                cases hmem
                exact noTemporary_memory (fun part h => Or.inr (Option.some.inj h).symm) (by simp)

end Operands

end X86

end Tejas
