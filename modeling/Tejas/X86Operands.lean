import Mathlib.Algebra.Ring.Nat
import Mathlib.Data.List.DropRight
import Mathlib.Data.List.Infix
import Tejas.Instructions

/-!
# Operands of x86 instructions

`Numbers`, `Registers` and `OperandTranslator` of the x86 translator. A text is a list of
characters, and each regular expression is the function that matches it. The
translation of an operand may append a micro-operation that computes a scaled index.
-/

namespace Tejas

namespace X86

abbrev Text := List Char

/-- An exception, which `riscifyInstruction` catches, or `showErrorAndExit`. -/
inductive Failure where
  | exception
  | exit
  deriving DecidableEq, Repr

/-- The state of the translation of one instruction: its micro-operations and
`TempRegisterNum.numTempIntRegister`. -/
structure Translation where
  instructionList : List Instruction
  numTempIntRegister : ℕ
  deriving DecidableEq, Repr

def Translation.appendInstruction (t : Translation) (i : Instruction) : Translation :=
  { t with instructionList := t.instructionList ++ [i] }

/-! ## Numbers -/

namespace Numbers

/-- The value of a hexadecimal digit, with `0` for the `x` of a prefix. -/
def hexDigit (c : Char) : ℕ :=
  if '0' ≤ c ∧ c ≤ '9' then c.toNat - '0'.toNat
  else if 'a' ≤ c ∧ c ≤ 'f' then 10 + (c.toNat - 'a'.toNat)
  else if 'A' ≤ c ∧ c ≤ 'F' then 10 + (c.toNat - 'A'.toNat)
  else 0

/-- `hexToLong`, modulo 2 ^ 64. -/
def hexToLong (hexStr : Text) : ℕ :=
  hexStr.foldl (fun num c => num * 16 + hexDigit c) 0 % 2 ^ 64

/-- `[0xX0-9a-fA-F]+` -/
def isValidNumber (numStr : Text) : Bool :=
  numStr ≠ [] && numStr.all (fun c =>
    c = 'x' || c = 'X' || ('0' ≤ c && c ≤ '9') || ('a' ≤ c && c ≤ 'f') || ('A' ≤ c && c ≤ 'F'))

end Numbers

/-! ## Registers -/

namespace Registers

def integerRegistersHashTable : List (String × ℕ) :=
  [("rax", 0), ("rbx", 1), ("rcx", 2), ("rdx", 3), ("r8", 4), ("r9", 5), ("r10", 6), ("r11", 7),
    ("r12", 8), ("r13", 9), ("r14", 10), ("r15", 11), ("rsi", 12), ("rdi", 13), ("rbp", 14),
    ("rsp", 15), ("riz", 17), ("load_reg", 18), ("store_reg", 19), ("es", 20), ("cs", 21),
    ("ss", 22), ("ds", 23), ("fs", 24), ("gs", 25), ("eflags", 26), ("rip", 27),
    ("FP_CWORD", 28), ("temp0", 29), ("temp1", 30), ("temp2", 31), ("temp3", 32), ("temp4", 33),
    ("temp5", 34), ("temp6", 35), ("temp7", 36)]

def floatRegistersHashTable : List (String × ℕ) :=
  [("st", 0), ("st(0)", 0), ("st0", 0), ("st(1)", 1), ("st1", 1), ("st(2)", 2), ("st2", 2),
    ("st(3)", 3), ("st3", 3), ("st(4)", 4), ("st4", 4), ("st(5)", 5), ("st5", 5), ("st(6)", 6),
    ("st6", 6), ("st(7)", 7), ("st7", 7), ("xmm0", 9), ("xmm1", 10), ("xmm2", 11), ("xmm3", 12),
    ("xmm4", 13), ("xmm5", 14), ("xmm6", 15), ("xmm7", 16), ("xmm8", 17), ("xmm9", 18),
    ("xmm10", 19), ("xmm11", 20), ("xmm12", 21), ("xmm13", 22), ("xmm14", 23), ("xmm15", 24),
    ("tempFloat0", 25), ("tempFloat1", 26), ("tempFloat2", 27), ("tempFloat3", 28)]

def integerRegister? (regStr : Text) : Option ℕ :=
  integerRegistersHashTable.lookup (String.ofList regStr)

def floatRegister? (regStr : Text) : Option ℕ :=
  floatRegistersHashTable.lookup (String.ofList regStr)

/-- `Operand.getIntegerRegister`: the array has a place for each entry of the table, and
the numbers of the registers leave one out. -/
def getIntegerRegister (value : ℕ) : Except Failure BaseOperand :=
  if value < integerRegistersHashTable.length then .ok (.register .integer value)
  else .error .exception

/-- `encodeRegister("temp" + n)` -/
def temporary (n : ℕ) : Option ℕ := if n < 8 then some (29 + n) else none

theorem temporary_eq_lookup : ∀ n < 8,
    integerRegistersHashTable.lookup ("temp" ++ toString n) = temporary n := by
  decide

def getTempIntReg (t : Translation) : Except Failure (BaseOperand × Translation) :=
  match temporary t.numTempIntRegister with
  | some value => do
    let register ← getIntegerRegister value
    return (register, { t with numTempIntRegister := t.numTempIntRegister + 1 })
  | none => .error .exit

/-- `matcher.replaceAll` for a pattern that is a choice between texts. The number counts
the characters of a match that are still to be passed over. -/
def replaceAll (choices : List Text) (replacement : Text) : ℕ → Text → Text
  | _, [] => []
  | skip + 1, _ :: rest => replaceAll choices replacement skip rest
  | 0, c :: rest =>
    match choices.find? (fun choice => choice.isPrefixOf (c :: rest)) with
    | some choice => replacement ++ replaceAll choices replacement (choice.length - 1) rest
    | none => c :: replaceAll choices replacement 0 rest

/-- The patterns of `createMatchers` in the order of `coarsifyRegisters`. -/
def coarseRegisters : List (List String × String) :=
  [(["rax", "eax", "ax", "ah", "al"], "rax"), (["rbx", "ebx", "bx", "bh", "bl"], "rbx"),
    (["rcx", "ecx", "cx", "ch", "cl"], "rcx"), (["rdx", "edx", "dx", "dh", "dl"], "rdx"),
    (["rsi", "esi", "sil", "si"], "rsi"), (["rdi", "edi", "dil", "di"], "rdi"),
    (["rbp", "ebp", "bpl", "bp"], "rbp"), (["rsp", "esp", "spl", "sp"], "rsp"),
    (["r8b", "r8d", "r8w", "r8l"], "r8"), (["r9b", "r9d", "r9w", "r9l"], "r9"),
    (["r10b", "r10d", "r10w", "r10l"], "r10"), (["r11b", "r11d", "r11w", "r11l"], "r11"),
    (["r12b", "r12d", "r12w", "r12l"], "r12"), (["r13b", "r13d", "r13w", "r13l"], "r13"),
    (["r14b", "r14d", "r14w", "r14l"], "r14"), (["r15b", "r15d", "r15w", "r15l"], "r15"),
    (["eiz"], "eiz")]

def coarsifyRegisters (operandStr : Text) : Text :=
  coarseRegisters.foldl
    (fun text entry => replaceAll (entry.1.map String.toList) entry.2.toList 0 text) operandStr

def isTempIntRegister (operand : Option BaseOperand) : Bool :=
  match operand with
  | some (.register .integer value) => 29 ≤ value && value ≤ 36
  | _ => false

/-- A temporary register of the address, if it has one. -/
def getTemporaryMemoryRegister (first second : Option BaseOperand) : Option BaseOperand :=
  if isTempIntRegister first then first
  else if isTempIntRegister second then second
  else none

end Registers

open Registers Numbers

/-! ## Operands -/

namespace OperandTranslator

/-- `String.trim` -/
def trim (s : Text) : Text :=
  (s.dropWhile (fun c => decide (c.toNat ≤ 32))).rdropWhile (fun c => decide (c.toNat ≤ 32))

/-- What `simplifyOperand` does to the text before it looks at its shape. -/
def normalize (operandStr : Text) : Text :=
  coarsifyRegisters (trim
    (replaceAll (["byte", "dword", "qword", "word"].map String.toList) [] 0 operandStr))

/-- The characters that a dot of a regular expression does not match. -/
def isLineTerminator (c : Char) : Bool :=
  c = '\n' || c = '\r' || c.toNat = 0x85 || c.toNat = 0x2028 || c.toNat = 0x2029

/-- `.*\[.*\].*` -/
def isMemLocation (s : Text) : Bool :=
  s.all (fun c => !isLineTerminator c) && (s.dropWhile (· ≠ '[')).contains ']'

/-- `operandStr.substring(operandStr.indexOf("[") + 1, operandStr.indexOf("]"))` -/
def bracketed (s : Text) : Except Failure Text :=
  if s.idxOf '[' + 1 ≤ s.idxOf ']' then
    .ok ((s.take (s.idxOf ']')).drop (s.idxOf '[' + 1))
  else .error .exception

/-- `[0-9a-f]` -/
def isLowerHex (c : Char) : Bool := ('0' ≤ c && c ≤ '9') || ('a' ≤ c && c ≤ 'f')

/-- `[0-9a-f]+ <.*>` -/
def isMemAddressRef (s : Text) : Bool :=
  let rest := s.dropWhile isLowerHex
  s.takeWhile isLowerHex ≠ [] && " <".toList.isPrefixOf rest && 3 ≤ rest.length &&
    rest.getLast? = some '>' && rest.all (fun c => !isLineTerminator c)

/-- `[a-zA-Z ]` -/
def isLetterOrSpace (c : Char) : Bool :=
  ('a' ≤ c && c ≤ 'z') || ('A' ≤ c && c ≤ 'Z') || c = ' '

/-- `[a-zA-Z ]+:0x[0-9a-f]+` -/
def isWordPtr (s : Text) : Bool :=
  let rest := s.dropWhile isLetterOrSpace
  s.takeWhile isLetterOrSpace ≠ [] && ":0x".toList.isPrefixOf rest && 4 ≤ rest.length &&
    (rest.drop 3).all isLowerHex

/-- `[a-zA-Z0-9]` -/
def isLetterOrDigit (c : Char) : Bool :=
  ('a' ≤ c && c ≤ 'z') || ('A' ≤ c && c ≤ 'Z') || ('0' ≤ c && c ≤ '9')

/-- `[0x123456789abcdef]` -/
def isScaleChar (c : Char) : Bool := isLowerHex c || c = 'x'

/-- `[a-zA-Z0-9]+\*[0x123456789abcdef]+`, with the two sides of the star. -/
def indexScale? (s : Text) : Option (Text × Text) :=
  let indexStr := s.takeWhile isLetterOrDigit
  match s.dropWhile isLetterOrDigit with
  | '*' :: scaleStr =>
    if indexStr ≠ [] ∧ scaleStr ≠ [] ∧ scaleStr.all isScaleChar then some (indexStr, scaleStr)
    else none
  | _ => none

/-- `operandStr.split("\\+|-")` -/
def splitTokens (operandStr : Text) : List Text :=
  let tokens := operandStr.splitOnP (fun c => c = '+' || c = '-')
  if tokens.length = 1 then tokens else tokens.rdropWhile List.isEmpty

/-- The parameters of a memory location. -/
structure MemoryTokens where
  base : Option BaseOperand
  offset : Option BaseOperand
  index : Option BaseOperand
  scale : Option BaseOperand
  deriving DecidableEq, Repr

/-- One round of the loop over the tokens. -/
def addToken (m : MemoryTokens) (token : Text) : Except Failure MemoryTokens :=
  match integerRegister? token with
  | some value => do
    let register ← getIntegerRegister value
    if m.base.isNone then return { m with base := some register }
    else return { m with index := some register }
  | none =>
    if isValidNumber token then
      if hexToLong token = 0 then .ok m else .ok { m with offset := some .immediate }
    else
      match indexScale? token with
      | some (indexStr, scaleStr) =>
        if indexStr = "eiz".toList then .ok m
        else
          match integerRegister? indexStr with
          | some value => do
            let register ← getIntegerRegister value
            if hexToLong scaleStr = 0 then return { m with index := none }
            else if hexToLong scaleStr ≠ 1 then
              return { m with index := some register, scale := some .immediate }
            else return { m with index := some register }
          | none => .error .exception
      | none => .error .exception

/-- The parameters that the loop finds. A location has one to three tokens. -/
def memoryTokens (operandStr : Text) : Except Failure MemoryTokens :=
  let tokens := splitTokens operandStr
  if 1 ≤ tokens.length ∧ tokens.length ≤ 3 then
    tokens.foldlM addToken ⟨none, none, none, none⟩
  else .error .exit

def getIntALUInstruction (sourceOperand1 sourceOperand2 destinationOperand : Option Operand) :
    Instruction :=
  ⟨.integerALU, sourceOperand1, sourceOperand2, destinationOperand, rfl⟩

/-- `Operand.getMemoryOperand`, `none` for null. -/
def getMemoryOperand : Option BaseOperand → Option BaseOperand → Except Failure (Option Operand)
  | none, _ => .error .exception
  | some (.register .integer value), none =>
    .ok (some (.memory (some (.register .integer value)) none))
  | some (.register .integer value), some (.register .integer value') =>
    .ok (some (.memory (some (.register .integer value)) (some (.register .integer value'))))
  | some (.register .integer value), some .immediate =>
    .ok (some (.memory (some (.register .integer value)) (some .immediate)))
  | some (.register .integer _), some _ => .ok none
  | some .immediate, none => .ok (some (.memory (some .immediate) none))
  | some .immediate, some .immediate => .ok (some (.memory (some .immediate) (some .immediate)))
  | some .immediate, some _ => .ok none
  | some _, _ => .error .exit

/-- The index times the scale, which takes a temporary. -/
def getScaledIndex (m : MemoryTokens) (t : Translation) :
    Except Failure (Option BaseOperand × Translation) :=
  match m.scale with
  | some scale => do
    let (register, t) ← getTempIntReg t
    return (some register, t.appendInstruction
      (getIntALUInstruction (m.index.map .base) (some (.base scale)) (some (.base register))))
  | none => .ok (m.index, t)

/-- `memoryLocationFirstOperand` and `memoryLocationSecondOperand`, with `pureRisc` false: an
offset beside a base and an index is left out. -/
def addressing (base scaledIndex offset : Option BaseOperand) :
    Option BaseOperand × Option BaseOperand :=
  match base, scaledIndex with
  | none, none => (offset, none)
  | none, some register => (some register, offset)
  | some base, none => (some base, offset)
  | some base, some register => (some base, some register)

/-- The part of `simplifyMemoryLocation` behind the loop. -/
def memoryLocation (m : MemoryTokens) (t : Translation) :
    Except Failure (Option Operand × Translation) := do
  let (scaledIndex, t) ← getScaledIndex m t
  let operand ← getMemoryOperand (addressing m.base scaledIndex m.offset).1
    (addressing m.base scaledIndex m.offset).2
  return (operand, t)

def simplifyMemoryLocation (operandStr : Text) (t : Translation) :
    Except Failure (Option Operand × Translation) := do
  let m ← memoryTokens operandStr
  memoryLocation m t

def simplifyOperand (operandStr : Option Text) (t : Translation) :
    Except Failure (Option Operand × Translation) :=
  match operandStr with
  | none => .ok (none, t)
  | some operandStr =>
    let operandStr := normalize operandStr
    if isValidNumber operandStr then .ok (some (.base .immediate), t)
    else
      match integerRegister? operandStr, floatRegister? operandStr with
      | some value, _ => do
        let register ← getIntegerRegister value
        return (some (.base register), t)
      | none, some value => .ok (some (.base (.register .float value)), t)
      | none, none =>
        if isMemLocation operandStr then do
          let memLocation ← bracketed operandStr
          simplifyMemoryLocation memLocation t
        else if isMemAddressRef operandStr then .ok (some (.base .immediate), t)
        else if isWordPtr operandStr then
          if "PTR".toList <:+: operandStr then
            simplifyMemoryLocation ((operandStr.dropWhile (· ≠ ':')).drop 1) t
          else do
            let operand ← getMemoryOperand (some .immediate) none
            return (operand, t)
        else .error .exception

/-- A register for the value of a memory operand: a temporary of its address, else a new
one. -/
def getLocationToStoreValue (operand : Operand) (t : Translation) :
    Except Failure (BaseOperand × Translation) :=
  match operand with
  | .memory first second =>
    match getTemporaryMemoryRegister first second with
    | some register => .ok (register, t)
    | none => getTempIntReg t
  | .base _ => .error .exit

end OperandTranslator

end X86

end Tejas
