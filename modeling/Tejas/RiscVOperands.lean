import Tejas.X86Operands

/-!
# Operands of RISC-V instructions

`Registers` and `OperandTranslator` of the RISC-V translator. A name that looks like a
hexadecimal number is tried as a number first, so the registers `a0` to `a7` are kept from
it by their first letter, and two of the floating-point registers by their names.
-/

namespace Tejas

namespace RiscV

open X86 (Text Failure)
open X86.Numbers
open X86.OperandTranslator (trim getMemoryOperand)

/-! ## Registers -/

namespace Registers

def integerRegistersHashTable : List (String × ℕ) :=
  [("zero", 0), ("ra", 1), ("sp", 2), ("gp", 3), ("tp", 4), ("pc", 5), ("load_reg", 6),
    ("store_reg", 7), ("a0", 8), ("a1", 9), ("a2", 10), ("a3", 11), ("a4", 12), ("a5", 13),
    ("a6", 14), ("a7", 15), ("s0", 17), ("s1", 18), ("s2", 19), ("s3", 20), ("s4", 21),
    ("s5", 22), ("s6", 23), ("s7", 24), ("s8", 25), ("s9", 26), ("s10", 27), ("s11", 28),
    ("t0", 29), ("t1", 30), ("t2", 31), ("t3", 32), ("t4", 33), ("t5", 34), ("t6", 35),
    ("t7", 36), ("branch_reg", 37)]

def floatRegistersHashTable : List (String × ℕ) :=
  [("fs0", 0), ("fs1", 1), ("fs2", 2), ("fs3", 3), ("fs4", 4), ("fs5", 5), ("fs6", 6),
    ("fs7", 7), ("fs8", 8), ("fs9", 9), ("fs10", 10), ("fs11", 11), ("fa0", 12), ("fa1", 13),
    ("fa2", 14), ("fa3", 15), ("fa4", 16), ("fa5", 17), ("fa6", 18), ("fa7", 19), ("ft0", 20),
    ("ft1", 21), ("ft2", 22), ("ft3", 23), ("ft4", 24), ("ft5", 25), ("ft6", 26), ("ft7", 27),
    ("ft8", 28), ("ft9", 29), ("ft10", 30), ("ft11", 31)]

def table : RegisterType → List (String × ℕ)
  | .integer => integerRegistersHashTable
  | .float => floatRegistersHashTable

/-- `encodeRegister` for a name of one of the tables. -/
def register? (type : RegisterType) (regStr : Text) : Option ℕ :=
  (table type).lookup (String.ofList regStr)

/-- `Operand.getIntegerRegister` and `Operand.getFloatRegister`: the array has a place for
each entry of the table. -/
def getRegister (type : RegisterType) (value : ℕ) : Except Failure BaseOperand :=
  if value < (table type).length then .ok (.register type value) else .error .exception

end Registers

open Registers

/-! ## Operands -/

namespace OperandTranslator

/-- `\d` -/
def isDigit (c : Char) : Bool := '0' ≤ c && c ≤ '9'

/-- `\w` -/
def isWordChar (c : Char) : Bool :=
  isDigit c || ('a' ≤ c && c ≤ 'z') || ('A' ≤ c && c ≤ 'Z') || c = '_'

/-- `[0-9a-fA-FxX]` -/
def isNumberChar (c : Char) : Bool :=
  isDigit c || ('a' ≤ c && c ≤ 'f') || ('A' ≤ c && c ≤ 'F') || c = 'x' || c = 'X'

/-- `[-]*\d{0,}\(\w{1,2}\)` -/
def isMemLocation (s : Text) : Bool :=
  match (s.dropWhile (· = '-')).dropWhile isDigit with
  | ['(', c, ')'] => isWordChar c
  | ['(', c, d, ')'] => isWordChar c && isWordChar d
  | _ => false

/-- `[a-pA-P]` -/
def isLetterToP (c : Char) : Bool := ('a' ≤ c && c ≤ 'p') || ('A' ≤ c && c ≤ 'P')

/-- `[a-pA-P]+[ ]*[+-][ ]*[0-9a-fA-FxX]+` -/
def isMemAddressRef (s : Text) : Bool :=
  s.takeWhile isLetterToP ≠ [] &&
    match (s.dropWhile isLetterToP).dropWhile (· = ' ') with
    | c :: rest =>
      let number := rest.dropWhile (· = ' ')
      (c = '+' || c = '-') && number ≠ [] && number.all isNumberChar
    | [] => false

/-- `operandStr.split("\\+|-| ")` -/
def splitTokens (operandStr : Text) : List Text :=
  let tokens := operandStr.splitOnP (fun c => c = '+' || c = '-' || c = ' ')
  if tokens.length = 1 then tokens else tokens.rdropWhile List.isEmpty

/-- The parameters of a memory location. -/
structure MemoryTokens where
  base : Option BaseOperand
  offset : Option BaseOperand
  deriving DecidableEq, Repr

/-- One round of the loop over the tokens. A register behind the first one is passed over. -/
def addToken (m : MemoryTokens) (token : Text) : Except Failure MemoryTokens :=
  let token := trim token
  match register? .integer token with
  | some value =>
    if m.base.isNone then do
      let register ← getRegister .integer value
      return { m with base := some register }
    else .ok m
  | none =>
    if isValidNumber token then
      if hexToLong token = 0 then .ok m else .ok { m with offset := some .immediate }
    else if token = [] then .ok m
    else .error .exception

/-- `memoryLocationFirstOperand` and `memoryLocationSecondOperand`. -/
def MemoryTokens.addressing (m : MemoryTokens) : Option BaseOperand × Option BaseOperand :=
  match m.base with
  | none => (m.offset, none)
  | some base => (some base, m.offset)

def simplifyMemoryLocation (operandStr : Text) : Except Failure (Option Operand) := do
  let m ← (splitTokens operandStr).foldlM addToken ⟨none, none⟩
  getMemoryOperand m.addressing.1 m.addressing.2

/-- The test for an immediate operand of a text that is not empty. -/
def isImmediate (operandStr : Text) : Bool :=
  (isValidNumber operandStr && operandStr.head? ≠ some 'a' &&
    !(operandStr = "fa5".toList || operandStr = "fa4".toList)) ||
  (operandStr.head? = some '-' && isValidNumber operandStr.tail)

/-- No micro-operation is appended and no temporary is taken. -/
def simplifyOperand (operandStr : Option Text) : Except Failure (Option Operand) :=
  match operandStr with
  | none => .ok none
  | some operandStr =>
    let operandStr := trim operandStr
    -- the first character of an empty text is out of bounds
    if operandStr = [] then .error .exception
    else if isImmediate operandStr then .ok (some (.base .immediate))
    else match register? .integer operandStr, register? .float operandStr with
    | some value, _ => do
      let register ← getRegister .integer value
      return some (.base register)
    | none, some value => do
      let register ← getRegister .float value
      return some (.base register)
    | none, none =>
      if isMemLocation operandStr then
        simplifyMemoryLocation (operandStr.map fun c => if c = '(' ∨ c = ')' then ' ' else c)
      else if isMemAddressRef operandStr then simplifyMemoryLocation operandStr
      else .error .exception

end OperandTranslator

end RiscV

end Tejas
