import Tejas.Tokens
import Tejas.X86Operands

/-!
# Texts of QEMU instructions

`ObjParser` cuts the text of an instruction into a prefix, an operation and at most three
operands. `tokenizeQemuAssemblyCodeSS` cuts the text with tokenizers; `tokenizeQemuAssemblyCode`
walks over its bytes with two pointers. A byte array holds the characters of the text, a zero
and anything after it.
-/

namespace Tejas.X86.ObjParser

open Tokens OperandTranslator

/-- `null` is a missing operand. -/
structure Operands where
  operand1 : Option Text
  operand2 : Option Text
  operand3 : Option Text
  deriving DecidableEq, Repr

structure AssemblyTokens where
  instructionPrefix : Option Text
  operation : Text
  operands : Operands
  deriving DecidableEq, Repr

/-- `rep|repe|repne|repz|repnz|lock|o16` -/
def isInstructionPrefix (string : Text) : Bool :=
  (["rep", "repe", "repne", "repz", "repnz", "lock", "o16"].map String.toList).contains string

/-! ## The tokenizers -/

/-- The delimiters of a `StringTokenizer` that is given none. -/
def isDelimiter (c : Char) : Bool :=
  c = ' ' || c = '\t' || c = '\n' || c = '\r' || c = '\x0c'

/-- The operands, from the tokens after the operation. -/
def operandsOfTokens (lineTokens : List Text) : Operands :=
  match lineTokens with
  | [] => ⟨none, none, none⟩
  | _ :: _ =>
    let operands := [' '].intercalate lineTokens
    let operandTokens := tokens (fun c => decide (c = ',')) operands
    ⟨operandTokens[0]?.map trim, operandTokens[1]?.map trim, operandTokens[2]?.map trim⟩

/-- `none` is the exception of a `nextToken` without a token. -/
def tokenizeQemuAssemblyCodeSS (line : Text) : Option AssemblyTokens :=
  match tokens isDelimiter line with
  | [] => none
  | token :: lineTokens =>
    let str := trim token
    if isInstructionPrefix str then
      match lineTokens with
      | [] => none
      | operation :: lineTokens =>
        some ⟨some str, trim operation, operandsOfTokens lineTokens⟩
    else some ⟨none, str, operandsOfTokens lineTokens⟩

/-! ## The bytes -/

/-- The index of the zero, or an exception at the end of the array. -/
def len (asmBytes : List Char) : Option ℕ := asmBytes.findIdx? (fun c => decide (c = '\x00'))

/-- The index of a character from `offset` on, or -1. -/
def indexOf (asmBytes : List Char) (ch : Char) (offset : ℤ) : Option ℤ :=
  match len asmBytes with
  | none => none
  | some n =>
    if offset < 0 then none
    else
      match ((asmBytes.take n).drop offset.toNat).findIdx? (fun c => decide (c = ch)) with
      | none => some (-1)
      | some i => some (offset + i)

/-- `new String(asmBytes, offset, length)` -/
def newString (asmBytes : List Char) (offset length : ℤ) : Option Text :=
  if 0 ≤ offset ∧ 0 ≤ length ∧ offset + length ≤ asmBytes.length then
    some ((asmBytes.drop offset.toNat).take length.toNat)
  else none

/-- The part of `tokenizeQemuAssemblyCode` after the operation. -/
def operandsOfBytes (asmBytes : List Char) (previousPointer : ℤ) : Option Operands := do
  let n ← len asmBytes
  if previousPointer = n then return ⟨none, none, none⟩
  let currentPointer ← indexOf asmBytes ',' previousPointer
  if currentPointer = -1 then
    let operand1 ← newString asmBytes previousPointer (n - previousPointer)
    return ⟨some operand1, none, none⟩
  let operand1 ← newString asmBytes previousPointer (currentPointer - previousPointer)
  let previousPointer := currentPointer + 2
  if previousPointer = n then return ⟨some operand1, none, none⟩
  let currentPointer ← indexOf asmBytes ',' previousPointer
  if currentPointer = -1 then
    let operand2 ← newString asmBytes previousPointer (n - previousPointer)
    return ⟨some operand1, some operand2, none⟩
  let operand2 ← newString asmBytes previousPointer (currentPointer - previousPointer)
  -- one step only: the blank after this comma stays
  let previousPointer := currentPointer + 1
  let operand3 ← newString asmBytes previousPointer (n - previousPointer)
  return ⟨some operand1, some operand2, some operand3⟩

/-- `none` is an exception. -/
def tokenizeQemuAssemblyCode (asmBytes : List Char) : Option AssemblyTokens := do
  let currentPointer ← indexOf asmBytes ' ' 0
  if currentPointer = -1 then
    let operation ← newString asmBytes 0 (← len asmBytes)
    return ⟨none, operation, ⟨none, none, none⟩⟩
  let str ← newString asmBytes 0 currentPointer
  let previousPointer := currentPointer + 1
  if isInstructionPrefix str then
    -- without operands no blank is found, and the length below is negative
    let currentPointer ← indexOf asmBytes ' ' previousPointer
    let operation ← newString asmBytes previousPointer (currentPointer - previousPointer)
    let operands ← operandsOfBytes asmBytes (currentPointer + 1)
    return ⟨some str, operation, operands⟩
  let operands ← operandsOfBytes asmBytes previousPointer
  return ⟨none, str, operands⟩

/-! ## The instructions -/

/-- The parts of an instruction's text. -/
structure AssemblyLine where
  instructionPrefix : Option Text
  operation : Text
  operands : List Text
  prefix_ok : ∀ p ∈ instructionPrefix, isInstructionPrefix p = true
  operation_ne : operation ≠ []
  operation_ok : ∀ c ∈ operation, ' '.toNat < c.toNat
  operation_alone : instructionPrefix = none → isInstructionPrefix operation = false
  operands_length : operands.length ≤ 3
  operands_ok : ∀ o ∈ operands, ',' ∉ o ∧ '\x00' ∉ o

/-- The operands with the blank before them. -/
def operandsText : List Text → Text
  | [] => []
  | o :: os => ' ' :: [',', ' '].intercalate (o :: os)

namespace AssemblyLine

/-- `[prefix ]operation[ operand1[, operand2[, operand3]]]` -/
def text (line : AssemblyLine) : Text :=
  match line.instructionPrefix with
  | none => line.operation ++ operandsText line.operands
  | some p => p ++ ' ' :: (line.operation ++ operandsText line.operands)

/-- The array with the text, the zero after it and the bytes that were there before. -/
def bytes (line : AssemblyLine) (rest : List Char) : List Char := line.text ++ '\x00' :: rest

/-- The walk over the bytes returns what the tokenizers return. -/
def Agrees (line : AssemblyLine) (rest : List Char) : Prop :=
  ∃ fields, tokenizeQemuAssemblyCode (line.bytes rest) = some fields ∧
    tokenizeQemuAssemblyCodeSS line.text = some fields

end AssemblyLine

/-! ## The walk -/

section Walk

variable {t rest a x b : List Char} {ch : Char}

theorem findIdx?_split {p : Char → Bool} (hx : ∀ c ∈ x, p c = false) (hch : p ch = true) :
    (x ++ ch :: b).findIdx? p = some x.length := by
  rw [List.findIdx?_append, List.findIdx?_eq_none_iff.mpr hx, List.findIdx?_cons, if_pos hch]
  simp

theorem ne_of_not_mem (hx : ch ∉ x) : ∀ c ∈ x, decide (c = ch) = false :=
  fun _ hc => decide_eq_false (fun h => hx (h ▸ hc))

theorem len_eq (ht : '\x00' ∉ t) : len (t ++ '\x00' :: rest) = some t.length :=
  findIdx?_split (ne_of_not_mem ht) (by decide)

theorem indexOf_eq (ht : '\x00' ∉ t) (hsplit : t = a ++ x) :
    indexOf (t ++ '\x00' :: rest) ch a.length =
      match x.findIdx? (fun c => decide (c = ch)) with
      | none => some (-1)
      | some i => some (a.length + i : ℤ) := by
  rw [indexOf, len_eq ht]
  have hpart : ((t ++ '\x00' :: rest).take t.length).drop (a.length : ℤ).toNat = x := by
    rw [List.take_left, Int.toNat_natCast, hsplit, List.drop_left]
  simp only [hpart]
  rw [if_neg (by omega)]

theorem indexOf_missing (rest : List Char) (ht : '\x00' ∉ t) (hsplit : t = a ++ x) (hx : ch ∉ x) :
    indexOf (t ++ '\x00' :: rest) ch a.length = some (-1) := by
  rw [indexOf_eq ht hsplit, List.findIdx?_eq_none_iff.mpr (ne_of_not_mem hx)]

theorem indexOf_found (rest : List Char) (ht : '\x00' ∉ t) (hsplit : t = a ++ (x ++ ch :: b))
    (hx : ch ∉ x) :
    indexOf (t ++ '\x00' :: rest) ch a.length = some (a.length + x.length : ℤ) := by
  rw [indexOf_eq ht hsplit, findIdx?_split (ne_of_not_mem hx) (by simp)]

theorem newString_eq (rest : List Char) (hsplit : t = a ++ (x ++ b)) {length : ℤ}
    (hlength : length = x.length) :
    newString (t ++ '\x00' :: rest) a.length length = some x := by
  subst hsplit hlength
  have hbounds : (0 : ℤ) ≤ a.length ∧ (0 : ℤ) ≤ x.length ∧
      (a.length : ℤ) + x.length ≤ (a ++ (x ++ b) ++ '\x00' :: rest).length := by
    simp only [List.length_append]
    omega
  rw [newString, if_pos hbounds, Int.toNat_natCast, Int.toNat_natCast, List.append_assoc,
    List.drop_left, List.append_assoc, List.take_left]

/-- What the walk finds at an operand with a comma behind it. -/
theorem operand_before_comma {o : Text} (rest : List Char) (ht : '\x00' ∉ t)
    (hsplit : t = a ++ (o ++ ',' :: b)) (ho : ',' ∉ o) :
    indexOf (t ++ '\x00' :: rest) ',' a.length = some (a.length + o.length : ℤ) ∧
      newString (t ++ '\x00' :: rest) a.length (a.length + o.length - a.length) = some o ∧
      (a.length : ℤ) ≠ t.length ∧ (a.length + o.length : ℤ) ≠ -1 := by
  have hlen : t.length = a.length + (o.length + (b.length + 1)) := by
    rw [hsplit, List.length_append, List.length_append, List.length_cons]
  exact ⟨indexOf_found rest ht hsplit ho, newString_eq rest hsplit (by omega), by omega, by omega⟩

/-- What the walk finds at the operand at the end. -/
theorem operand_at_end {o : Text} (rest : List Char) (ht : '\x00' ∉ t) (hsplit : t = a ++ o)
    (ho : ',' ∉ o) :
    indexOf (t ++ '\x00' :: rest) ',' a.length = some (-1) ∧
      newString (t ++ '\x00' :: rest) a.length (t.length - a.length) = some o ∧
      ((a.length : ℤ) = t.length ↔ o = []) := by
  have hlen : t.length = a.length + o.length := by rw [hsplit, List.length_append]
  have hsplit' : t = a ++ (o ++ []) := by rw [hsplit, List.append_nil]
  refine ⟨indexOf_missing rest ht hsplit ho, newString_eq rest hsplit' (by omega), ?_⟩
  rw [← List.length_eq_zero_iff]
  omega

/-- A negative length is an exception. -/
theorem newString_negative (offset : ℤ) {length : ℤ} (h : length < 0) (asmBytes : List Char) :
    newString asmBytes offset length = none :=
  if_neg (by omega)

end Walk

/-- `none` for the empty text. -/
def ofNonempty (o : Text) : Option Text := if o = [] then none else some o

/-- What the walk makes of the operands: the third one keeps the blank before it. -/
def walkOperands : List Text → Operands
  | [] => ⟨none, none, none⟩
  | [o₁] => ⟨ofNonempty o₁, none, none⟩
  | [o₁, o₂] => ⟨some o₁, ofNonempty o₂, none⟩
  | o₁ :: o₂ :: o₃ :: _ => ⟨some o₁, some o₂, some (' ' :: o₃)⟩

theorem operandsOfBytes_eq {t a : List Char} (rest : List Char) (ht : '\x00' ∉ t) :
    ∀ {os : List Text}, os.length ≤ 3 → (∀ o ∈ os, ',' ∉ o) →
      t = a ++ [',', ' '].intercalate os →
      operandsOfBytes (t ++ '\x00' :: rest) a.length = some (walkOperands os)
  | [], _, _, hsplit => by
    have hend : (a.length : ℤ) = t.length := by rw [hsplit]; simp
    rw [operandsOfBytes, len_eq ht]
    simp only [Option.bind_eq_bind, Option.bind_some, hend, if_true, walkOperands]
    rfl
  | [o₁], _, hos, hsplit => by
    rw [List.intercalate_singleton] at hsplit
    obtain ⟨hcomma, hread, hend⟩ := operand_at_end rest ht hsplit (hos o₁ List.mem_cons_self)
    rw [operandsOfBytes, len_eq ht, hcomma]
    by_cases ho : o₁ = []
    · simp only [Option.bind_eq_bind, Option.bind_some, hend, if_true, walkOperands, ofNonempty, ho]
      rfl
    · simp only [Option.bind_eq_bind, Option.bind_some, hend, hread, if_false, if_true,
        walkOperands, ofNonempty, ho]
      rfl
  | o₁ :: o₂ :: os, hlength, hos, hsplit => by
    obtain ⟨y, hy⟩ : ∃ y, [',', ' '].intercalate (o₂ :: os) = y := ⟨_, rfl⟩
    have hfirst : t = a ++ (o₁ ++ ',' :: ' ' :: y) := by
      rw [hsplit, List.intercalate_cons_cons, hy, List.append_assoc]
      rfl
    have ho₂ : ',' ∉ o₂ := hos o₂ (List.mem_cons_of_mem _ List.mem_cons_self)
    obtain ⟨hcomma, hread₁, hstart, hfound⟩ :=
      operand_before_comma rest ht hfirst (hos o₁ List.mem_cons_self)
    -- the text up to the second operand
    obtain ⟨a', ha'⟩ : ∃ a', a ++ o₁ ++ [',', ' '] = a' := ⟨_, rfl⟩
    have hpointer : (a.length + o₁.length + 2 : ℤ) = a'.length := by
      rw [← ha']
      simp only [List.length_append, List.length_cons, List.length_nil]
      omega
    have hsecond : t = a' ++ y := by rw [hfirst, ← ha']; simp
    rw [operandsOfBytes, len_eq ht]
    simp only [Option.bind_eq_bind, Option.bind_some, hstart, hcomma, hfound, hread₁, if_false,
      hpointer]
    cases os with
    | nil =>
      rw [List.intercalate_singleton] at hy
      subst hy
      obtain ⟨hcomma₂, hread₂, hend⟩ := operand_at_end rest ht hsecond ho₂
      by_cases ho : o₂ = []
      · simp only [hend, if_true, walkOperands, ofNonempty, ho]
        rfl
      · simp only [hend, hcomma₂, hread₂, Option.bind_some, if_false, if_true, walkOperands,
          ofNonempty, ho]
        rfl
    | cons o₃ os =>
      obtain rfl : os = [] := by
        simp only [List.length_cons] at hlength
        exact List.length_eq_zero_iff.mp (by omega)
      have hy₃ : y = o₂ ++ ',' :: ' ' :: o₃ := by
        rw [← hy, List.intercalate_cons_cons, List.intercalate_singleton, List.append_assoc]
        rfl
      rw [hy₃] at hsecond
      obtain ⟨hcomma₂, hread₂, hend, hfound₂⟩ := operand_before_comma rest ht hsecond ho₂
      -- the third operand is read with the blank before it
      obtain ⟨a'', ha''⟩ : ∃ a'', a' ++ o₂ ++ [','] = a'' := ⟨_, rfl⟩
      have hpointer₃ : (a'.length + o₂.length + 1 : ℤ) = a''.length := by
        rw [← ha'']
        simp only [List.length_append, List.length_cons, List.length_nil]
        omega
      have hthird : t = a'' ++ (' ' :: o₃ ++ []) := by
        rw [hsecond, ← ha'']
        simp
      have hread₃ : newString (t ++ '\x00' :: rest) a''.length (t.length - a''.length) =
          some (' ' :: o₃) := by
        refine newString_eq rest hthird ?_
        rw [hthird, List.append_nil, List.length_append]
        omega
      simp only [hend, hcomma₂, hfound₂, hread₂, hpointer₃, hread₃, Option.bind_some, if_false]
      rfl

/-! ## The whole line -/

theorem high_of_all {w : Text} (h : w.all (fun c => decide (' '.toNat < c.toNat)) = true) :
    ∀ c ∈ w, ' '.toNat < c.toNat :=
  fun c hc => of_decide_eq_true (List.all_eq_true.mp h c hc)

theorem isInstructionPrefix_chars {p : Text} (hp : isInstructionPrefix p = true) :
    p ≠ [] ∧ ∀ c ∈ p, ' '.toNat < c.toNat := by
  have hwords : (["rep", "repe", "repne", "repz", "repnz", "lock", "o16"].map String.toList).all
      (fun w => !w.isEmpty && w.all (fun c => decide (' '.toNat < c.toNat))) = true := by rfl
  have hword := List.all_eq_true.mp hwords p (List.contains_iff_mem.mp hp)
  rw [Bool.and_eq_true] at hword
  exact ⟨by simpa using hword.1, high_of_all hword.2⟩

theorem not_mem_of_high {w : Text} (hw : ∀ c ∈ w, ' '.toNat < c.toNat) {c : Char}
    (hc : c.toNat ≤ ' '.toNat) : c ∉ w :=
  fun h => absurd (hw c h) (Nat.not_lt.mpr hc)

theorem isDelimiter_low {c : Char} (hc : isDelimiter c = true) : c.toNat ≤ ' '.toNat := by
  simp only [isDelimiter, Bool.or_eq_true, decide_eq_true_eq] at hc
  rcases hc with (((rfl | rfl) | rfl) | rfl) | rfl <;> decide

/-- The characters that `trim` removes. -/
def isLow (c : Char) : Bool := decide (c.toNat ≤ 32)

theorem trim_eq (s : Text) : OperandTranslator.trim s = Tokens.trim isLow s := rfl

section Words

variable {w : Text}

theorem tokens_word (hne : w ≠ []) (hw : ∀ c ∈ w, ' '.toNat < c.toNat) :
    tokens isDelimiter w = [w] := by
  rw [tokens_of_free, if_neg hne]
  intro c hc
  by_contra hdelimiter
  exact absurd (hw c hc) (Nat.not_lt.mpr (isDelimiter_low (Bool.not_eq_false _ ▸ hdelimiter)))

theorem tokens_word_blank (hne : w ≠ []) (hw : ∀ c ∈ w, ' '.toNat < c.toNat) (rest : Text) :
    tokens isDelimiter (w ++ ' ' :: rest) = w :: tokens isDelimiter rest := by
  rw [tokens_append_cons (by decide), tokens_word hne hw, List.singleton_append]

theorem trim_word (hw : ∀ c ∈ w, ' '.toNat < c.toNat) : OperandTranslator.trim w = w := by
  have hhigh : ∀ c ∈ w, isLow c = false := fun c hc =>
    decide_eq_false (Nat.not_le.mpr (hw c hc))
  exact trim_eq_self (fun c hc => hhigh c (List.mem_of_mem_head? hc))
    (fun c hc => hhigh c (List.mem_of_mem_getLast? hc))

end Words

section Lines

variable {p operation t : Text} {os : List Text} (rest : List Char)

theorem tokenizeQemuAssemblyCode_alone (ht : '\x00' ∉ operation) (hblank : ' ' ∉ operation)
    (hsplit : t = operation) :
    tokenizeQemuAssemblyCode (t ++ '\x00' :: rest) =
      some ⟨none, operation, walkOperands []⟩ := by
  subst hsplit
  have hmissing := indexOf_missing (a := []) rest ht rfl hblank
  have hread := newString_eq (t := t) (a := []) (b := []) (x := t) rest
    (by simp) rfl
  simp only [List.length_nil, Int.natCast_zero] at hmissing hread
  simp [tokenizeQemuAssemblyCode, hmissing, len_eq ht, hread, walkOperands]

theorem tokenizeQemuAssemblyCode_operands (ht : '\x00' ∉ t) (hblank : ' ' ∉ operation)
    (hoperation : isInstructionPrefix operation = false) (hlength : os.length ≤ 3)
    (hos : ∀ o ∈ os, ',' ∉ o) (hsplit : t = operation ++ ' ' :: [',', ' '].intercalate os) :
    tokenizeQemuAssemblyCode (t ++ '\x00' :: rest) =
      some ⟨none, operation, walkOperands os⟩ := by
  have hfound := indexOf_found (a := []) rest ht hsplit hblank
  have hread := newString_eq (t := t) (a := []) (x := operation) rest hsplit rfl
  have hoperands := operandsOfBytes_eq (a := operation ++ [' ']) rest ht hlength hos
    (by rw [hsplit]; simp)
  have hne : (operation.length : ℤ) ≠ -1 := by omega
  simp only [List.length_nil, Int.natCast_zero, Int.zero_add] at hfound hread
  simp only [List.length_append, List.length_singleton, Int.natCast_add, Int.natCast_one]
    at hoperands
  simp [tokenizeQemuAssemblyCode, hfound, hne, hread, hoperation, hoperands]

/-- A prefix and an operation without operands: the second blank is not there. -/
theorem tokenizeQemuAssemblyCode_prefix_alone (ht : '\x00' ∉ t) (hp : isInstructionPrefix p = true)
    (hpblank : ' ' ∉ p) (hblank : ' ' ∉ operation) (hsplit : t = p ++ ' ' :: operation) :
    tokenizeQemuAssemblyCode (t ++ '\x00' :: rest) = none := by
  have hfound := indexOf_found (a := []) rest ht hsplit hpblank
  have hread := newString_eq (t := t) (a := []) (x := p) rest hsplit rfl
  have hmissing := indexOf_missing (a := p ++ [' ']) rest ht (by rw [hsplit]; simp) hblank
  have hnegative := newString_negative (p.length + 1)
    (show (-1 : ℤ) - (p.length + 1) < 0 by omega) (t ++ '\x00' :: rest)
  have hne : (p.length : ℤ) ≠ -1 := by omega
  simp only [List.length_nil, Int.natCast_zero, Int.zero_add] at hfound hread
  simp only [List.length_append, List.length_singleton, Int.natCast_add, Int.natCast_one]
    at hmissing
  simp [tokenizeQemuAssemblyCode, hfound, hne, hread, hp, hmissing, hnegative]

theorem tokenizeQemuAssemblyCode_prefix_operands (ht : '\x00' ∉ t)
    (hp : isInstructionPrefix p = true) (hpblank : ' ' ∉ p) (hblank : ' ' ∉ operation)
    (hlength : os.length ≤ 3) (hos : ∀ o ∈ os, ',' ∉ o)
    (hsplit : t = p ++ ' ' :: (operation ++ ' ' :: [',', ' '].intercalate os)) :
    tokenizeQemuAssemblyCode (t ++ '\x00' :: rest) =
      some ⟨some p, operation, walkOperands os⟩ := by
  have hfound := indexOf_found (a := []) rest ht hsplit hpblank
  have hread := newString_eq (t := t) (a := []) (x := p) rest hsplit rfl
  have hsecond : t = p ++ [' '] ++ (operation ++ ' ' :: [',', ' '].intercalate os) := by
    rw [hsplit]
    simp
  have hfound₂ := indexOf_found rest ht hsecond hblank
  have hread₂ := newString_eq (x := operation) rest hsecond rfl
  have hoperands := operandsOfBytes_eq (a := p ++ [' '] ++ operation ++ [' ']) rest ht
    hlength hos (by rw [hsplit]; simp)
  have hne : (p.length : ℤ) ≠ -1 := by omega
  have hdiff : (p.length + 1 + operation.length - (p.length + 1) : ℤ) = operation.length := by
    omega
  simp only [List.length_nil, Int.natCast_zero, Int.zero_add] at hfound hread
  simp only [List.length_append, List.length_singleton, Int.natCast_add, Int.natCast_one]
    at hfound₂ hread₂ hoperands
  simp [tokenizeQemuAssemblyCode, hfound, hne, hread, hp, hfound₂, hdiff, hread₂, hoperands]

end Lines

namespace AssemblyLine

variable (line : AssemblyLine)

theorem zero_not_mem_text : '\x00' ∉ line.text := by
  obtain ⟨instructionPrefix, operation, operands, hpre, -, hoperation, -, -, hos⟩ := line
  have hzero := not_mem_of_high hoperation (c := '\x00') (by decide)
  have htail : '\x00' ∉ operandsText operands := by
    cases operands with
    | nil => exact List.not_mem_nil
    | cons o os =>
      intro hmem
      rcases List.mem_cons.mp hmem with h | h
      · exact absurd h (by decide)
      · rcases mem_intercalate h with h | ⟨o', ho', h⟩
        · exact absurd h (by decide)
        · exact (hos o' ho').2 h
  cases instructionPrefix with
  | none => exact List.not_mem_append hzero htail
  | some p =>
    have hp := not_mem_of_high (isInstructionPrefix_chars (hpre p rfl)).2 (c := '\x00')
      (by decide)
    refine List.not_mem_append hp (List.not_mem_cons_of_ne_of_not_mem (by decide) ?_)
    exact List.not_mem_append hzero htail

/-- The walk throws exactly on a prefix without operands. -/
theorem tokenizeQemuAssemblyCode_eq (rest : List Char) :
    tokenizeQemuAssemblyCode (line.bytes rest) =
      if line.instructionPrefix.isSome ∧ line.operands = [] then none
      else some ⟨line.instructionPrefix, line.operation, walkOperands line.operands⟩ := by
  have ht := line.zero_not_mem_text
  obtain ⟨instructionPrefix, operation, operands, hpre, hne, hoperation, halone, hlength,
    hos⟩ := line
  have hblank : ' ' ∉ operation := not_mem_of_high hoperation (le_refl _)
  have hzero : '\x00' ∉ operation := not_mem_of_high hoperation (by decide)
  have hcommas : ∀ o ∈ operands, ',' ∉ o := fun o ho => (hos o ho).1
  cases instructionPrefix with
  | none =>
    rw [if_neg (by simp)]
    cases operands with
    | nil =>
      exact tokenizeQemuAssemblyCode_alone rest hzero hblank (List.append_nil operation)
    | cons o os =>
      exact tokenizeQemuAssemblyCode_operands rest ht hblank (halone rfl) hlength hcommas rfl
  | some p =>
    have hp := hpre p rfl
    have hpblank : ' ' ∉ p := not_mem_of_high (isInstructionPrefix_chars hp).2 (le_refl _)
    cases operands with
    | nil =>
      rw [if_pos (by simp)]
      refine tokenizeQemuAssemblyCode_prefix_alone rest ht hp hpblank hblank ?_
      exact congrArg (fun x => p ++ ' ' :: x) (List.append_nil operation)
    | cons o os =>
      rw [if_neg (by simp)]
      exact tokenizeQemuAssemblyCode_prefix_operands rest ht hp hpblank hblank hlength hcommas rfl

theorem tokenizeQemuAssemblyCodeSS_eq :
    tokenizeQemuAssemblyCodeSS line.text =
      some ⟨line.instructionPrefix, line.operation,
        operandsOfTokens (tokens isDelimiter ([',', ' '].intercalate line.operands))⟩ := by
  obtain ⟨instructionPrefix, operation, operands, hpre, hne, hoperation, halone, hlength,
    hos⟩ := line
  -- the operation is one token, and the operands begin after its blank
  have hline : tokens isDelimiter (operation ++ operandsText operands) =
      operation :: tokens isDelimiter ([',', ' '].intercalate operands) := by
    cases operands with
    | nil => rw [operandsText, List.append_nil, tokens_word hne hoperation]; rfl
    | cons o os => exact tokens_word_blank hne hoperation _
  cases instructionPrefix with
  | none =>
    simp only [tokenizeQemuAssemblyCodeSS, text, hline, trim_word hoperation, halone rfl]
    rfl
  | some p =>
    have hp := hpre p rfl
    obtain ⟨hpne, hpchars⟩ := isInstructionPrefix_chars hp
    simp only [tokenizeQemuAssemblyCodeSS, text, tokens_word_blank hpne hpchars, hline,
      trim_word hpchars, trim_word hoperation, hp, if_true]

end AssemblyLine

/-! ## Where the two agree -/

section Agreement

variable {o o₁ o₂ x y : Text}

/-- An operand that `tokenizeQemuAssemblyCodeSS` returns as it is written. -/
abbrev TidyOperand (o : Text) : Prop := Tidy isDelimiter isLow ' ' o

theorem tidyOperand_iff : TidyOperand o ↔ Tokens.trim isLow (squeeze isDelimiter ' ' o) = o :=
  tidy_iff (by decide) (by decide)

/-- The operands of a text whose words are joined with single blanks. -/
def operandsOfJoined (operands : Text) : Operands :=
  let operandTokens := tokens (fun c => decide (c = ',')) operands
  ⟨operandTokens[0]?.map trim, operandTokens[1]?.map trim, operandTokens[2]?.map trim⟩

theorem operandsOfTokens_eq (lineTokens : List Text) :
    operandsOfTokens lineTokens = operandsOfJoined ([' '].intercalate lineTokens) := by
  cases lineTokens with
  | nil => rfl
  | cons token lineTokens => rfl

theorem tokens_of_no_comma (hx : ',' ∉ x) :
    tokens (fun c => decide (c = ',')) x = if x = [] then [] else [x] :=
  tokens_of_free (ne_of_not_mem hx)

theorem comma_not_mem_squeeze (ho : ',' ∉ o) : ',' ∉ squeeze isDelimiter ' ' o := by
  intro hmem
  rcases mem_squeeze hmem with h | h
  · exact absurd h (by decide)
  · exact ho h.1

theorem operandsOfJoined_one (hx : ',' ∉ x) :
    operandsOfJoined x = ⟨if x = [] then none else some (trim x), none, none⟩ := by
  rw [operandsOfJoined, tokens_of_no_comma hx]
  split <;> rfl

theorem operandsOfJoined_two (hx : ',' ∉ x) (hy : ',' ∉ y) :
    operandsOfJoined (x ++ ',' :: y) =
      if x = [] then operandsOfJoined y
      else ⟨some (trim x), if y = [] then none else some (trim y), none⟩ := by
  have hcut := tokens_append_cons (d := fun c => decide (c = ',')) (s := ',') (by decide) x y
  rw [operandsOfJoined, operandsOfJoined, hcut, tokens_of_no_comma hx, tokens_of_no_comma hy]
  split
  · rfl
  · split <;> rfl

/-- One operand is read in the same way exactly when it is tidy. -/
theorem walkOperands_one_iff (ho : ',' ∉ o) :
    walkOperands [o] = operandsOfTokens (tokens isDelimiter o) ↔ TidyOperand o := by
  rw [operandsOfTokens_eq, ← squeeze, operandsOfJoined_one (comma_not_mem_squeeze ho),
    tidyOperand_iff, walkOperands, ofNonempty, trim_eq]
  by_cases hq : squeeze isDelimiter ' ' o = []
  · have htrim : Tokens.trim isLow (squeeze isDelimiter ' ' o) = [] := by rw [hq]; rfl
    rw [if_pos hq, htrim]
    by_cases hnil : o = []
    · simp [hnil]
    · simp [hnil, Ne.symm hnil]
  · have hnil : o ≠ [] := fun h => hq (by rw [h]; rfl)
    rw [if_neg hq, if_neg hnil]
    simp only [Operands.mk.injEq, Option.some.injEq, and_true]
    exact eq_comm

/-- Two operands are read in the same way exactly when they are tidy and the first is not
empty. -/
theorem walkOperands_two_iff (ho₁ : ',' ∉ o₁) (ho₂ : ',' ∉ o₂) :
    walkOperands [o₁, o₂] =
        operandsOfTokens (tokens isDelimiter ([',', ' '].intercalate [o₁, o₂])) ↔
      o₁ ≠ [] ∧ TidyOperand o₁ ∧ TidyOperand o₂ := by
  obtain ⟨x, y, hsplit, hx, hy⟩ := exists_squeeze_split (d := isDelimiter) (c := ',')
    (show isDelimiter ' ' = true by decide) (by decide) o₁ o₂
  have hjoined : operandsOfTokens (tokens isDelimiter ([',', ' '].intercalate [o₁, o₂])) =
      operandsOfJoined (x ++ ',' :: y) := by
    rw [operandsOfTokens_eq, ← squeeze, ← hsplit, List.intercalate_cons_cons,
      List.intercalate_singleton, List.append_assoc]
    rfl
  have hxcomma : ',' ∉ x := by
    rcases hx with rfl | ⟨rfl, -⟩
    · exact comma_not_mem_squeeze ho₁
    · exact List.not_mem_append (comma_not_mem_squeeze ho₁) (by decide)
  have hycomma : ',' ∉ y := by
    rcases hy with ⟨rfl, -⟩ | ⟨rfl, -⟩
    · exact comma_not_mem_squeeze ho₂
    · exact List.not_mem_cons_of_ne_of_not_mem (by decide) (comma_not_mem_squeeze ho₂)
  have htrimx : Tokens.trim isLow x = Tokens.trim isLow (squeeze isDelimiter ' ' o₁) := by
    rcases hx with rfl | ⟨rfl, -⟩
    · rfl
    · exact trim_concat (by decide) _
  rw [hjoined, operandsOfJoined_two hxcomma hycomma, tidyOperand_iff, tidyOperand_iff, walkOperands,
    ← htrimx]
  by_cases hxnil : x = []
  · -- the first operand has no word, and the tokenizer skips it
    have hright : ¬ (o₁ ≠ [] ∧ Tokens.trim isLow x = o₁ ∧
        Tokens.trim isLow (squeeze isDelimiter ' ' o₂) = o₂) := by
      rintro ⟨hne, htidy, -⟩
      exact hne (by rw [← htidy, hxnil]; rfl)
    rw [if_pos hxnil, operandsOfJoined_one hycomma]
    refine iff_of_false ?_ hright
    intro h
    simp only [Operands.mk.injEq] at h
    have hynil : y ≠ [] := fun hynil => by simp [hynil] at h
    rcases hy with ⟨rfl, hnone⟩ | ⟨-, hsome⟩
    · exact hynil (squeeze_eq_nil_iff.mpr hnone)
    · refine hsome ?_
      have ho : o₂ = [] := by simpa [ofNonempty] using h.2.1
      rw [ho, tokens_nil]
  · have hne : o₁ ≠ [] := by
      rintro rfl
      rcases hx with hx | ⟨-, hsome⟩
      · exact hxnil hx
      · exact hsome rfl
    rw [if_neg hxnil, trim_eq, trim_eq]
    simp only [Operands.mk.injEq, Option.some.injEq, and_true, ne_eq, hne, not_false_eq_true,
      true_and, eq_comm (a := o₁)]
    refine and_congr_right fun _ => ?_
    rcases hy with ⟨rfl, hnone⟩ | ⟨rfl, hsome⟩
    · have hnil : squeeze isDelimiter ' ' o₂ = [] := squeeze_eq_nil_iff.mpr hnone
      rw [hnil, if_pos rfl, show Tokens.trim isLow [] = [] from rfl, ofNonempty, eq_comm (a := [])]
      simp
    · have ho : o₂ ≠ [] := fun h => hsome (by rw [h, tokens_nil])
      rw [if_neg (List.cons_ne_nil _ _), trim_cons (by decide), ofNonempty, if_neg ho,
        Option.some.injEq]
      exact eq_comm

/-- The third operand of the walk begins with a blank, which `trim` removes. -/
theorem walkOperands_three_ne (o₁ o₂ o₃ : Text) (os lineTokens : List Text) :
    walkOperands (o₁ :: o₂ :: o₃ :: os) ≠ operandsOfTokens lineTokens := by
  intro h
  rw [operandsOfTokens_eq, operandsOfJoined, walkOperands, Operands.mk.injEq] at h
  obtain ⟨third, -, hthird⟩ := Option.map_eq_some_iff.mp h.2.2.symm
  have hlow := @head_trim _ isLow third ' ' (by rw [← trim_eq, hthird]; rfl)
  exact absurd hlow (by decide)

theorem walkOperands_iff {os : List Text} (hos : ∀ o ∈ os, ',' ∉ o) :
    walkOperands os = operandsOfTokens (tokens isDelimiter ([',', ' '].intercalate os)) ↔
      os.length < 3 ∧ (∀ o ∈ os, TidyOperand o) ∧ (os.length = 2 → os.head? ≠ some []) := by
  match os with
  | [] => simp [walkOperands, operandsOfTokens]
  | [o₁] =>
    rw [List.intercalate_singleton, walkOperands_one_iff (hos o₁ (by simp))]
    simp
  | [o₁, o₂] =>
    rw [walkOperands_two_iff (hos o₁ (by simp)) (hos o₂ (by simp))]
    simp [and_comm]
  | o₁ :: o₂ :: o₃ :: os =>
    refine iff_of_false (walkOperands_three_ne o₁ o₂ o₃ os _) ?_
    rintro ⟨hshort, -⟩
    simp only [List.length_cons] at hshort
    omega

end Agreement

namespace AssemblyLine

/-- Fewer than three operands, all of them tidy, the first of two not empty, and operands
after a prefix. -/
structure Plain (line : AssemblyLine) : Prop where
  short : line.operands.length < 3
  prefixed : line.instructionPrefix ≠ none → line.operands ≠ []
  tidy : ∀ o ∈ line.operands, TidyOperand o
  first : line.operands.length = 2 → line.operands.head? ≠ some []

/-- The walk over the bytes agrees with the tokenizers exactly on the plain lines. -/
theorem agrees_iff (line : AssemblyLine) (rest : List Char) : line.Agrees rest ↔ line.Plain := by
  have hwalk := line.tokenizeQemuAssemblyCode_eq rest
  have htokens := line.tokenizeQemuAssemblyCodeSS_eq
  have hsame : line.Agrees rest ↔ ¬ (line.instructionPrefix.isSome ∧ line.operands = []) ∧
      walkOperands line.operands =
        operandsOfTokens (tokens isDelimiter ([',', ' '].intercalate line.operands)) := by
    rw [Agrees, hwalk, htokens]
    split
    case isTrue h => simp [h]
    case isFalse h =>
      refine ⟨fun ⟨fields, hfields, hfields'⟩ => ⟨h, ?_⟩, fun ⟨_, hread⟩ => ⟨_, rfl, by rw [hread]⟩⟩
      have hread := hfields.trans hfields'.symm
      simpa only [Option.some.injEq, AssemblyTokens.mk.injEq, true_and] using hread
  have hpreed : ¬ (line.instructionPrefix.isSome ∧ line.operands = []) ↔
      (line.instructionPrefix ≠ none → line.operands ≠ []) := by
    rw [not_and, Option.isSome_iff_ne_none]
  have hcommas : ∀ o ∈ line.operands, ',' ∉ o := fun o ho => (line.operands_ok o ho).1
  rw [hsame, hpreed, walkOperands_iff hcommas]
  exact ⟨fun ⟨hpre, hshort, htidy, hfirst⟩ => ⟨hshort, hpre, htidy, hfirst⟩,
    fun h => ⟨h.prefixed, h.short, h.tidy, h.first⟩⟩

/-- `imul eax, ebx, 4` -/
def imulLine : AssemblyLine :=
  ⟨none, "imul".toList, ["eax".toList, "ebx".toList, "4".toList], by simp, by decide,
    high_of_all rfl, by decide, by decide, by decide⟩

/-- `rep movsb` -/
def repLine : AssemblyLine :=
  ⟨some "rep".toList, "movsb".toList, [], by decide, by decide, high_of_all rfl, by decide,
    by decide, by decide⟩

/-- The walk returns the third operand with a blank before it, and throws on a prefix without
operands. -/
theorem not_agrees_lines : ¬ imulLine.Agrees [] ∧ ¬ repLine.Agrees [] := by
  constructor
  · rintro ⟨fields, hwalk, htokens⟩
    exact absurd (hwalk.trans htokens.symm) (by decide)
  · rintro ⟨fields, hwalk, htokens⟩
    exact absurd (hwalk.trans htokens.symm) (by decide)

end AssemblyLine

end Tejas.X86.ObjParser
