import Mathlib.Tactic.Common
import Tejas.RiscVOperands
import Tejas.Tokens
import Tejas.X86OperandSpec

/-!
# Which RISC-V operand texts are understood

The texts of the operands: the name of a register, a literal, an offset behind which a
register stands in parentheses, and a literal relative to the program counter. Every test
of the translator is decided by a character that the other forms do not have.
-/

namespace Tejas

namespace RiscV

open X86 (Text Failure)
open X86.Numbers
open X86.OperandTranslator (trim getMemoryOperand)
open Registers OperandTranslator

/-- A register of the tables of the translator. -/
structure NamedRegister where
  type : RegisterType
  name : String
  value : ℕ
  mem : (name, value) ∈ table type

inductive Sign where
  | none
  | minus
  | plus
  deriving DecidableEq, Repr

def Sign.text : Sign → Text
  | .none => []
  | .minus => ['-']
  | .plus => ['+']

/-- What marks a literal as hexadecimal. The digits behind no marker may be decimal. -/
inductive Marker where
  | bare
  | lower
  | upper
  deriving DecidableEq, Repr

def Marker.text : Marker → Text
  | .bare => []
  | .lower => ['0', 'x']
  | .upper => ['0', 'X']

/-- `[0-9a-fA-F]` -/
def isHexDigit (c : Char) : Bool :=
  isDigit c || ('a' ≤ c && c ≤ 'f') || ('A' ≤ c && c ≤ 'F')

/-- A signed literal of any length. -/
structure Literal where
  sign : Sign
  marker : Marker
  digits : Text
  nonempty : digits ≠ []
  hex : ∀ c ∈ digits, isHexDigit c = true

namespace Literal

/-- The literal without its sign. -/
def magnitude (l : Literal) : Text := l.marker.text ++ l.digits

def text (l : Literal) : Text := l.sign.text ++ l.magnitude

end Literal

/-- The forms of an operand. A text relative to the program counter may have blanks around
its sign. -/
inductive OperandText where
  | register (r : NamedRegister)
  | literal (l : Literal)
  | memory (offset : Literal) (r : NamedRegister)
  | pcRelative (before after : ℕ) (l : Literal)

namespace OperandText

def text : OperandText → Text
  | .register r => r.name.toList
  | .literal l => l.text
  | .memory offset r => offset.text ++ '(' :: (r.name.toList ++ [')'])
  | .pcRelative before after l =>
    "pc".toList ++ List.replicate before ' ' ++ '+' :: (List.replicate after ' ' ++ l.text)

/-- The operand is in memory, and its address has this register and no other. -/
def Addresses (register : RegisterType × ℕ) (result : Except Failure (Option Operand)) : Prop :=
  ∃ first second, result = .ok (some (.memory first second)) ∧
    (Operand.memory first second).registers = [register]

/-- What an operand text stands for. -/
def Means (o : OperandText) (result : Except Failure (Option Operand)) : Prop :=
  match o with
  | .register r => result = .ok (some (.base (.register r.type r.value)))
  | .literal _ => result = .ok (some (.base .immediate))
  | .memory _ r => Addresses (r.type, r.value) result
  | .pcRelative _ _ _ => Addresses (.integer, 5) result

/-- The registers that are taken for a number, or have no place in the array. -/
def missed : List String := ["fa0", "fa1", "fa2", "fa3", "fa6", "fa7", "branch_reg"]

/-- The texts that the tests of the translator are right about. -/
def Handled : OperandText → Prop
  | .register r => r.name ∉ missed
  | .literal l => l.sign = .minus ∨ l.sign = .none ∧ l.text.head? ≠ some 'a' ∧
      l.text ≠ "fa4".toList ∧ l.text ≠ "fa5".toList
  | .memory offset r => offset.sign ≠ .plus ∧ offset.marker = .bare ∧
      (∀ c ∈ offset.digits, isDigit c = true) ∧ r.name.toList.length ≤ 2
  | .pcRelative _ _ l => l.sign = .none

end OperandText

/-! ### Characters -/

section Characters

variable {type : RegisterType} {s : Text} {c : Char} {value : ℕ}

/-- A name has no other characters than letters, digits and underscores, and not only digits. -/
theorem wordChars_of_table (type : RegisterType) : ∀ entry ∈ table type,
    entry.1.toList.all isWordChar = true ∧ entry.1.toList.all isDigit = false := by
  cases type <;> decide

theorem wordChars_of_register? (h : register? type s = some value) :
    s.all isWordChar = true ∧ s.all isDigit = false := by
  have hname : (String.ofList s).toList.all isWordChar = true ∧
      (String.ofList s).toList.all isDigit = false :=
    wordChars_of_table type _ (X86.mem_of_lookup h)
  rwa [@String.toList_ofList s] at hname

theorem register?_of_mem (hmem : c ∈ s) (hc : isWordChar c = false) : register? type s = none := by
  rw [Option.eq_none_iff_forall_ne_some]
  intro value h
  have hall := List.all_eq_true.mp (wordChars_of_register? h).1 c hmem
  rw [hc] at hall
  cases hall

theorem register?_of_digits (hdigits : ∀ c ∈ s, isDigit c = true) : register? type s = none := by
  rw [Option.eq_none_iff_forall_ne_some]
  intro value h
  have hsome := (wordChars_of_register? h).2
  rw [List.all_eq_true.mpr hdigits] at hsome
  cases hsome

theorem isValidNumber_eq : isValidNumber s = (s ≠ [] && s.all isNumberChar) := by
  rw [isValidNumber]
  congr 2
  funext c
  simp only [isNumberChar, isDigit, Bool.or_assoc]
  ac_rfl

theorem isValidNumber_of_mem (hmem : c ∈ s) (hc : isNumberChar c = false) :
    isValidNumber s = false := by
  rw [isValidNumber_eq, Bool.and_eq_false_iff]
  right
  rw [← Bool.not_eq_true, List.all_eq_true]
  intro hall
  rw [hall c hmem] at hc
  cases hc

/-- A character of no number but the minus sign keeps a text from being an immediate. -/
theorem isImmediate_of_mem (hmem : c ∈ s) (hc : isNumberChar c = false) (hminus : c ≠ '-') :
    isImmediate s = false := by
  cases s with
  | nil => cases hmem
  | cons first rest =>
    rw [isImmediate, isValidNumber_of_mem hmem hc]
    rcases List.mem_cons.mp hmem with rfl | hrest
    · simp [hminus]
    · simp [isValidNumber_of_mem hrest hc]

theorem trim_eq_self (hfirst : ∀ c ∈ s.head?, 32 < c.toNat)
    (hlast : ∀ c ∈ s.getLast?, 32 < c.toNat) : trim s = s := by
  refine Tokens.trim_eq_self (fun c hc => ?_) fun c hc => ?_
  · have hfirst := hfirst c hc
    exact decide_eq_false (by omega)
  · have hlast := hlast c hc
    exact decide_eq_false (by omega)

end Characters

theorem register_means (r : NamedRegister) :
    simplifyOperand (some r.name.toList) = .ok (some (.base (.register r.type r.value))) ↔
      r.name ∉ OperandText.missed := by
  have htable : ∀ type, ∀ entry ∈ table type,
      simplifyOperand (some entry.1.toList) = .ok (some (.base (.register type entry.2))) ↔
        entry.1 ∉ OperandText.missed := by
    intro type
    cases type <;> decide
  have hr := htable r.type (r.name, r.value) r.mem
  simp only at hr
  exact hr

/-! ### Literals -/

section Literals

variable {l : Literal} {s : Text}

theorem isNumberChar_of_isHexDigit {c : Char} (h : isHexDigit c = true) :
    isNumberChar c = true := by
  rw [isHexDigit] at h
  rw [isNumberChar, h]
  rfl

theorem isWordChar_of_isNumberChar {c : Char} (h : isNumberChar c = true) :
    isWordChar c = true := by
  simp only [isNumberChar, Bool.or_eq_true, Bool.and_eq_true, decide_eq_true_eq] at h
  simp only [isWordChar, Bool.or_eq_true, Bool.and_eq_true, decide_eq_true_eq]
  rcases h with (((hdigit | hlower) | hupper) | rfl) | rfl
  · exact .inl (.inl (.inl hdigit))
  · exact .inl (.inl (.inr ⟨hlower.1, Char.le_trans hlower.2 (show 'f' ≤ 'z' by decide)⟩))
  · exact .inl (.inr ⟨hupper.1, Char.le_trans hupper.2 (show 'F' ≤ 'Z' by decide)⟩)
  · decide
  · decide

theorem toNat_of_isWordChar {c : Char} (h : isWordChar c = true) : 32 < c.toNat := by
  simp only [isWordChar, isDigit, Bool.or_eq_true, Bool.and_eq_true, decide_eq_true_eq,
    Char.le_def, UInt32.le_iff_toNat_le] at h
  rcases h with ((hdigit | hlower) | hupper) | rfl
  · exact lt_of_lt_of_le (by decide) hdigit.1
  · exact lt_of_lt_of_le (by decide) hlower.1
  · exact lt_of_lt_of_le (by decide) hupper.1
  · decide

theorem toNat_of_isNumberChar {c : Char} (h : isNumberChar c = true) : 32 < c.toNat :=
  toNat_of_isWordChar (isWordChar_of_isNumberChar h)

namespace Literal

theorem magnitude_chars (l : Literal) : ∀ c ∈ l.magnitude, isNumberChar c = true := by
  intro c hc
  rcases List.mem_append.mp hc with hc | hc
  · have hmarker : ∀ marker : Marker, marker.text.all isNumberChar = true := by
      intro marker
      cases marker <;> decide
    exact List.all_eq_true.mp (hmarker l.marker) c hc
  · exact isNumberChar_of_isHexDigit (l.hex c hc)

theorem magnitude_ne_nil (l : Literal) : l.magnitude ≠ [] :=
  List.append_ne_nil_of_right_ne_nil _ l.nonempty

theorem isValidNumber_magnitude (l : Literal) : isValidNumber l.magnitude = true := by
  rw [isValidNumber_eq, Bool.and_eq_true, List.all_eq_true]
  exact ⟨by simpa using l.magnitude_ne_nil, l.magnitude_chars⟩

/-- A literal has no blank at its ends. -/
theorem text_chars (l : Literal) : ∀ c ∈ l.text, 32 < c.toNat := by
  intro c hc
  rcases List.mem_append.mp hc with hc | hc
  · have hsign : ∀ sign : Sign, sign.text.all (32 < ·.toNat) = true := by
      intro sign
      cases sign <;> decide
    exact of_decide_eq_true (List.all_eq_true.mp (hsign l.sign) c hc)
  · exact toNat_of_isNumberChar (l.magnitude_chars c hc)

theorem text_ne_nil (l : Literal) : l.text ≠ [] :=
  List.append_ne_nil_of_right_ne_nil _ l.magnitude_ne_nil

end Literal

/-- Only the test for an immediate makes one. -/
theorem simplifyOperand_immediate_iff (htrim : trim s = s) (hs : s ≠ []) :
    simplifyOperand (some s) = .ok (some (.base .immediate)) ↔ isImmediate s = true := by
  have hlocation : ∀ u, simplifyMemoryLocation u ≠ .ok (some (.base .immediate)) := by
    intro u h
    obtain ⟨m, -, hm⟩ := X86.bind_eq_ok.mp h
    rcases X86.getMemoryOperand_spec hm with hnone | hmemory
    · cases hnone
    · cases hmemory
  have hregister : ∀ type value, (do
      let register ← getRegister type value
      return some (Operand.base register)) ≠ .ok (some (.base .immediate)) := by
    intro type value h
    obtain ⟨register, hget, heq⟩ := X86.bind_eq_ok.mp h
    rw [getRegister] at hget
    split at hget
    · obtain rfl := Except.ok.inj hget
      cases heq
    · cases hget
  simp only [simplifyOperand, htrim, if_neg hs]
  refine ⟨fun h => ?_, fun himmediate => by rw [if_pos himmediate]⟩
  by_contra hnot
  rw [if_neg hnot] at h
  split at h
  · exact hregister _ _ h
  · exact hregister _ _ h
  · split_ifs at h
    · exact hlocation _ h
    · exact hlocation _ h

theorem literal_means (l : Literal) :
    simplifyOperand (some l.text) = .ok (some (.base .immediate)) ↔
      (OperandText.literal l).Handled := by
  have htrim : trim l.text = l.text :=
    trim_eq_self (fun c hc => l.text_chars c (List.mem_of_mem_head? hc))
      fun c hc => l.text_chars c (List.mem_of_mem_getLast? hc)
  rw [simplifyOperand_immediate_iff htrim l.text_ne_nil, OperandText.Handled, isImmediate]
  have hmagnitude := l.isValidNumber_magnitude
  cases hsign : l.sign with
  | none =>
    have htext : l.text = l.magnitude := by rw [Literal.text, hsign]; rfl
    have hminus : l.magnitude.head? ≠ some '-' := by
      intro hhead
      have hc := l.magnitude_chars '-' (List.mem_of_mem_head? hhead)
      exact absurd hc (by decide)
    simp [htext, hmagnitude, hminus, and_comm]
  | minus =>
    have htext : l.text = '-' :: l.magnitude := by rw [Literal.text, hsign]; rfl
    simp [htext, hmagnitude]
  | plus =>
    have htext : l.text = '+' :: l.magnitude := by rw [Literal.text, hsign]; rfl
    have hplus : isValidNumber ('+' :: l.magnitude) = false :=
      isValidNumber_of_mem List.mem_cons_self (by decide)
    simp [htext, hplus]

end Literals

/-! ### The tokens of a memory location -/

section Locations

variable {m : MemoryTokens} {token s w u : Text} {value n : ℕ} {p : Char → Bool}

/-- The location has found its base, and an offset at most. -/
def Based (value : ℕ) (m : MemoryTokens) : Prop :=
  m.base = some (.register .integer value) ∧ (m.offset = none ∨ m.offset = some .immediate)

theorem addToken_nil : addToken m [] = .ok m := rfl

/-- A number is an offset at most, unless it is a register that comes behind the base. -/
theorem addToken_number (htoken : token ≠ []) (hchars : ∀ c ∈ token, isNumberChar c = true)
    (hregister : m.base.isSome = true ∨ register? .integer token = none) :
    ∃ m', addToken m token = .ok m' ∧ m'.base = m.base ∧
      (m'.offset = m.offset ∨ m'.offset = some .immediate) := by
  have htrim : trim token = token :=
    trim_eq_self (fun c hc => toNat_of_isNumberChar (hchars c (List.mem_of_mem_head? hc)))
      fun c hc => toNat_of_isNumberChar (hchars c (List.mem_of_mem_getLast? hc))
  have hnumber : isValidNumber token = true := by
    rw [isValidNumber_eq, Bool.and_eq_true, List.all_eq_true]
    exact ⟨by simpa using htoken, hchars⟩
  rw [addToken, htrim]
  split
  · rename_i value hvalue
    rw [hvalue] at hregister
    have hbase : m.base.isNone = false := by
      cases hbase : m.base with
      | none => simp [hbase] at hregister
      | some => rfl
    simp only [hbase, Bool.false_eq_true, if_false]
    exact ⟨m, rfl, rfl, .inl rfl⟩
  · simp only [hnumber, if_true]
    split_ifs
    · exact ⟨m, rfl, rfl, .inl rfl⟩
    · exact ⟨_, rfl, rfl, .inr rfl⟩

/-- The first register is the base. -/
theorem addToken_base (htrim : trim token = token)
    (hregister : register? .integer token = some value)
    (hvalue : value < integerRegistersHashTable.length) (hm : m.base = none) :
    addToken m token = .ok { m with base := some (.register .integer value) } := by
  have hget : getRegister .integer value = .ok (.register .integer value) := if_pos hvalue
  rw [addToken, htrim, hregister]
  simp only [hm, Option.isNone_none, if_true, hget]
  rfl

/-- A location with a base has its address. -/
theorem addresses_of_based (h : Based value m) :
    OperandText.Addresses (.integer, value) (getMemoryOperand m.addressing.1 m.addressing.2) := by
  obtain ⟨hbase, hoffset | hoffset⟩ := h
  · rw [MemoryTokens.addressing, hbase, hoffset]
    exact ⟨_, _, rfl, rfl⟩
  · rw [MemoryTokens.addressing, hbase, hoffset]
    exact ⟨_, _, rfl, rfl⟩

/-- Every separator of a run of them leaves an empty token. -/
theorem splitOnP_separators {separators : Text} (hseparators : ∀ c ∈ separators, p c = true)
    (hu : ∀ c ∈ u, p c = false) :
    (separators ++ u).splitOnP p = List.replicate separators.length [] ++ [u] := by
  induction separators with
  | nil => exact List.splitOnP_eq_singleton hu
  | cons c separators ih =>
    have hcons := List.splitOnP_append_cons_of_forall_mem (p := p)
      (fun _ (hx : _ ∈ ([] : Text)) => absurd hx List.not_mem_nil) c
      (hseparators c List.mem_cons_self) (separators ++ u)
    rw [List.nil_append] at hcons
    rw [List.cons_append, hcons, ih fun x hx => hseparators x (List.mem_cons_of_mem _ hx)]
    rfl

theorem foldlM_replicate_nil (n : ℕ) (m : MemoryTokens) (rest : List Text) :
    (List.replicate n [] ++ rest).foldlM addToken m = rest.foldlM addToken m := by
  induction n with
  | zero => rfl
  | succ n ih =>
    rw [List.replicate_succ, List.cons_append, List.foldlM_cons, addToken_nil]
    exact ih

/-- A literal behind a base and blanks. -/
theorem foldlM_base_number (htrim : trim w = w) (hregister : register? .integer w = some value)
    (hvalue : value < integerRegistersHashTable.length) (hu : u ≠ [])
    (hchars : ∀ c ∈ u, isNumberChar c = true) (n : ℕ) :
    ∃ m, (w :: (List.replicate n [] ++ [u])).foldlM addToken ⟨none, none⟩ = .ok m ∧
      Based value m := by
  obtain ⟨m, hm, hbase, hoffset⟩ := addToken_number (m := ⟨some (.register .integer value), none⟩)
    hu hchars (.inl rfl)
  refine ⟨m, ?_, hbase, hoffset⟩
  rw [List.foldlM_cons, addToken_base htrim hregister hvalue rfl]
  change (List.replicate n [] ++ [u]).foldlM addToken _ = _
  rw [foldlM_replicate_nil, List.foldlM_cons, hm]
  rfl

/-- A base behind an offset, which may have a sign. -/
theorem foldlM_number_base (htrim : trim w = w) (hregister : register? .integer w = some value)
    (hvalue : value < integerRegistersHashTable.length) (hu : u ≠ [])
    (hdigits : ∀ c ∈ u, isDigit c = true) (n : ℕ) :
    ∃ m, (List.replicate n [] ++ [u, w]).foldlM addToken ⟨none, none⟩ = .ok m ∧
      Based value m := by
  have hchars : ∀ c ∈ u, isNumberChar c = true := by
    intro c hc
    rw [isNumberChar, hdigits c hc]
    rfl
  obtain ⟨m, hm, hbase, hoffset⟩ := addToken_number (m := ⟨none, none⟩) hu hchars
    (.inr (register?_of_digits hdigits))
  refine ⟨{ m with base := some (.register .integer value) }, ?_, rfl, hoffset⟩
  rw [foldlM_replicate_nil, List.foldlM_cons, hm]
  change [w].foldlM addToken m = _
  rw [List.foldlM_cons, addToken_base htrim hregister hvalue hbase]
  rfl

end Locations

/-! ### Texts of memory operands -/

section Memory

variable {s : Text}

/-- A text with a character of no number and no name is a location or an error. -/
theorem simplifyOperand_location {c : Char} (htrim : trim s = s) (hmem : c ∈ s)
    (hnumber : isNumberChar c = false) (hminus : c ≠ '-') (hword : isWordChar c = false) :
    simplifyOperand (some s) =
      if isMemLocation s then
        simplifyMemoryLocation (s.map fun c => if c = '(' ∨ c = ')' then ' ' else c)
      else if isMemAddressRef s then simplifyMemoryLocation s
      else .error .exception := by
  have hs : s ≠ [] := List.ne_nil_of_mem hmem
  simp only [simplifyOperand, htrim, if_neg hs, isImmediate_of_mem hmem hnumber hminus,
    Bool.false_eq_true, if_false, register?_of_mem hmem hword]

/-- The characters of an address relative to a name. -/
theorem isMemAddressRef_chars (h : isMemAddressRef s = true) : ∀ c ∈ s,
    isLetterToP c = true ∨ c = ' ' ∨ c = '+' ∨ c = '-' ∨ isNumberChar c = true := by
  rw [isMemAddressRef, Bool.and_eq_true] at h
  obtain ⟨-, h⟩ := h
  split at h
  · rename_i sign rest hrest
    simp only [Bool.and_eq_true, Bool.or_eq_true, decide_eq_true_eq, List.all_eq_true] at h
    obtain ⟨⟨hsign, -⟩, hnumber⟩ := h
    intro c hc
    rw [← List.takeWhile_append_dropWhile (p := isLetterToP) (l := s), List.mem_append] at hc
    rcases hc with hc | hc
    · exact .inl (List.mem_takeWhile_imp hc)
    rw [← List.takeWhile_append_dropWhile (p := fun c => c = ' ') (l := s.dropWhile isLetterToP),
      hrest, List.mem_append, List.mem_cons] at hc
    rcases hc with hc | rfl | hc
    · exact .inr (.inl (by simpa using List.mem_takeWhile_imp hc))
    · exact .inr (.inr (by tauto))
    rw [← List.takeWhile_append_dropWhile (p := fun c => c = ' ') (l := rest),
      List.mem_append] at hc
    rcases hc with hc | hc
    · exact .inr (.inl (by simpa using List.mem_takeWhile_imp hc))
    · exact .inr (.inr (.inr (.inr (hnumber c hc))))
  · cases h

/-- A memory location has only dashes and digits before the parenthesis, and a short name
behind it. -/
theorem isMemLocation_split (h : isMemLocation s = true) : ∃ number name,
    s = number ++ '(' :: (name ++ [')']) ∧ (∀ c ∈ number, c = '-' ∨ isDigit c = true) ∧
      name.length ≤ 2 := by
  rw [isMemLocation] at h
  have hsplit : s = (s.takeWhile (· = '-') ++ (s.dropWhile (· = '-')).takeWhile isDigit) ++
      (s.dropWhile (· = '-')).dropWhile isDigit := by
    rw [List.append_assoc, List.takeWhile_append_dropWhile, List.takeWhile_append_dropWhile]
  have hchars : ∀ c ∈ s.takeWhile (· = '-') ++ (s.dropWhile (· = '-')).takeWhile isDigit,
      c = '-' ∨ isDigit c = true := by
    intro c hc
    rcases List.mem_append.mp hc with hc | hc
    · exact .inl (by simpa using List.mem_takeWhile_imp hc)
    · exact .inr (List.mem_takeWhile_imp hc)
  split at h
  · rename_i c hrest
    rw [hrest] at hsplit
    exact ⟨_, [c], hsplit, hchars, by simp⟩
  · rename_i c d hrest
    rw [hrest] at hsplit
    exact ⟨_, [c, d], hsplit, hchars, by simp⟩
  · cases h

/-- A name has a character and only those of a word. -/
theorem NamedRegister.wordChars (r : NamedRegister) :
    r.name.toList ≠ [] ∧ ∀ c ∈ r.name.toList, isWordChar c = true := by
  have htable := wordChars_of_table r.type (r.name, r.value) r.mem
  simp only [List.all_eq_true] at htable
  refine ⟨fun hnil => ?_, htable.1⟩
  rw [hnil] at htable
  cases htable.2

theorem not_mem_text_of_not_number {c : Char} (l : Literal) (hnumber : isNumberChar c = false)
    (hsign : c ≠ '-' ∧ c ≠ '+') : c ∉ l.text := by
  intro hc
  rcases List.mem_append.mp hc with hc | hc
  · cases hs : l.sign <;> rw [hs] at hc <;> simp [Sign.text, hsign.1, hsign.2] at hc
  · rw [l.magnitude_chars c hc] at hnumber
    cases hnumber

theorem isMemLocation_iff (offset : Literal) (r : NamedRegister) :
    isMemLocation (OperandText.memory offset r).text = true ↔
      (OperandText.memory offset r).Handled := by
  obtain ⟨hname, hword⟩ := r.wordChars
  constructor
  · intro h
    obtain ⟨number, name, heq, hnumber, hlength⟩ := isMemLocation_split h
    have hparen : '(' ∉ r.name.toList ++ [')'] := by
      intro hmem
      rcases List.mem_append.mp hmem with hmem | hmem
      · exact absurd (hword _ hmem) (by decide)
      · exact absurd (List.mem_singleton.mp hmem) (by decide)
    obtain ⟨htext, -, hrest⟩ := (List.append_cons_inj_of_notMem
      (not_mem_text_of_not_number offset (by decide) (by decide)) hparen).mp heq
    have hnames : r.name.toList = name := List.append_cancel_right hrest
    rw [← htext] at hnumber
    have hsign : ∀ c ∈ offset.sign.text, c = '-' ∨ isDigit c = true :=
      fun c hc => hnumber c (List.mem_append_left _ hc)
    have hmarker : ∀ c ∈ offset.marker.text, c = '-' ∨ isDigit c = true :=
      fun c hc => hnumber c (List.mem_append_right _ (List.mem_append_left _ hc))
    refine ⟨fun hplus => ?_, ?_, fun c hc => ?_, hnames ▸ hlength⟩
    · rw [hplus] at hsign
      exact absurd (hsign '+' (by simp [Sign.text])) (by decide)
    · cases hbare : offset.marker with
      | bare => rfl
      | lower =>
        rw [hbare] at hmarker
        exact absurd (hmarker 'x' (by simp [Marker.text])) (by decide)
      | upper =>
        rw [hbare] at hmarker
        exact absurd (hmarker 'X' (by simp [Marker.text])) (by decide)
    · have hdigit := hnumber c (List.mem_append_right _ (List.mem_append_right _ hc))
      refine hdigit.resolve_left ?_
      rintro rfl
      exact absurd (offset.hex _ hc) (by decide)
  · rintro ⟨hsign, hmarker, hdigits, hlength⟩
    have hdashes : ∀ c ∈ offset.sign.text, decide (c = '-') = true := by
      cases hs : offset.sign <;> simp_all [Sign.text]
    obtain ⟨first, rest, hfirst⟩ := List.exists_cons_of_ne_nil offset.nonempty
    have hminus : decide (first = '-') = false := by
      rw [decide_eq_false_iff_not]
      rintro rfl
      exact absurd (hdigits '-' (by rw [hfirst]; exact List.mem_cons_self)) (by decide)
    have hdrop : ((OperandText.memory offset r).text.dropWhile (· = '-')).dropWhile isDigit =
        '(' :: (r.name.toList ++ [')']) := by
      rw [OperandText.text, Literal.text, Literal.magnitude, hmarker, Marker.text,
        List.nil_append, List.append_assoc, List.dropWhile_append_of_pos hdashes]
      rw [hfirst, List.cons_append, List.dropWhile_cons_of_neg (by rw [hminus]; decide),
        ← List.cons_append, ← hfirst, List.dropWhile_append_of_pos hdigits]
      rfl
    rw [isMemLocation, hdrop]
    match hcases : r.name.toList, hname, hlength with
    | [c], _, _ => exact hword c (by rw [hcases]; simp)
    | [c, d], _, _ =>
      have hc := hword c (by rw [hcases]; simp)
      have hd := hword d (by rw [hcases]; simp)
      split
      · rename_i heq
        cases heq
      · rename_i heq
        cases heq
        rw [hc, hd]
        rfl
      · rename_i hother
        exact absurd rfl (hother c d)

/-- The short names are those of integer registers with a place in the array. -/
theorem NamedRegister.short (r : NamedRegister) (h : r.name.toList.length ≤ 2) :
    r.type = .integer ∧ r.value < integerRegistersHashTable.length ∧
      register? .integer r.name.toList = some r.value := by
  have hfloat : ∀ entry ∈ floatRegistersHashTable, 2 < entry.1.toList.length := by
    decide
  have hinteger : ∀ entry ∈ integerRegistersHashTable, entry.1.toList.length ≤ 2 →
      entry.2 < integerRegistersHashTable.length ∧
        integerRegistersHashTable.lookup entry.1 = some entry.2 := by
    decide
  have hmem := r.mem
  cases htype : r.type with
  | float =>
    rw [htype] at hmem
    exact absurd (hfloat _ hmem) (by simpa using h)
  | integer =>
    rw [htype] at hmem
    obtain ⟨hvalue, hlookup⟩ := hinteger _ hmem h
    refine ⟨rfl, hvalue, ?_⟩
    rw [register?, String.ofList_toList]
    exact hlookup

/-- What a text is split at. -/
def isSeparator (c : Char) : Bool := c = '+' || c = '-' || c = ' '

/-- The empty tokens at the end are left out. -/
theorem splitTokens_eq (tokens : List Text) {w : Text} {n : ℕ}
    (h : s.splitOnP isSeparator = tokens ++ [w] ++ List.replicate n []) (hw : w ≠ [])
    (htokens : tokens ≠ []) : splitTokens s = tokens ++ [w] := by
  have hdrop : ∀ n, (tokens ++ [w] ++ List.replicate n []).rdropWhile List.isEmpty =
      tokens ++ [w] := by
    intro n
    induction n with
    | zero =>
      rw [List.replicate_zero, List.append_nil,
        List.rdropWhile_concat_neg _ _ _ (by simpa using hw)]
    | succ n ih =>
      rw [List.replicate_succ', ← List.append_assoc, List.rdropWhile_concat_pos _ _ _ rfl, ih]
  have hlength : (tokens ++ [w] ++ List.replicate n []).length ≠ 1 := by
    have hpos := List.length_pos_of_ne_nil htokens
    simp only [List.length_append, List.length_singleton, List.length_replicate]
    omega
  rw [splitTokens]
  change (if (s.splitOnP isSeparator).length = 1 then s.splitOnP isSeparator
    else (s.splitOnP isSeparator).rdropWhile List.isEmpty) = _
  rw [h, if_neg hlength, hdrop]

theorem isSeparator_of_isWordChar {c : Char} (h : isWordChar c = true) : isSeparator c = false := by
  simp only [isSeparator, Bool.or_eq_false_iff, decide_eq_false_iff_not]
  refine ⟨⟨?_, ?_⟩, ?_⟩ <;> (rintro rfl; exact absurd h (by decide))

/-- The parentheses of a memory location become blanks. -/
theorem map_parentheses (offset : Literal) (r : NamedRegister) :
    (OperandText.memory offset r).text.map (fun c => if c = '(' ∨ c = ')' then ' ' else c) =
      offset.text ++ ' ' :: (r.name.toList ++ [' ']) := by
  have hkeep : ∀ t : Text, (∀ c ∈ t, c ≠ '(' ∧ c ≠ ')') →
      t.map (fun c => if c = '(' ∨ c = ')' then ' ' else c) = t := by
    intro t ht
    refine (List.map_congr_left fun c hc => ?_).trans (List.map_id t)
    rw [if_neg (by have := ht c hc; tauto), id]
  have hoffset : ∀ c ∈ offset.text, c ≠ '(' ∧ c ≠ ')' := by
    intro c hc
    constructor <;>
      (rintro rfl; exact not_mem_text_of_not_number offset (by decide) (by decide) hc)
  have hname : ∀ c ∈ r.name.toList, c ≠ '(' ∧ c ≠ ')' := by
    intro c hc
    constructor <;> (rintro rfl; exact absurd (r.wordChars.2 _ hc) (by decide))
  rw [OperandText.text, List.map_append, List.map_cons, List.map_append, hkeep _ hoffset,
    hkeep _ hname]
  rfl

theorem memory_tokens (offset : Literal) (r : NamedRegister)
    (h : (OperandText.memory offset r).Handled) :
    ∃ n, splitTokens ((OperandText.memory offset r).text.map
      fun c => if c = '(' ∨ c = ')' then ' ' else c) =
        List.replicate n [] ++ [offset.digits, r.name.toList] := by
  obtain ⟨hsign, hmarker, -, -⟩ := h
  have hdigits : ∀ c ∈ offset.digits, isSeparator c = false := fun c hc =>
    isSeparator_of_isWordChar
      (isWordChar_of_isNumberChar (isNumberChar_of_isHexDigit (offset.hex c hc)))
  have hname : ∀ c ∈ r.name.toList, isSeparator c = false :=
    fun c hc => isSeparator_of_isWordChar (r.wordChars.2 c hc)
  have hsplit : (offset.digits ++ ' ' :: (r.name.toList ++ [' '])).splitOnP isSeparator =
      [offset.digits, r.name.toList, []] := by
    rw [List.splitOnP_append_cons_of_forall_mem hdigits _ rfl,
      List.splitOnP_append_cons_of_forall_mem hname _ rfl, List.splitOnP_nil]
  rw [map_parentheses]
  cases hs : offset.sign with
  | plus => exact absurd hs hsign
  | none =>
    have htext : offset.text = offset.digits := by
      rw [Literal.text, Literal.magnitude, hs, hmarker]
      rfl
    refine ⟨0, ?_⟩
    rw [htext]
    exact splitTokens_eq [offset.digits] (n := 1) hsplit r.wordChars.1 (by simp)
  | minus =>
    have htext : offset.text = '-' :: offset.digits := by
      rw [Literal.text, Literal.magnitude, hs, hmarker]
      rfl
    refine ⟨1, ?_⟩
    rw [htext]
    refine splitTokens_eq [[], offset.digits] (n := 1) ?_ r.wordChars.1 (by simp)
    have hcons := List.splitOnP_append_cons_of_forall_mem (p := isSeparator)
      (fun _ (hx : _ ∈ ([] : Text)) => absurd hx List.not_mem_nil) '-' rfl
      (offset.digits ++ ' ' :: (r.name.toList ++ [' ']))
    rw [hsplit] at hcons
    exact hcons

theorem memory_means (offset : Literal) (r : NamedRegister) :
    OperandText.Addresses (r.type, r.value)
      (simplifyOperand (some (OperandText.memory offset r).text)) ↔
      (OperandText.memory offset r).Handled := by
  have htrim : trim (OperandText.memory offset r).text = (OperandText.memory offset r).text := by
    refine trim_eq_self (fun c hc => ?_) fun c hc => ?_
    · rw [OperandText.text, List.head?_append_of_ne_nil _ offset.text_ne_nil] at hc
      exact offset.text_chars c (List.mem_of_mem_head? hc)
    · have hlast : (OperandText.memory offset r).text =
          (offset.text ++ '(' :: r.name.toList) ++ [')'] := by
        simp [OperandText.text]
      rw [hlast, List.getLast?_concat] at hc
      obtain rfl := Option.some.inj hc
      decide
  have hmem : '(' ∈ (OperandText.memory offset r).text := by simp [OperandText.text]
  have hreference : isMemAddressRef (OperandText.memory offset r).text = false := by
    rw [← Bool.not_eq_true]
    intro h
    exact absurd (isMemAddressRef_chars h '(' hmem) (by decide)
  rw [simplifyOperand_location htrim hmem (by decide) (by decide) (by decide), hreference,
    ← isMemLocation_iff]
  constructor
  · intro h
    by_contra hlocation
    rw [if_neg hlocation, if_neg (by decide)] at h
    obtain ⟨first, second, heq, -⟩ := h
    cases heq
  · intro hlocation
    have hhandled := (isMemLocation_iff offset r).mp hlocation
    obtain ⟨htype, hvalue, hregister⟩ := r.short hhandled.2.2.2
    obtain ⟨n, htokens⟩ := memory_tokens offset r hhandled
    have hname : trim r.name.toList = r.name.toList :=
      trim_eq_self (fun c hc => toNat_of_isWordChar (r.wordChars.2 c (List.mem_of_mem_head? hc)))
        fun c hc => toNat_of_isWordChar (r.wordChars.2 c (List.mem_of_mem_getLast? hc))
    obtain ⟨m, hm, hbased⟩ := foldlM_number_base hname hregister hvalue offset.nonempty
      hhandled.2.2.1 n
    rw [if_pos hlocation, simplifyMemoryLocation, htokens, hm, htype]
    exact addresses_of_based hbased

end Memory

/-! ### Texts relative to the program counter -/

section PcRelative

variable {before after : ℕ} {l : Literal}

theorem dropWhile_blanks (n : ℕ) {t : Text} (h : ∀ c ∈ t.head?, c ≠ ' ') :
    (List.replicate n ' ' ++ t).dropWhile (· = ' ') = t := by
  rw [List.dropWhile_append_of_pos fun c hc => decide_eq_true (List.eq_of_mem_replicate hc)]
  cases t with
  | nil => rfl
  | cons c t =>
    have hc := h c rfl
    rw [List.dropWhile_cons_of_neg (by simpa using hc)]

theorem isMemAddressRef_iff :
    isMemAddressRef (OperandText.pcRelative before after l).text = true ↔ l.sign = .none := by
  have hpc : ∀ c ∈ "pc".toList, isLetterToP c = true := List.all_eq_true.mp rfl
  have hletters : (OperandText.pcRelative before after l).text.dropWhile isLetterToP =
      List.replicate before ' ' ++ '+' :: (List.replicate after ' ' ++ l.text) := by
    rw [OperandText.text, List.append_assoc, List.dropWhile_append_of_pos hpc]
    cases before with
    | zero => rfl
    | succ n => rfl
  have hnumber : (List.replicate after ' ' ++ l.text).dropWhile (· = ' ') = l.text := by
    refine dropWhile_blanks after fun c hc => ?_
    rintro rfl
    exact absurd (l.text_chars ' ' (List.mem_of_mem_head? hc)) (by decide)
  have hname : (OperandText.pcRelative before after l).text.takeWhile isLetterToP ≠ [] := by
    rw [OperandText.text, List.append_assoc, List.takeWhile_append_of_pos hpc]
    simp
  have hall : isMemAddressRef (OperandText.pcRelative before after l).text =
      l.text.all isNumberChar := by
    rw [isMemAddressRef, hletters, dropWhile_blanks before (by simp)]
    simp only [hname, hnumber, l.text_ne_nil, ne_eq, not_false_eq_true, decide_true,
      Bool.true_or, Bool.true_and]
  rw [hall, List.all_eq_true]
  constructor
  · intro hchars
    cases hsign : l.sign with
    | none => rfl
    | minus =>
      have hminus := hchars '-' (by rw [Literal.text, hsign]; exact List.mem_cons_self)
      exact absurd hminus (by decide)
    | plus =>
      have hplus := hchars '+' (by rw [Literal.text, hsign]; exact List.mem_cons_self)
      exact absurd hplus (by decide)
  · intro hsign
    have htext : l.text = l.magnitude := by rw [Literal.text, hsign]; rfl
    rw [htext]
    exact l.magnitude_chars

theorem pcRelative_tokens (h : l.sign = .none) :
    splitTokens (OperandText.pcRelative before after l).text =
      "pc".toList :: (List.replicate (before + after) [] ++ [l.magnitude]) := by
  have hmagnitude : ∀ c ∈ l.magnitude, isSeparator c = false := fun c hc =>
    isSeparator_of_isWordChar (isWordChar_of_isNumberChar (l.magnitude_chars c hc))
  -- the sign and the blanks around it, but for the first of them
  obtain ⟨c, separators, heq, hseparators, hlength⟩ : ∃ c separators,
      List.replicate before ' ' ++ '+' :: List.replicate after ' ' = c :: separators ∧
      (∀ x ∈ c :: separators, isSeparator x = true) ∧ separators.length = before + after := by
    have hblanks : ∀ n, ∀ c ∈ List.replicate n ' ', isSeparator c = true := by
      intro n c hc
      rw [List.eq_of_mem_replicate hc]
      rfl
    have hall : ∀ x ∈ List.replicate before ' ' ++ '+' :: List.replicate after ' ',
        isSeparator x = true := by
      intro x hx
      rcases List.mem_append.mp hx with hx | hx
      · exact hblanks before x hx
      rcases List.mem_cons.mp hx with rfl | hx
      · rfl
      · exact hblanks after x hx
    cases before with
    | zero => exact ⟨'+', _, rfl, hall, by simp⟩
    | succ n => exact ⟨' ', _, rfl, hall, by simp; omega⟩
  have htext : (OperandText.pcRelative before after l).text =
      "pc".toList ++ c :: (separators ++ l.magnitude) := by
    rw [← List.cons_append, ← heq, OperandText.text, Literal.text, h]
    simp [Sign.text]
  have hsplit : (OperandText.pcRelative before after l).text.splitOnP isSeparator =
      ("pc".toList :: List.replicate (before + after) []) ++ [l.magnitude] ++
        List.replicate 0 [] := by
    have hpc : ∀ c ∈ "pc".toList, isSeparator c = false := by
      simp only [String.reduceToList, List.forall_mem_cons]
      exact ⟨rfl, rfl, fun _ hx => absurd hx List.not_mem_nil⟩
    rw [htext, List.splitOnP_append_cons_of_forall_mem hpc c
      (hseparators c List.mem_cons_self), splitOnP_separators
      (fun x hx => hseparators x (List.mem_cons_of_mem _ hx)) hmagnitude, hlength,
      List.replicate_zero, List.append_nil, List.cons_append]
  exact splitTokens_eq _ hsplit l.magnitude_ne_nil (List.cons_ne_nil _ _)

theorem pcRelative_means (before after : ℕ) (l : Literal) :
    OperandText.Addresses (.integer, 5)
      (simplifyOperand (some (OperandText.pcRelative before after l).text)) ↔
      (OperandText.pcRelative before after l).Handled := by
  have htrim : trim (OperandText.pcRelative before after l).text =
      (OperandText.pcRelative before after l).text := by
    refine trim_eq_self (fun c hc => ?_) fun c hc => ?_
    · obtain rfl : 'p' = c := Option.some.inj hc
      decide
    · have hend : (OperandText.pcRelative before after l).text =
          "pc".toList ++ List.replicate before ' ' ++ '+' :: List.replicate after ' ' ++
            l.text := by
        simp [OperandText.text]
      rw [hend, List.getLast?_append_of_ne_nil _ l.text_ne_nil] at hc
      exact l.text_chars c (List.mem_of_mem_getLast? hc)
  have hmem : '+' ∈ (OperandText.pcRelative before after l).text := by simp [OperandText.text]
  have hlocation : isMemLocation (OperandText.pcRelative before after l).text = false := by
    rw [← Bool.not_eq_true]
    intro h
    obtain ⟨number, name, heq, -, -⟩ := isMemLocation_split h
    have hparen : '(' ∈ (OperandText.pcRelative before after l).text := by
      rw [heq]
      exact List.mem_append_right _ List.mem_cons_self
    have hliteral := not_mem_text_of_not_number (c := '(') l (by decide) (by decide)
    simp [OperandText.text, hliteral] at hparen
  rw [simplifyOperand_location htrim hmem (by decide) (by decide) (by decide), hlocation,
    if_neg (by decide)]
  constructor
  · intro h
    by_contra hsign
    rw [if_neg (by rwa [isMemAddressRef_iff])] at h
    obtain ⟨first, second, heq, -⟩ := h
    cases heq
  · intro hsign
    obtain ⟨m, hm, hbased⟩ := foldlM_base_number rfl
      (show register? .integer "pc".toList = some 5 by decide) (by decide) l.magnitude_ne_nil
      l.magnitude_chars (before + after)
    rw [if_pos (isMemAddressRef_iff.mpr hsign), simplifyMemoryLocation, pcRelative_tokens hsign,
      hm]
    exact addresses_of_based hbased

end PcRelative

/-- A text means what it says exactly when the tests of the translator are right about it. -/
theorem simplifyOperand_means_iff (o : OperandText) :
    o.Means (simplifyOperand (some o.text)) ↔ o.Handled := by
  cases o with
  | register r => exact register_means r
  | literal l => exact literal_means l
  | memory offset r => exact memory_means offset r
  | pcRelative before after l => exact pcRelative_means before after l

/-- Six of the registers for floating-point arguments are taken for numbers. -/
theorem not_means_fa0 : ¬ ∀ o : OperandText, o.Means (simplifyOperand (some o.text)) := by
  intro h
  have hfa0 : simplifyOperand (some "fa0".toList) = .ok (some (.base (.register .float 12))) :=
    h (.register ⟨.float, "fa0", 12, by decide⟩)
  exact absurd hfa0 (by decide +kernel)

end RiscV

end Tejas
