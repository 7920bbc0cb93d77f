import Mathlib.Data.List.Forall2
import Tejas.LruCache
import Tejas.X86Handlers

/-!
# The cache of translated instructions

`ObjParser.fuseInstruction` for the emulator type NONE translates the text of each
instruction, and `TranslatedInstructionCache` keeps the translations under a key made
of the tokens of the text. The cache is given and gives copies of the lists.
-/

namespace Tejas

namespace X86

open LruCache (Table)

/-! ## The source -/

/-- The tokens of an assembly packet, with its address. -/
structure AssemblyInstruction where
  ip : ℤ
  instructionPrefix : Option Text
  operation : Text
  operand1 : Option Text
  operand2 : Option Text
  operand3 : Option Text
  deriving DecidableEq, Repr

/-- A string that is appended to another one. -/
def javaString (s : Option Text) : Text := s.getD "null".toList

/-- The first four of the five tokens. -/
def concatenateStringArray (i : AssemblyInstruction) : Text :=
  javaString i.instructionPrefix ++ i.operation ++ javaString i.operand1 ++ javaString i.operand2

def setCISCProgramCounter (instructionPointer : ℤ) (m : TranslatedMicroOp) : TranslatedMicroOp :=
  { m with ciscProgramCounter := instructionPointer }

section Source

variable (others : Text → Option Handler) {n : ℕ}

/-- The translation of an instruction by itself. -/
def riscify (i : AssemblyInstruction) : Option (List TranslatedMicroOp) :=
  riscifyInstruction others i.ip i.operation i.operand1 i.operand2 i.operand3 []

/-- `assemblyPacketList` of `fuseInstruction`, and the cache behind it. -/
def assemblyPacketList (cache : Table Text (List TranslatedMicroOp) n) (i : AssemblyInstruction) :
    Option (List TranslatedMicroOp × Table Text (List TranslatedMicroOp) n) :=
  match cache.find? (concatenateStringArray i) with
  | some list =>
    some (list.map (setCISCProgramCounter i.ip), cache.touch (concatenateStringArray i))
  | none => do
    let list ← riscify others i
    return (list, cache.put (concatenateStringArray i) list)

/-- The lists of a sequence of instructions. -/
def fuseInstructions (cache : Table Text (List TranslatedMicroOp) n) :
    List AssemblyInstruction →
      Option (List (List TranslatedMicroOp) × Table Text (List TranslatedMicroOp) n)
  | [] => some ([], cache)
  | i :: rest => do
    let (list, cache) ← assemblyPacketList others cache i
    let (lists, cache) ← fuseInstructions cache rest
    return (list :: lists, cache)

end Source

/-! ## The condition -/

/-- All that `riscifyInstruction` looks at is the same. -/
def SameOperands (i j : AssemblyInstruction) : Prop :=
  i.operation = j.operation ∧ i.operand1 = j.operand1 ∧ i.operand2 = j.operand2 ∧
    i.operand3 = j.operand3

section Origins

variable {n : ℕ}

/-- The instructions whose translations are in the cache, under the same keys. -/
def originsAfter (origins : Table Text AssemblyInstruction n) (i : AssemblyInstruction) :
    Table Text AssemblyInstruction n :=
  match origins.find? (concatenateStringArray i) with
  | some _ => origins.touch (concatenateStringArray i)
  | none => origins.put (concatenateStringArray i) i

/-- An instruction only finds translations of instructions with the same operation and
operands. -/
def Separated : Table Text AssemblyInstruction n → List AssemblyInstruction → Prop
  | _, [] => True
  | origins, i :: rest =>
    (∀ j, origins.find? (concatenateStringArray i) = some j → SameOperands j i) ∧
      Separated (originsAfter origins i) rest

end Origins

/-! ## Transparency -/

section Transparency

variable {others : Text → Option Handler} {n : ℕ} {i j : AssemblyInstruction}
  {list : List TranslatedMicroOp} {cache cache' : Table Text (List TranslatedMicroOp) n}
  {origins : Table Text AssemblyInstruction n}

/-- Only the program counters depend on the address. -/
theorem riscify_sameOperands (h : SameOperands j i) :
    riscify others i = (riscify others j).map (List.map (setCISCProgramCounter i.ip)) := by
  obtain ⟨hoperation, h1, h2, h3⟩ := h
  rw [riscify, riscify, hoperation, h1, h2, h3, riscifyInstruction, riscifyInstruction]
  split
  case h_1 => rfl
  case h_2 handler =>
    split
    case h_1 microOps =>
      simp only [List.nil_append, Option.map_some, List.map_map]
      rfl
    case h_2 => rfl
    case h_3 => rfl

theorem riscify_ip (h : riscify others i = some list) :
    ∀ m ∈ list, m.ciscProgramCounter = i.ip := by
  intro m hm
  have hsame : SameOperands i i := ⟨rfl, rfl, rfl, rfl⟩
  have hself : riscify others i = (riscify others i).map (List.map _) := riscify_sameOperands hsame
  rw [h] at hself
  have hlist : list = list.map (setCISCProgramCounter i.ip) := Option.some.inj hself
  rw [hlist] at hm
  obtain ⟨m', -, rfl⟩ := List.mem_map.mp hm
  rfl

/-- The cache holds the translations of the instructions in `origins`. -/
structure Caches (others : Text → Option Handler) (origins : Table Text AssemblyInstruction n)
    (cache : Table Text (List TranslatedMicroOp) n) : Prop where
  values : cache = origins.mapValues (fun i => (riscify others i).getD [])
  translated : ∀ entry ∈ origins.entries, (riscify others entry.2).isSome = true

theorem caches_step (h : Caches others origins cache)
    (hsame : ∀ j, origins.find? (concatenateStringArray i) = some j → SameOperands j i)
    (hlist : assemblyPacketList others cache i = some (list, cache')) :
    riscify others i = some list ∧ Caches others (originsAfter origins i) cache' := by
  have hfind : cache.find? (concatenateStringArray i) =
      (origins.find? (concatenateStringArray i)).map (fun i => (riscify others i).getD []) := by
    rw [h.values]
    exact Table.find?_mapValues _ _ _
  rw [assemblyPacketList, hfind] at hlist
  rw [originsAfter]
  cases horigin : origins.find? (concatenateStringArray i) with
  | some j =>
    rw [horigin] at hlist
    cases hlist
    obtain ⟨list, htranslated⟩ :=
      Option.isSome_iff_exists.mp (h.translated _ (Table.find?_mem horigin))
    refine ⟨?_, ?_, ?_⟩
    · have hvalue : riscify others j = some list := htranslated
      rw [riscify_sameOperands (hsame j horigin)]
      simp only [hvalue, Option.map_some, Option.getD_some]
    · rw [h.values]
      exact Table.touch_mapValues _ _ _
    · exact fun entry hentry => h.translated entry (Table.mem_touch hentry)
  | none =>
    rw [horigin] at hlist
    obtain ⟨translation, hriscify, hlist⟩ := Option.bind_eq_some_iff.mp hlist
    cases hlist
    refine ⟨hriscify, ?_, ?_⟩
    · have hvalue : (riscify others i).getD [] = list := by rw [hriscify]; rfl
      rw [h.values]
      have hput := Table.put_mapValues (fun i => (riscify others i).getD []) origins
        (concatenateStringArray i) i
      rwa [hvalue] at hput
    · intro entry hentry
      obtain rfl | hentry := Table.mem_put hentry
      · rw [hriscify]
        rfl
      · exact h.translated entry hentry

/-- The list that is used is the translation of the instruction by itself. -/
def Transparent (others : Text → Option Handler) (i : AssemblyInstruction)
    (list : List TranslatedMicroOp) : Prop :=
  riscify others i = some list ∧ ∀ m ∈ list, m.ciscProgramCounter = i.ip

theorem transparent_of_caches {instructions : List AssemblyInstruction}
    {lists : List (List TranslatedMicroOp)} (h : Caches others origins cache)
    (hseparated : Separated origins instructions)
    (hrun : fuseInstructions others cache instructions = some (lists, cache')) :
    List.Forall₂ (Transparent others) instructions lists := by
  induction instructions generalizing origins cache lists with
  | nil =>
    cases hrun
    exact List.Forall₂.nil
  | cons i rest ih =>
    obtain ⟨⟨list, cache₁⟩, hlist, hrun⟩ := Option.bind_eq_some_iff.mp hrun
    obtain ⟨⟨lists', cache₂⟩, hrest, hend⟩ := Option.bind_eq_some_iff.mp hrun
    cases hend
    obtain ⟨hriscify, hcaches⟩ := caches_step h hseparated.1 hlist
    exact List.Forall₂.cons ⟨hriscify, riscify_ip hriscify⟩ (ih hcaches hseparated.2 hrest)

theorem caches_empty : Caches others (Table.empty : Table Text AssemblyInstruction n)
    Table.empty :=
  ⟨rfl, fun _ hentry => absurd hentry List.not_mem_nil⟩

/-- While every instruction finds only translations of instructions with its own
operation and operands, the cache is transparent. -/
theorem translation_cache_transparent {instructions : List AssemblyInstruction}
    {lists : List (List TranslatedMicroOp)}
    (hseparated : Separated (Table.empty : Table Text AssemblyInstruction n) instructions)
    (hrun : fuseInstructions others (Table.empty : Table Text (List TranslatedMicroOp) n)
      instructions = some (lists, cache')) :
    List.Forall₂ (Transparent others) instructions lists :=
  transparent_of_caches caches_empty hseparated hrun

/-- `push rax` at two addresses: the second takes the translation of the first. -/
theorem translation_cache_transparent_push :
    ∃ lists, (fuseInstructions (fun _ => none)
        (Table.empty : Table Text (List TranslatedMicroOp) 100000)
        [⟨4, none, "push".toList, some "rax".toList, none, none⟩,
          ⟨8, none, "push".toList, some "rax".toList, none, none⟩]).map Prod.fst = some lists ∧
      List.Forall₂ (Transparent (fun _ => none))
        [⟨4, none, "push".toList, some "rax".toList, none, none⟩,
          ⟨8, none, "push".toList, some "rax".toList, none, none⟩] lists := by
  have hseparated : Separated (Table.empty : Table Text AssemblyInstruction 100000)
      [⟨4, none, "push".toList, some "rax".toList, none, none⟩,
        ⟨8, none, "push".toList, some "rax".toList, none, none⟩] := by
    refine ⟨fun j hj => (by cases hj), ?_, trivial⟩
    intro j hj
    have hfirst : j = ⟨4, none, "push".toList, some "rax".toList, none, none⟩ := by
      refine (Option.some.inj (Eq.trans ?_ hj)).symm
      decide +kernel
    subst hfirst
    exact ⟨rfl, rfl, rfl, rfl⟩
  have hruns : (fuseInstructions (fun _ => none)
      (Table.empty : Table Text (List TranslatedMicroOp) 100000)
      [⟨4, none, "push".toList, some "rax".toList, none, none⟩,
        ⟨8, none, "push".toList, some "rax".toList, none, none⟩]).isSome = true := by
    decide +kernel
  obtain ⟨⟨lists, cache⟩, hrun⟩ := Option.isSome_iff_exists.mp hruns
  refine ⟨lists, by rw [hrun]; rfl, translation_cache_transparent hseparated hrun⟩

/-- `imul rax, rbx` and `imul rax, rbx, 0x5` have one key. The second one is given the
translation of the first, which multiplies `rax` by `rbx`. -/
theorem third_operand_collides :
    ∃ lists, (fuseInstructions (fun _ => none)
        (Table.empty : Table Text (List TranslatedMicroOp) 100000)
        [⟨4, none, "imul".toList, some "rax".toList, some "rbx".toList, none⟩,
          ⟨8, none, "imul".toList, some "rax".toList, some "rbx".toList,
            some "0x5".toList⟩]).map Prod.fst = some lists ∧
      ¬ List.Forall₂ (Transparent (fun _ => none))
        [⟨4, none, "imul".toList, some "rax".toList, some "rbx".toList, none⟩,
          ⟨8, none, "imul".toList, some "rax".toList, some "rbx".toList, some "0x5".toList⟩]
        lists := by
  refine ⟨[[⟨4, getIntegerMultiplicationInstruction (integerRegister 0) (integerRegister 1)
      (integerRegister 0)⟩],
    [⟨8, getIntegerMultiplicationInstruction (integerRegister 0) (integerRegister 1)
      (integerRegister 0)⟩]], by decide +kernel, ?_⟩
  intro h
  obtain ⟨-, h⟩ := List.forall₂_cons.mp h
  obtain ⟨⟨hriscify, -⟩, -⟩ := List.forall₂_cons.mp h
  exact absurd hriscify (by decide +kernel)

end Transparency

end X86

end Tejas
