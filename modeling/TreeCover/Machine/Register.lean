/-!
# Registers of x86-64

The sixteen general purpose registers in the order of their hardware encoding, the roles the code
generator gives them, and virtual registers, which stand for values until every one of them has a
place.

`rsp` and `rbp` hold the stack and the frame. `rcx` and `rdx` are taken by shifts, divisions and
calls. `rax` repairs instruction forms that lack a register, `r10` and `r11` hold the base and the
index of an address that are not in registers themselves. The nine registers that remain are
handed out to values.
-/

namespace TreeCover.Machine

/-- A general purpose register; the constructors stand in encoding order. -/
inductive PhysReg where
  | rax | rcx | rdx | rbx | rsp | rbp | rsi | rdi
  | r8 | r9 | r10 | r11 | r12 | r13 | r14 | r15
deriving DecidableEq, Inhabited, Repr

namespace PhysReg

/-- All registers in encoding order. -/
def all : List PhysReg :=
  [rax, rcx, rdx, rbx, rsp, rbp, rsi, rdi, r8, r9, r10, r11, r12, r13, r14, r15]

/-- The number of a register in instruction encodings. -/
def encoding (r : PhysReg) : Nat := all.idxOf r

def ofEncoding? (n : Nat) : Option PhysReg := all[n]?

/-- Names of a register by the number of bytes accessed. -/
structure Names where
  byte : String
  word : String
  long : String
  quad : String

def names : PhysReg → Names
  | rax => ⟨"al", "ax", "eax", "rax"⟩
  | rcx => ⟨"cl", "cx", "ecx", "rcx"⟩
  | rdx => ⟨"dl", "dx", "edx", "rdx"⟩
  | rbx => ⟨"bl", "bx", "ebx", "rbx"⟩
  | rsp => ⟨"spl", "sp", "esp", "rsp"⟩
  | rbp => ⟨"bpl", "bp", "ebp", "rbp"⟩
  | rsi => ⟨"sil", "si", "esi", "rsi"⟩
  | rdi => ⟨"dil", "di", "edi", "rdi"⟩
  | r8 => ⟨"r8b", "r8w", "r8d", "r8"⟩
  | r9 => ⟨"r9b", "r9w", "r9d", "r9"⟩
  | r10 => ⟨"r10b", "r10w", "r10d", "r10"⟩
  | r11 => ⟨"r11b", "r11w", "r11d", "r11"⟩
  | r12 => ⟨"r12b", "r12w", "r12d", "r12"⟩
  | r13 => ⟨"r13b", "r13w", "r13d", "r13"⟩
  | r14 => ⟨"r14b", "r14w", "r14d", "r14"⟩
  | r15 => ⟨"r15b", "r15w", "r15d", "r15"⟩

/-- The name of a register accessed with `width` bytes. -/
def name (r : PhysReg) (width : Nat) : String :=
  match width with
  | 1 => r.names.byte
  | 2 => r.names.word
  | 4 => r.names.long
  | _ => r.names.quad

/-- Registers that may hold values, in the order in which they are handed out. -/
def allocatable : List PhysReg := [rbx, rsi, rdi, r8, r9, r12, r13, r14, r15]

/-- Stands in for an operand that has to be a register. -/
def valueScratch : PhysReg := rax

/-- Holds the base of an address while one instruction uses it. -/
def baseScratch : PhysReg := r10

/-- Holds the index of an address while one instruction uses it. -/
def indexScratch : PhysReg := r11

theorem mem_all (r : PhysReg) : r ∈ all := by cases r <;> decide

theorem ofEncoding?_encoding (r : PhysReg) : ofEncoding? r.encoding = some r := by
  cases r <;> rfl

theorem allocatable_nodup : allocatable.Nodup := by decide

theorem scratch_not_allocatable :
    valueScratch ∉ allocatable ∧ baseScratch ∉ allocatable ∧ indexScratch ∉ allocatable := by
  decide

end PhysReg

/-- A virtual register, numbered within its function. -/
abbrev VReg := Nat

/-- A virtual or a physical register. -/
inductive Reg where
  | virt (v : VReg)
  | phys (r : PhysReg)
deriving DecidableEq, Inhabited, Repr

namespace Reg

def virt? : Reg → Option VReg
  | virt v => some v
  | phys _ => none

/-- A register accessed with `width` bytes; a virtual one shows its width in bits unless it is
whole. -/
def text (r : Reg) (width : Nat) : String :=
  match r with
  | phys p => "%" ++ p.name width
  | virt v => "%v" ++ toString v ++ if width = 8 then "" else ":" ++ toString (width * 8)

end Reg

end TreeCover.Machine
