/-!
# Registers

The sixteen general 64-bit registers. An encoding splits a register's number into
three low bits, held in an opcode or addressing byte, and one bit held in the
extension byte before the opcode.
-/

namespace NativeBackend.Machine

/-- A general 64-bit register. -/
inductive Register
  | rax | rcx | rdx | rbx | rsp | rbp | rsi | rdi
  | r8 | r9 | r10 | r11 | r12 | r13 | r14 | r15
  deriving DecidableEq, Repr, Inhabited

namespace Register

/-- Every register, in order of its number. -/
def all : List Register :=
  [rax, rcx, rdx, rbx, rsp, rbp, rsi, rdi, r8, r9, r10, r11, r12, r13, r14, r15]

/-- The number by which encodings know a register. -/
def number : Register → Nat
  | rax => 0 | rcx => 1 | rdx => 2 | rbx => 3 | rsp => 4 | rbp => 5 | rsi => 6 | rdi => 7
  | r8 => 8 | r9 => 9 | r10 => 10 | r11 => 11 | r12 => 12 | r13 => 13 | r14 => 14 | r15 => 15

/-- The three low bits of the number. -/
def lowBits (r : Register) : Nat := r.number % 8

/-- Whether the number needs its fourth bit. -/
def isExtended (r : Register) : Bool := 8 ≤ r.number

/-- The name of the whole register. -/
def name : Register → String
  | rax => "rax" | rcx => "rcx" | rdx => "rdx" | rbx => "rbx"
  | rsp => "rsp" | rbp => "rbp" | rsi => "rsi" | rdi => "rdi"
  | r8 => "r8" | r9 => "r9" | r10 => "r10" | r11 => "r11"
  | r12 => "r12" | r13 => "r13" | r14 => "r14" | r15 => "r15"

/-- The name of the low byte of the register. -/
def byteName : Register → String
  | rax => "al" | rcx => "cl" | rdx => "dl" | rbx => "bl"
  | rsp => "spl" | rbp => "bpl" | rsi => "sil" | rdi => "dil"
  | r8 => "r8b" | r9 => "r9b" | r10 => "r10b" | r11 => "r11b"
  | r12 => "r12b" | r13 => "r13b" | r14 => "r14b" | r15 => "r15b"

/-- The register with a given name. -/
def ofName? (s : String) : Option Register := all.find? (·.name == s)

/-- A register's name with its first letter raised, as descriptions of operands write it. -/
def label (r : Register) : String := r.name.capitalize

end Register

end NativeBackend.Machine
