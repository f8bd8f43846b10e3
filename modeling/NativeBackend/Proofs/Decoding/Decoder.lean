import Mathlib
import NativeBackend.Machine.Stream

/-!
# Decoding

What machine bytes mean, read from left to right without knowing how they were written:
an extension byte, an opcode of one or two bytes, the addressing bytes and the immediate
value. The forms that the processor treats apart are read as it reads them: an index
byte follows where the low bits are `100`, the low bits `101` without a displacement
mean no base or the program counter, the index bits `100` without their extension mean
no index, and without an extension byte the byte registers `100` to `111` are the second
bytes of others. What the instructions of generated code cannot say is refused.
`sweep` decodes one instruction after the other.
-/

namespace NativeBackend.Machine

/-- The register with a number. -/
def Register.ofNumber (n : Nat) : Register :=
  [rax, rcx, rdx, rbx, rsp, rbp, rsi, rdi, r8, r9, r10, r11, r12, r13, r14, r15].getD n .rax

/-- The register with three low bits and an extension bit. -/
def Register.ofBits (extended : Bool) (low : Nat) : Register :=
  .ofNumber (8 * extended.toNat + low)

/-- The condition that the low four bits of a conditional opcode stand for. -/
def Condition.ofCode? : Nat → Option Condition
  | 0x4 => some .equal
  | 0x5 => some .notEqual
  | 0xC => some .less
  | 0xD => some .greaterEqual
  | 0xE => some .lessEqual
  | 0xF => some .greater
  | _ => none

/-- The operation that an opcode stands for, where the right operand is a register. -/
def AluOp.ofOpcode? : UInt8 → Option AluOp
  | 0x01 => some .add
  | 0x09 => some .or
  | 0x21 => some .and
  | 0x29 => some .sub
  | 0x31 => some .xor
  | 0x39 => some .cmp
  | _ => none

/-- The operation that the digit of opcode `81` stands for, where the right operand is an immediate
value. -/
def AluOp.ofDigit? : Nat → Option AluOp
  | 0 => some .add
  | 1 => some .or
  | 4 => some .and
  | 5 => some .sub
  | 6 => some .xor
  | 7 => some .cmp
  | _ => none

/-- The factor that two bits name. -/
def Scale.ofBits (bits : Nat) : Scale := [one, two, four, eight].getD bits .one

namespace Rex

/-- No extension bit is set. -/
def clear : Rex := ⟨false, false, false, false⟩

/-- Whether a byte is an extension byte. -/
def isByte (b : UInt8) : Bool := b.toNat / 16 == 4

/-- The bits of an extension byte. -/
def ofByte (b : UInt8) : Rex :=
  ⟨b.toNat / 8 % 2 == 1, b.toNat / 4 % 2 == 1, b.toNat / 2 % 2 == 1, b.toNat % 2 == 1⟩

end Rex

/-- A reader of bytes, which may refuse them. -/
abbrev Decode := StateT (List UInt8) Option

namespace Decode

/-- The next byte. -/
def byte : Decode UInt8
  | [] => none
  | b :: bs => some (b, bs)

/-- A number of a count of bytes, the least significant first. -/
def number : Nat → Decode Nat
  | 0 => return 0
  | width + 1 => return (← byte).toNat + 256 * (← number width)

/-- A signed word of four bytes. -/
def dword : Decode Int32 := return (UInt32.ofNat (← number 4)).toInt32

/-- A word of eight bytes. -/
def qword : Decode UInt64 := return UInt64.ofNat (← number 8)

/-- A signed byte. -/
def signedByte : Decode Int8 := return (← byte).toInt8

/-- The displacement that follows the addressing bytes under a mode. -/
def displacement : Nat → Decode Int32
  | 0 => return 0
  | 1 => return (← signedByte).toInt32
  | _ => dword

end Decode

/-- What the mode and the low bits of the addressing byte stand for. -/
inductive Place
  | register (r : Register)
  /-- The word at the sum of a base, a scaled index and a displacement. -/
  | memory (base : Option Register) (index : Option (Register × Scale)) (disp : Int32)
  /-- The word at a displacement from the next instruction. -/
  | relative (disp : Int32)
  deriving DecidableEq, Repr

/-- A place as an operand that carries a register or none, if generated code has such operands. -/
def Place.operand? : Place → Option Register → Option Operand
  | register rm, none => some (.reg rm)
  | register rm, some r => some (.pair rm r)
  | memory (some base) none disp, carried => some (.mem base disp carried)
  | memory (some base) (some (index, scale)) disp, carried =>
    some (.indexed base index scale disp carried)
  | memory none _ _, _ | relative _, _ => none

namespace Decode

/-- The place whose addressing byte has a mode and low bits. -/
def place (rex : Rex) (mode low : Nat) : Decode Place :=
  if mode = 3 then return .register (.ofBits rex.base low)
  else if low = 4 then do
    let sib ← byte
    let bits := sib.toNat / 8 % 8
    let index := if bits = 4 ∧ rex.index = false then none
      else some (.ofBits rex.index bits, .ofBits (sib.toNat / 64))
    if sib.toNat % 8 = 5 ∧ mode = 0 then return .memory none index (← dword)
    else return .memory (some (.ofBits rex.base (sib.toNat % 8))) index (← displacement mode)
  else if low = 5 ∧ mode = 0 then return .relative (← dword)
  else return .memory (some (.ofBits rex.base low)) none (← displacement mode)

/-- An operand that carries a register. -/
def carried (rex : Rex) : Decode Operand := do
  let b ← byte
  let p ← place rex (b.toNat / 64) (b.toNat % 8)
  p.operand? (some (.ofBits rex.reg (b.toNat / 8 % 8)))

/-- A digit of the opcode and an operand that carries no register. -/
def digit (rex : Rex) : Decode (Nat × Operand) := do
  let b ← byte
  let p ← place rex (b.toNat / 64) (b.toNat % 8)
  return (b.toNat / 8 % 8, ← p.operand? none)

/-- The register whose low byte an addressing byte names. Without an extension byte four registers
have no such name. -/
def byteRegister (rex : Option Rex) : Decode Register := do
  let b ← byte
  if b.toNat / 64 ≠ 3 then failure
  match rex with
  | some rex => return .ofBits rex.base (b.toNat % 8)
  | none => if b.toNat % 8 < 4 then return .ofBits false (b.toNat % 8) else failure

/-- What follows an opcode whose operands are whole words. -/
def wide (rex : Rex) : UInt8 → Decode Instruction
  | 0x81 => do
    let (d, operand) ← digit rex
    return .aluImm (← AluOp.ofDigit? d) operand (← dword)
  | 0x89 => return .movStore (← carried rex)
  | 0x8B => return .movLoad (← carried rex)
  | 0x8D => do
    let operand ← carried rex
    if operand.isMemory then return .lea operand else failure
  | 0x99 => return .cqo
  | 0xC7 => do
    let (0, operand) ← digit rex | failure
    return .movImm operand (← dword)
  | 0xF7 => do
    match ← digit rex with
    | (2, operand) => return .not operand
    | (3, operand) => return .neg operand
    | (7, operand) => return .idiv operand
    | _ => failure
  | opcode => return .alu (← AluOp.ofOpcode? opcode) (← carried rex)

/-- What follows the first byte of an opcode of two bytes. -/
def escaped (rex : Option Rex) (opcode : UInt8) : Decode Instruction :=
  if opcode.toNat / 16 = 8 then
    return .jcc (← Condition.ofCode? (opcode.toNat % 16)) (.near (← dword))
  else if opcode.toNat / 16 = 9 then
    return .setcc (← Condition.ofCode? (opcode.toNat % 16)) (← byteRegister rex)
  else
    match opcode, (rex.getD .clear).wide with
    | 0x05, _ => return .syscall
    | 0xAF, true => return .imul (← carried (rex.getD .clear))
    | _, _ => failure

/-- What follows an opcode, after an extension byte or none. -/
def operation (rex : Option Rex) (opcode : UInt8) : Decode Instruction :=
  let bits := rex.getD .clear
  let named : Register := .ofBits bits.base (opcode.toNat % 8)
  if opcode.toNat / 8 = 10 then return .push (.reg named)
  else if opcode.toNat / 8 = 11 then return .pop (.reg named)
  else if opcode.toNat / 8 = 23 then
    if bits.wide then return .movAbs named (← qword) else failure
  else if opcode.toNat / 16 = 7 then
    return .jcc (← Condition.ofCode? (opcode.toNat % 16)) (.short (← signedByte))
  else
    match opcode with
    | 0x0F => do escaped rex (← byte)
    | 0x68 => return .pushImm (← dword)
    | 0x8F => do
      let (0, operand) ← digit bits | failure
      return .pop operand
    | 0xC3 => return .ret
    | 0xE8 => return .call (← dword)
    | 0xE9 => return .jmp (.near (← dword))
    | 0xEB => return .jmp (.short (← signedByte))
    | 0xFF => do
      let (6, operand) ← digit bits | failure
      return .push operand
    | opcode => if bits.wide then wide bits opcode else failure

/-- An instruction. -/
def instruction : Decode Instruction := do
  let b ← byte
  if Rex.isByte b then operation (some (.ofByte b)) (← byte) else operation none b

end Decode

/-- The instructions of machine code that lies from an offset on, each in its place, if all of the
code can be decoded. -/
def sweep (origin : Nat) (bs : List UInt8) : Option (List Emitted) :=
  if bs.isEmpty then some []
  else
    match Decode.instruction bs with
    | none => none
    | some (i, rest) =>
      -- Some bytes are always read; the test lets the recursion be seen to end.
      if rest.length < bs.length then
        let length := bs.length - rest.length
        (sweep (origin + length) rest).map (⟨i, origin, bs.take length⟩ :: ·)
      else none
termination_by bs.length

/-- The second byte of another register is not a byte register of generated code. -/
example : Decode.instruction [0x0F, 0x94, 0xC6] = none := by decide

/-- An extension byte without bits makes it the low byte of `rsi`. -/
example : Decode.instruction [0x40, 0x0F, 0x94, 0xC6] = some (.setcc .equal .rsi, []) := by decide

/-- The low bits `101` without a displacement do not mean a base. -/
example : Decode.instruction [0x48, 0x8B, 0x05, 0, 0, 0, 0] = none := by decide

end NativeBackend.Machine
