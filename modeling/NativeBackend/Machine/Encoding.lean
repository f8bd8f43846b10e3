import NativeBackend.Bytes.LittleEndian
import NativeBackend.Machine.Instruction

/-!
# Encoding

The machine bytes of an instruction: an extension byte when a wide operation or a
high register needs one, the opcode, the addressing bytes of the operand, and the
immediate value. An operand of the wrong shape for its instruction has no bytes,
and `OperandFault` says why.
-/

namespace NativeBackend.Machine

/-- Why an instruction has no encoding. -/
inductive OperandFault
  /-- The instruction needs a register beside the operand and the operand carries none. -/
  | missingRegister (operand : Operand)
  /-- The operand carries a register where the encoding holds an opcode digit. -/
  | unexpectedRegister (operand : Operand) (reg : Register)
  /-- The stack pointer stands as an index. -/
  | stackPointerIndex
  /-- A load or a product has a lone register for its operand. -/
  | missingDestination (instruction : Instruction)
  /-- The address of something that is not in memory is asked for. -/
  | notMemory (operand : Operand)
  /-- A push has a pair of registers for its operand. -/
  | pushPair (instruction : Instruction)
  /-- A pop has a pair of registers for its operand. -/
  | popPair (instruction : Instruction)
  deriving DecidableEq, Repr

/-- The cause in words. -/
def OperandFault.message : OperandFault → String
  | missingRegister operand => "operand `" ++ operand.text ++ "` is missing its register"
  | unexpectedRegister operand reg =>
    "operand `" ++ operand.text ++ "` carries unexpected register " ++ reg.name
  | stackPointerIndex => "rsp cannot be used as an index register"
  | missingDestination instruction => "`" ++ instruction.text ++ "` needs a destination register"
  | notMemory operand => "lea needs a memory operand, got `" ++ operand.text ++ "`"
  | pushPair instruction =>
    "push takes a single register or memory operand, got `" ++ instruction.text ++ "`"
  | popPair instruction =>
    "pop takes a single register or memory operand, got `" ++ instruction.text ++ "`"

/-- An indexed memory operand, refused when the stack pointer is the index. -/
def Operand.indexed? (base index : Register) (scale : Scale) (disp : Int32)
    (reg : Option Register) : Except OperandFault Operand :=
  if index = .rsp then .error .stackPointerIndex else .ok (.indexed base index scale disp reg)

/-- The four bits of the extension byte. -/
structure Rex where
  wide : Bool
  reg : Bool
  index : Bool
  base : Bool
  deriving DecidableEq, Repr

namespace Rex

/-- The extension byte with its bits. -/
def byte (r : Rex) : UInt8 :=
  UInt8.ofNat (0x40 + 8 * r.wide.toNat + 4 * r.reg.toNat + 2 * r.index.toNat + r.base.toNat)

/-- The extension byte, left out when no bit is set. -/
def bytes (r : Rex) : List UInt8 :=
  if r.wide || r.reg || r.index || r.base then [r.byte] else []

end Rex

/-- What the middle field of the addressing byte holds. -/
inductive RegisterField
  /-- The register that the operand carries. -/
  | carried
  /-- A digit of the opcode. -/
  | digit (value : Nat)
  deriving DecidableEq, Repr

/-- The bytes that address an operand, with the extension bits they need. -/
structure Addressing where
  rexReg : Bool
  rexIndex : Bool
  rexBase : Bool
  bytes : List UInt8
  deriving DecidableEq, Repr

/-- A byte of a two-bit and two three-bit fields. -/
def bitFields (high middle low : Nat) : UInt8 := UInt8.ofNat (64 * high + 8 * middle + low)

/-- Whether a displacement fits a signed byte. -/
def fitsByte (disp : Int) : Bool := -128 ≤ disp && disp ≤ 127

/-- The mode bits and the bytes of a displacement. A base whose low bits are `101` has no form
without a displacement, so a zero byte is written there. -/
def displacement (base : Register) (disp : Int32) : Nat × List UInt8 :=
  if disp = 0 ∧ base.lowBits ≠ 5 then (0, [])
  else if fitsByte disp.toInt then (1, [disp.toUInt32.toUInt8])
  else (2, dwordBytes disp)

namespace Operand

/-- The middle field and its extension bit. -/
def registerField (operand : Operand) : RegisterField → Except OperandFault (Nat × Bool)
  | .carried =>
    match operand.register? with
    | some r => .ok (r.lowBits, r.isExtended)
    | none => .error (.missingRegister operand)
  | .digit d =>
    match operand.register? with
    | some r => .error (.unexpectedRegister operand r)
    | none => .ok (d, false)

/-- The addressing bytes of an operand. A base whose low bits are `100` can only be written with
an index byte, which then names no index. -/
def addressing (operand : Operand) (field : RegisterField) : Except OperandFault Addressing := do
  let (middle, rexReg) ← operand.registerField field
  match operand with
  | .reg rm | .pair rm _ =>
    return ⟨rexReg, false, rm.isExtended, [bitFields 3 middle rm.lowBits]⟩
  | .mem base disp _ =>
    let (mode, tail) := displacement base disp
    let sib := if base.lowBits = 4 then [bitFields 0 4 4] else []
    return ⟨rexReg, false, base.isExtended, bitFields mode middle base.lowBits :: (sib ++ tail)⟩
  | .indexed base index scale disp _ =>
    if index = .rsp then throw .stackPointerIndex
    let (mode, tail) := displacement base disp
    return ⟨rexReg, index.isExtended, base.isExtended,
      bitFields mode middle 4 :: bitFields scale.bits index.lowBits base.lowBits :: tail⟩

end Operand

namespace Instruction

/-- An opcode with an addressed operand. -/
def addressed (wide : Bool) (opcode : List UInt8) (operand : Operand) (field : RegisterField) :
    Except OperandFault (List UInt8) := do
  let a ← operand.addressing field
  return Rex.bytes ⟨wide, a.rexReg, a.rexIndex, a.rexBase⟩ ++ opcode ++ a.bytes

/-- An opcode that holds its register in its low bits. -/
def registerOpcode (opcode : Nat) (r : Register) : List UInt8 :=
  Rex.bytes ⟨false, false, false, r.isExtended⟩ ++ [UInt8.ofNat (opcode + r.lowBits)]

/-- The bytes of an instruction. -/
def encode : Instruction → Except OperandFault (List UInt8)
  | alu op operand => addressed true [op.opcode] operand .carried
  | aluImm op operand value =>
    return (← addressed true [0x81] operand (.digit op.digit)) ++ dwordBytes value
  | movStore operand => addressed true [0x89] operand .carried
  | movLoad (.reg r) => .error (.missingDestination (movLoad (.reg r)))
  | movLoad operand => addressed true [0x8B] operand .carried
  | movImm operand value =>
    return (← addressed true [0xC7] operand (.digit 0)) ++ dwordBytes value
  | movAbs dst value =>
    .ok (Rex.byte ⟨true, false, false, dst.isExtended⟩ :: UInt8.ofNat (0xB8 + dst.lowBits)
      :: qwordBytes value)
  | lea operand =>
    if operand.isMemory then addressed true [0x8D] operand .carried
    else .error (.notMemory operand)
  | imul (.reg r) => .error (.missingDestination (imul (.reg r)))
  | imul operand => addressed true [0x0F, 0xAF] operand .carried
  | idiv operand => addressed true [0xF7] operand (.digit 7)
  | neg operand => addressed true [0xF7] operand (.digit 3)
  | not operand => addressed true [0xF7] operand (.digit 2)
  | cqo => .ok [0x48, 0x99]
  | push (.reg r) => .ok (registerOpcode 0x50 r)
  | push (.pair rm r) => .error (.pushPair (push (.pair rm r)))
  | push operand => addressed false [0xFF] operand (.digit 6)
  | pushImm value => .ok (0x68 :: dwordBytes value)
  | pop (.reg r) => .ok (registerOpcode 0x58 r)
  | pop (.pair rm r) => .error (.popPair (pop (.pair rm r)))
  | pop operand => addressed false [0x8F] operand (.digit 0)
  | setcc cond dst =>
    -- Without the extension byte the low bits 4 to 7 name the second byte of another register.
    let rex := if 4 ≤ dst.number then [Rex.byte ⟨false, false, false, dst.isExtended⟩] else []
    .ok (rex ++ [0x0F, UInt8.ofNat (0x90 + cond.code), bitFields 3 0 dst.lowBits])
  | jmp (.short d) => .ok [0xEB, d.toUInt8]
  | jmp (.near d) => .ok (0xE9 :: dwordBytes d)
  | jcc cond (.short d) => .ok [UInt8.ofNat (0x70 + cond.code), d.toUInt8]
  | jcc cond (.near d) => .ok (0x0F :: UInt8.ofNat (0x80 + cond.code) :: dwordBytes d)
  | call d => .ok (0xE8 :: dwordBytes d)
  | ret => .ok [0xC3]
  | syscall => .ok [0x0F, 0x05]

end Instruction

end NativeBackend.Machine
