import NativeBackend.Machine.Condition
import NativeBackend.Machine.Operand

/-!
# Instructions

The instructions that generated code is made of, their text, and the count of
words each one leaves on the machine stack. Immediate values are 32 bits wide
except for the one form that loads a full word.
-/

namespace NativeBackend.Machine

/-- A two-operand arithmetic or logical operation. -/
inductive AluOp
  | add | or | and | sub | xor | cmp
  deriving DecidableEq, Repr, Inhabited

namespace AluOp

/-- Every operation. -/
def all : List AluOp := [add, or, and, sub, xor, cmp]

/-- The opcode of the form with a register on the right. -/
def opcode : AluOp → UInt8
  | add => 0x01
  | or => 0x09
  | and => 0x21
  | sub => 0x29
  | xor => 0x31
  | cmp => 0x39

/-- The opcode digit of the form with an immediate value on the right. -/
def digit : AluOp → Nat
  | add => 0
  | or => 1
  | and => 4
  | sub => 5
  | xor => 6
  | cmp => 7

/-- The written name of the operation. -/
def mnemonic : AluOp → String
  | add => "add"
  | or => "or"
  | and => "and"
  | sub => "sub"
  | xor => "xor"
  | cmp => "cmp"

/-- The operation in words, as descriptions of patterns write it. -/
def label (op : AluOp) : String := op.mnemonic.capitalize

/-- The operation with a given mnemonic. -/
def ofMnemonic? (s : String) : Option AluOp := all.find? (·.mnemonic == s)

end AluOp

/-- A branch distance, measured from the end of the branch. -/
inductive Distance
  /-- A distance held in one byte. -/
  | short (bytes : Int8)
  /-- A distance held in four bytes. -/
  | near (bytes : Int32)
  deriving DecidableEq, Repr

/-- The signed count of bytes of a distance. -/
def Distance.toInt : Distance → Int
  | .short d => d.toInt
  | .near d => d.toInt

/-- An instruction of generated code. -/
inductive Instruction
  /-- The form `op r/m, r`. -/
  | alu (op : AluOp) (operand : Operand)
  /-- The form `op r/m, imm32`, with all four bytes of the value written. -/
  | aluImm (op : AluOp) (operand : Operand) (value : Int32)
  /-- The form `mov r/m, r`. -/
  | movStore (operand : Operand)
  /-- The form `mov r, r/m`. -/
  | movLoad (operand : Operand)
  /-- The form `mov r/m, imm32`, the value sign-extended. -/
  | movImm (operand : Operand) (value : Int32)
  /-- The form `mov r, imm64`. -/
  | movAbs (dst : Register) (value : UInt64)
  /-- The form `lea r, m`. -/
  | lea (operand : Operand)
  /-- The form `imul r, r/m`. -/
  | imul (operand : Operand)
  /-- The form `idiv r/m`, dividing `rdx:rax`. -/
  | idiv (operand : Operand)
  /-- The form `neg r/m`. -/
  | neg (operand : Operand)
  /-- The form `not r/m`. -/
  | not (operand : Operand)
  /-- Sign extension of `rax` into `rdx:rax`. -/
  | cqo
  /-- The form `push r/m`. -/
  | push (operand : Operand)
  /-- The form `push imm32`, the value sign-extended. -/
  | pushImm (value : Int32)
  /-- The form `pop r/m`. -/
  | pop (operand : Operand)
  /-- Set the low byte of a register to the truth of a condition. -/
  | setcc (cond : Condition) (dst : Register)
  /-- An unconditional jump. -/
  | jmp (distance : Distance)
  /-- A conditional jump. -/
  | jcc (cond : Condition) (distance : Distance)
  /-- A call, always with a four-byte distance. -/
  | call (distance : Int32)
  | ret
  | syscall
  deriving DecidableEq, Repr

namespace Instruction

/-- The form `push r`. -/
def pushReg (r : Register) : Instruction := push (.reg r)

/-- The form `pop r`. -/
def popReg (r : Register) : Instruction := pop (.reg r)

/-- The form `push [base + disp]`. -/
def pushMem (base : Register) (disp : Int32) : Instruction := push (.mem base disp none)

/-- The form `mov dst, src`. -/
def move (dst src : Register) : Instruction := movStore (.pair dst src)

/-- The form `mov dst, [base + disp]`. -/
def load (dst base : Register) (disp : Int32) : Instruction := movLoad (.mem base disp (some dst))

/-- The form `mov [base + disp], src`. -/
def store (base : Register) (disp : Int32) (src : Register) : Instruction :=
  movStore (.mem base disp (some src))

/-- The form `mov dst, imm32`. -/
def setReg (dst : Register) (value : Int32) : Instruction := movImm (.reg dst) value

/-- The form `op dst, src`. -/
def aluReg (op : AluOp) (dst src : Register) : Instruction := alu op (.pair dst src)

/-- The form `op dst, imm32`. -/
def aluRegImm (op : AluOp) (dst : Register) (value : Int32) : Instruction :=
  aluImm op (.reg dst) value

/-- The form `lea dst, [base + disp]`. -/
def address (dst base : Register) (disp : Int32) : Instruction := lea (.mem base disp (some dst))

/-- The register an operand carries, or a mark that it is missing. -/
def carriedName (operand : Operand) : String :=
  match operand.register? with
  | some r => r.name
  | none => "?"

/-- A 32-bit value in hexadecimal, negative values in two's complement. -/
def immediateText (value : Int32) : String := Hex.marked value.toUInt32.toNat

/-- A branch distance in decimal, always with its sign. -/
def distanceText (d : Int) : String :=
  if d < 0 then "-" ++ toString d.natAbs else "+" ++ toString d.natAbs

/-- The instruction as a line of assembly. -/
def text : Instruction → String
  | alu op operand => op.mnemonic ++ " " ++ operand.text ++ ", " ++ carriedName operand
  | aluImm op operand value => op.mnemonic ++ " " ++ operand.text ++ ", " ++ immediateText value
  | movStore operand => "mov " ++ operand.text ++ ", " ++ carriedName operand
  | movLoad operand => "mov " ++ carriedName operand ++ ", " ++ operand.text
  | movImm operand value => "mov " ++ operand.text ++ ", " ++ immediateText value
  | movAbs dst value => "movabs " ++ dst.name ++ ", " ++ Hex.marked value.toNat
  | lea operand => "lea " ++ carriedName operand ++ ", " ++ operand.text
  | imul operand => "imul " ++ carriedName operand ++ ", " ++ operand.text
  | idiv operand => "idiv " ++ operand.text
  | neg operand => "neg " ++ operand.text
  | not operand => "not " ++ operand.text
  | cqo => "cqo"
  | push operand => "push " ++ operand.text
  | pushImm value => "push " ++ immediateText value
  | pop operand => "pop " ++ operand.text
  | setcc cond dst => "set" ++ cond.suffix ++ " " ++ dst.byteName
  | jmp d => "jmp " ++ distanceText d.toInt
  | jcc cond d => "j" ++ cond.suffix ++ " " ++ distanceText d.toInt
  | call d => "call " ++ distanceText d.toInt
  | ret => "ret"
  | syscall => "syscall"

/-- The words an instruction adds to the machine stack, as the routine that runs it sees them.
A call counts as nothing: the callee takes its return address away again. -/
def stackEffect : Instruction → Int
  | push _ | pushImm _ => 1
  | pop _ => -1
  | aluImm .add (.reg .rsp) value => -(value.toInt.tdiv 8)
  | aluImm .sub (.reg .rsp) value => value.toInt.tdiv 8
  | _ => 0

/-- Whether the instruction can be overwritten in place once its operand is known. -/
def isPatchable : Instruction → Bool
  | jmp (.near _) | jcc _ (.near _) | call _ | movAbs _ _ => true
  | _ => false

end Instruction

/-- The words a run of instructions adds to the machine stack. -/
def stackEffect (instructions : List Instruction) : Int :=
  (instructions.map Instruction.stackEffect).foldr (· + ·) 0

end NativeBackend.Machine
