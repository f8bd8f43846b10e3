import NativeBackend.Machine.Encoding

/-!
# Code streams

Emitted instructions in order, each with its offset and its bytes. An instruction
is encoded when it is appended, so the size of the stream is the offset of the
next one. Overwriting an instruction keeps its length and so moves nothing.
-/

namespace NativeBackend.Machine

/-- An instruction in its place in the code. -/
structure Emitted where
  instruction : Instruction
  /-- The offset of the first byte from the start of the code. -/
  start : Nat
  bytes : List UInt8
  deriving DecidableEq, Repr

/-- The offset just after the last byte. -/
def Emitted.finish (e : Emitted) : Nat := e.start + e.bytes.length

/-- Why a stream refuses an operation. -/
inductive StreamFault
  | operand (cause : OperandFault)
  | indexOutOfRange (index length : Nat)
  | lengthChange (index expected actual : Nat)
  deriving DecidableEq, Repr

/-- The cause in words. -/
def StreamFault.message : StreamFault → String
  | operand cause => "Invalid operand: " ++ cause.message
  | indexOutOfRange index length =>
    "Patch index " ++ toString index ++ " out of range (stream holds " ++ toString length
      ++ " instructions)"
  | lengthChange index expected actual =>
    "Patch at index " ++ toString index ++ " changes encoded length from " ++ toString expected
      ++ " to " ++ toString actual ++ " bytes"

/-- Emitted instructions in order. -/
structure CodeStream where
  entries : Array Emitted
  /-- The count of bytes, which is the offset of the next instruction. -/
  size : Nat
  deriving DecidableEq, Repr

namespace CodeStream

/-- The stream without instructions. -/
def empty : CodeStream := ⟨#[], 0⟩

instance : Inhabited CodeStream := ⟨empty⟩

/-- The count of instructions. -/
def length (s : CodeStream) : Nat := s.entries.size

/-- The emitted instruction at an index. -/
def get? (s : CodeStream) (index : Nat) : Option Emitted := s.entries[index]?

/-- The instructions without their places. -/
def instructions (s : CodeStream) : List Instruction := s.entries.toList.map Emitted.instruction

/-- The machine code. -/
def bytes (s : CodeStream) : List UInt8 := s.entries.toList.flatMap Emitted.bytes

/-- The instruction that starts at an offset. -/
def at? (s : CodeStream) (offset : Nat) : Option Emitted :=
  s.entries.toList.find? (·.start == offset)

/-- The stream with one more instruction at its end, given its bytes. -/
def push (s : CodeStream) (i : Instruction) (bs : List UInt8) : CodeStream :=
  ⟨s.entries.push ⟨i, s.size, bs⟩, s.size + bs.length⟩

/-- The stream with one more instruction at its end. -/
def append (s : CodeStream) (i : Instruction) : Except StreamFault CodeStream :=
  match i.encode with
  | .ok bs => .ok (s.push i bs)
  | .error cause => .error (.operand cause)

/-- The offset of the instruction at an index. -/
def startOf (s : CodeStream) (index : Nat) : Except StreamFault Nat :=
  match s.get? index with
  | some e => .ok e.start
  | none => .error (.indexOutOfRange index s.length)

/-- The stream with the instruction at an index overwritten by one of the same length. -/
def patch (s : CodeStream) (index : Nat) (i : Instruction) : Except StreamFault CodeStream :=
  match s.get? index with
  | none => .error (.indexOutOfRange index s.length)
  | some old =>
    match i.encode with
    | .error cause => .error (.operand cause)
    | .ok bs =>
      if bs.length = old.bytes.length then
        .ok { s with entries := s.entries.setIfInBounds index ⟨i, old.start, bs⟩ }
      else .error (.lengthChange index old.bytes.length bs.length)

end CodeStream

end NativeBackend.Machine
