import NativeBackend.Machine.Instruction

/-!
# Instruction patterns

A pattern says which kind of instruction is meant and, as far as wanted, what its
parts are. A list of patterns is looked for as a run of consecutive instructions.
-/

namespace NativeBackend.Machine

/-- What is wanted of one part of an instruction. -/
inductive Want (α : Type)
  | anything
  | exactly (value : α)
  | such (test : α → Bool)

/-- Whether a part is as wanted. -/
def Want.accepts {α : Type} [DecidableEq α] : Want α → α → Bool
  | anything, _ => true
  | exactly value, a => a = value
  | such test, a => test a

/-- What is wanted, given a text for a part. A test has no text of its own. -/
def Want.describe {α : Type} (text : α → String) : Want α → String
  | anything => "Any"
  | exactly value => "Exact(" ++ text value ++ ")"
  | such _ => "Predicate(_)"

/-- What is wanted of an instruction. -/
inductive Pattern
  | any
  /-- A push of a register. -/
  | push (reg : Want Register)
  /-- A push of a word in memory. -/
  | pushMem (operand : Want Operand)
  | pushImm (value : Want Int32)
  /-- A pop into a register. -/
  | pop (reg : Want Register)
  | alu (op : Want AluOp)
  | aluImm (op : Want AluOp) (value : Want Int32)
  | store (operand : Want Operand)
  | load (operand : Want Operand)
  | movImm (value : Want Int32)
  | movAbs (value : Want UInt64)
  | lea
  | imul
  | idiv
  | neg
  | cqo
  | setcc (cond : Want Condition)
  | jmp
  | jcc (cond : Want Condition)
  | call
  | ret
  | syscall

namespace Pattern

/-- Whether an instruction is as wanted. -/
def accepts : Pattern → Instruction → Bool
  | any, _ => true
  | push reg, .push (.reg r) => reg.accepts r
  | pushMem operand, .push o => o.isMemory && operand.accepts o
  | pushImm value, .pushImm v => value.accepts v
  | pop reg, .pop (.reg r) => reg.accepts r
  | alu op, .alu o _ => op.accepts o
  | aluImm op value, .aluImm o _ v => op.accepts o && value.accepts v
  | store operand, .movStore o => operand.accepts o
  | load operand, .movLoad o => operand.accepts o
  | movImm value, .movImm _ v => value.accepts v
  | movAbs value, .movAbs _ v => value.accepts v
  | lea, .lea _ => true
  | imul, .imul _ => true
  | idiv, .idiv _ => true
  | neg, .neg _ => true
  | cqo, .cqo => true
  | setcc cond, .setcc c _ => cond.accepts c
  | jmp, .jmp _ => true
  | jcc cond, .jcc c _ => cond.accepts c
  | call, .call _ => true
  | ret, .ret => true
  | syscall, .syscall => true
  | _, _ => false

/-- A signed value in decimal. -/
def valueText (v : Int32) : String := toString v.toInt

/-- A kind with its parts. -/
def withParts (kind : String) (parts : List (String × String)) : String :=
  kind ++ " \x7b " ++ String.intercalate ", " (parts.map fun (name, t) ↦ name ++ ": " ++ t)
    ++ " \x7d"

/-- The pattern with all its parts named. -/
def describe : Pattern → String
  | any => "Any"
  | push reg => withParts "Push" [("reg", reg.describe Register.label)]
  | pushMem operand => withParts "PushMem" [("operand", operand.describe Operand.describe)]
  | pushImm value => withParts "PushImm" [("value", value.describe valueText)]
  | pop reg => withParts "Pop" [("reg", reg.describe Register.label)]
  | alu op => withParts "Alu" [("op", op.describe AluOp.label)]
  | aluImm op value =>
    withParts "AluImm" [("op", op.describe AluOp.label), ("value", value.describe valueText)]
  | store operand => withParts "Store" [("operand", operand.describe Operand.describe)]
  | load operand => withParts "Load" [("operand", operand.describe Operand.describe)]
  | movImm value => withParts "MovImm" [("value", value.describe valueText)]
  | movAbs value => withParts "MovAbs" [("value", value.describe fun v ↦ toString v.toNat)]
  | lea => "Lea"
  | imul => "Imul"
  | idiv => "Idiv"
  | neg => "Neg"
  | cqo => "Cqo"
  | setcc cond => withParts "SetCc" [("cond", cond.describe Condition.label)]
  | jmp => "Jmp"
  | jcc cond => withParts "Jcc" [("cond", cond.describe Condition.label)]
  | call => "Call"
  | ret => "Ret"
  | syscall => "Syscall"

/-- Whether a list of patterns accepts the first instructions of a list. -/
def acceptsStart : List Pattern → List Instruction → Bool
  | [], _ => true
  | _ :: _, [] => false
  | p :: ps, i :: is => p.accepts i && acceptsStart ps is

/-- The index of the first run of instructions that a list of patterns accepts. -/
def find? (ps : List Pattern) : List Instruction → Option Nat
  | [] => if ps.isEmpty then some 0 else none
  | i :: is => if acceptsStart ps (i :: is) then some 0 else (find? ps is).map (· + 1)

/-- How many instructions a pattern accepts. -/
def count (p : Pattern) (is : List Instruction) : Nat := is.countP p.accepts

/-- Lines set in by two blanks. -/
def indented (lines : List String) : String :=
  String.intercalate "\n" (lines.map ("  " ++ ·))

/-- The message for a list of patterns that accepts no run of instructions. -/
def missingText (ps : List Pattern) (is : List Instruction) : String :=
  "Pattern not found in instruction sequence.\n\nExpected pattern:\n" ++ indented (ps.map describe)
    ++ "\n\nActual instructions:\n" ++ indented (is.map Instruction.text)

end Pattern

end NativeBackend.Machine
