import NativeBackend.Machine.Register
import NativeBackend.Text.Hex

/-!
# Operands

What an instruction addresses: a register, a pair of registers, or a memory word
at a base, possibly with a scaled index and a displacement. A memory operand may
carry the register that stands on the other side of the instruction; it is left
out for instructions that use that place of the encoding for an opcode digit.
-/

namespace NativeBackend.Machine

/-- The factor of an index register. -/
inductive Scale
  | one | two | four | eight
  deriving DecidableEq, Repr, Inhabited

namespace Scale

/-- The two bits that name the factor. -/
def bits : Scale → Nat
  | one => 0
  | two => 1
  | four => 2
  | eight => 3

/-- The factor itself. -/
def factor : Scale → Nat
  | one => 1
  | two => 2
  | four => 4
  | eight => 8

/-- The scale of a given factor. -/
def ofFactor? (n : Nat) : Option Scale := [one, two, four, eight].find? (·.factor == n)

/-- The factor in words, as descriptions of operands write it. -/
def label : Scale → String
  | one => "One"
  | two => "Two"
  | four => "Four"
  | eight => "Eight"

end Scale

/-- The registers and memory word that an instruction addresses. -/
inductive Operand
  /-- One register. -/
  | reg (rm : Register)
  /-- Two registers, the first in the place of a memory word. -/
  | pair (rm reg : Register)
  /-- The word at a base register plus a displacement. -/
  | mem (base : Register) (disp : Int32) (reg : Option Register)
  /-- The word at a base register plus a scaled index plus a displacement. -/
  | indexed (base index : Register) (scale : Scale) (disp : Int32) (reg : Option Register)
  deriving DecidableEq, Repr

namespace Operand

/-- Whether the operand is a word in memory. -/
def isMemory : Operand → Bool
  | reg _ | pair _ _ => false
  | mem _ _ _ | indexed _ _ _ _ _ => true

/-- The register on the other side of the instruction, if the operand carries one. -/
def register? : Operand → Option Register
  | reg _ => none
  | pair _ r => some r
  | mem _ _ r => r
  | indexed _ _ _ _ r => r

/-- A displacement as signed hexadecimal; zero is not written. -/
def displacementText (disp : Int32) : String :=
  if disp.toInt = 0 then ""
  else if disp.toInt < 0 then "-" ++ Hex.marked disp.toInt.natAbs
  else "+" ++ Hex.marked disp.toInt.natAbs

/-- The operand without the register it carries. -/
def text : Operand → String
  | reg rm => rm.name
  | pair rm _ => rm.name
  | mem base disp _ => "qword [" ++ base.name ++ displacementText disp ++ "]"
  | indexed base index scale disp _ =>
    "qword [" ++ base.name ++ "+" ++ index.name ++ "*" ++ toString scale.factor
      ++ displacementText disp ++ "]"

/-- The carried register as part of a full description. -/
def carriedText : Option Register → String
  | none => "None"
  | some r => "Some(" ++ r.label ++ ")"

/-- The operand with every part named. -/
def describe : Operand → String
  | reg rm => "Reg(" ++ rm.label ++ ")"
  | pair rm r => "RegPair \x7b rm: " ++ rm.label ++ ", reg: " ++ r.label ++ " \x7d"
  | mem base disp r =>
    "Mem \x7b base: " ++ base.label ++ ", disp: " ++ toString disp.toInt ++ ", reg: "
      ++ carriedText r ++ " \x7d"
  | indexed base index scale disp r =>
    "Indexed \x7b base: " ++ base.label ++ ", index: " ++ index.label ++ ", scale: "
      ++ scale.label ++ ", disp: " ++ toString disp.toInt ++ ", reg: " ++ carriedText r ++ " \x7d"

end Operand

end NativeBackend.Machine
