/-!
# Conditions

The outcomes of a signed comparison that a conditional instruction can ask for.
Every condition has a four-bit code, and its negation has the code with the
lowest bit flipped.
-/

namespace NativeBackend.Machine

/-- An outcome of a signed comparison. -/
inductive Condition
  | equal | notEqual | less | greaterEqual | lessEqual | greater
  deriving DecidableEq, Repr, Inhabited

namespace Condition

/-- Every condition, in order of its code. -/
def all : List Condition := [equal, notEqual, less, greaterEqual, lessEqual, greater]

/-- The four-bit code of a condition. -/
def code : Condition → Nat
  | equal => 0x4
  | notEqual => 0x5
  | less => 0xC
  | greaterEqual => 0xD
  | lessEqual => 0xE
  | greater => 0xF

/-- The letters that follow the mnemonic of a conditional instruction. -/
def suffix : Condition → String
  | equal => "e"
  | notEqual => "ne"
  | less => "l"
  | greaterEqual => "ge"
  | lessEqual => "le"
  | greater => "g"

/-- The condition that holds exactly when this one does not. -/
def negate : Condition → Condition
  | equal => notEqual
  | notEqual => equal
  | less => greaterEqual
  | greaterEqual => less
  | lessEqual => greater
  | greater => lessEqual

/-- The condition in words, as descriptions of patterns write it. -/
def label : Condition → String
  | equal => "Equal"
  | notEqual => "NotEqual"
  | less => "Less"
  | greaterEqual => "GreaterEqual"
  | lessEqual => "LessEqual"
  | greater => "Greater"

/-- The condition with a given suffix. -/
def ofSuffix? (s : String) : Option Condition := all.find? (·.suffix == s)

end Condition

end NativeBackend.Machine
