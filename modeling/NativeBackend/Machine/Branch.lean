import NativeBackend.Machine.Instruction

/-!
# Branches

The distance from the end of a branch to its target, and the branches built from
it. Offsets are machine words, so the end of a branch is taken modulo 2^64; ends
and targets must lie in the lower half of that range, and a distance in 32 bits.
-/

namespace NativeBackend.Machine

/-- Why a branch cannot be aimed. -/
inductive BranchFault
  | originOutOfRange (origin : Nat)
  | targetOutOfRange (target : Nat)
  | tooFar (origin target : Nat)
  | fixedDistance (instruction : Instruction)
  deriving DecidableEq, Repr

/-- The cause in words. -/
def BranchFault.message : BranchFault → String
  | originOutOfRange origin => "branch origin " ++ Hex.marked origin ++ " out of range"
  | targetOutOfRange target => "branch target " ++ Hex.marked target ++ " out of range"
  | tooFar origin target =>
    "branch from " ++ Hex.marked origin ++ " to " ++ Hex.marked target
      ++ " exceeds a 32-bit displacement"
  | fixedDistance instruction =>
    "cannot retarget non-patchable instruction `" ++ instruction.text ++ "`"

/-- The number of machine words. -/
def wordLimit : Nat := 0x10000000000000000

/-- The first number above the signed machine words. -/
def signedLimit : Nat := 0x8000000000000000

/-- The offset just after an instruction of a given length. -/
def endOffset (origin length : Nat) : Nat := (origin + length) % wordLimit

/-- The distance from the end of a branch at `origin` to `target`. -/
def distance (origin target length : Nat) : Except BranchFault Int32 :=
  let fromEnd := (target : Int) - endOffset origin length
  if signedLimit ≤ endOffset origin length then .error (.originOutOfRange origin)
  else if signedLimit ≤ target then .error (.targetOutOfRange target)
  else if -0x80000000 ≤ fromEnd ∧ fromEnd < 0x80000000 then .ok (Int32.ofInt fromEnd)
  else .error (.tooFar origin target)

namespace Distance

/-- The length of a jump over this distance. -/
def jumpLength : Distance → Nat
  | short _ => 2
  | near _ => 5

/-- The length of a conditional jump over this distance. -/
def conditionalLength : Distance → Nat
  | short _ => 2
  | near _ => 6

end Distance

namespace Instruction

/-- The length of every call. -/
def callLength : Nat := 5

/-- A jump with a four-byte distance. -/
def jmpNear (origin target : Nat) : Except BranchFault Instruction :=
  return jmp (.near (← distance origin target 5))

/-- A jump in its two-byte form when that reaches, with a four-byte distance otherwise. -/
def jmpFitted (origin target : Nat) : Except BranchFault Instruction := do
  let d ← distance origin target 2
  if -128 ≤ d.toInt ∧ d.toInt ≤ 127 then return jmp (.short d.toInt8)
  else jmpNear origin target

/-- A conditional jump with a four-byte distance. -/
def jccNear (cond : Condition) (origin target : Nat) : Except BranchFault Instruction :=
  return jcc cond (.near (← distance origin target 6))

/-- A conditional jump in its two-byte form when that reaches. -/
def jccFitted (cond : Condition) (origin target : Nat) : Except BranchFault Instruction := do
  let d ← distance origin target 2
  if -128 ≤ d.toInt ∧ d.toInt ≤ 127 then return jcc cond (.short d.toInt8)
  else jccNear cond origin target

/-- A call of a known target. -/
def callTo (origin target : Nat) : Except BranchFault Instruction :=
  return call (← distance origin target callLength)

/-- The same branch aimed at another target. Only branches with a four-byte distance can be, since
the length must stay. -/
def retarget (i : Instruction) (origin target : Nat) : Except BranchFault Instruction :=
  match i with
  | jmp (.near _) => jmpNear origin target
  | jcc cond (.near _) => jccNear cond origin target
  | call _ => callTo origin target
  | other => .error (.fixedDistance other)

/-- The distance and length of a branch. -/
def branch? : Instruction → Option (Int × Nat)
  | jmp d => some (d.toInt, d.jumpLength)
  | jcc _ d => some (d.toInt, d.conditionalLength)
  | call d => some (d.toInt, callLength)
  | _ => none

/-- The offset that a branch at `origin` leads to, if it is a branch and that offset lies in the
lower half of the machine words. -/
def branchTarget? (i : Instruction) (origin : Nat) : Option Nat := do
  let (d, length) ← i.branch?
  let fromStart := (endOffset origin length : Int) + d
  if endOffset origin length < signedLimit ∧ 0 ≤ fromStart ∧ fromStart < signedLimit then
    return fromStart.toNat
  else none

end Instruction

end NativeBackend.Machine
