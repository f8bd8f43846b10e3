import NativeBackend.Fault

/-!
# Steps

What the walk over a routine body asks for, before any code has an offset: plain
instructions, calls by name, addresses of static fields, and branches around steps. A
use of the tree that has no meaning is a step too, which ends generation when it is
reached; so the walk itself always succeeds.
-/

namespace NativeBackend

open Machine

/-- One thing that the body of a routine asks for. -/
inductive Step
  /-- An instruction whose effect on the operand stack counts. -/
  | emit (instruction : Instruction)
  /-- An instruction that sets up or takes down a frame. -/
  | frame (instruction : Instruction)
  /-- A call of a routine by its name. -/
  | call (routine : String)
  /-- The address of a word of the static area, into the result register. -/
  | staticAddress (offset : Int32)
  /-- A note that a call names an undeclared routine. -/
  | undeclared (routine : String)
  /-- A point that generation cannot pass. -/
  | refuse (fault : Fault)
  /-- The end of a statement, where only live locals are on the operand stack. -/
  | settle (live : Nat)
  /-- Steps that are jumped over when the flags say equal. -/
  | when (body : List Step)
  /-- Steps for flags that say unequal, and steps for equal. -/
  | choose (yes no : List Step)
  /-- Steps that set the flags, and steps that run between them while they say unequal. -/
  | loop (cond body : List Step)
  deriving Repr

end NativeBackend
