import NativeBackend.Emission.Generation

/-!
# Looking at generated code

The instructions of one routine, and the calls in the code with what they lead to.
-/

namespace NativeBackend.Code

open Machine

/-- The offset of the first routine that starts after an offset. -/
def nextStart? (c : Code) (start : Nat) : Option Nat :=
  ((c.routines.toList.map Prod.snd).filter (start < ·)).min?

/-- Whether an offset lies from a start up to the next routine. -/
def isWithin (c : Code) (start offset : Nat) : Bool :=
  start ≤ offset && (c.nextStart? start).all (offset < ·)

/-- The instructions from the start of a routine up to the next routine. -/
def routineInstructions? (c : Code) (name : String) : Option (List Instruction) :=
  (c.routines.start? name).map fun start ↦
    (c.stream.entries.toList.filter fun e ↦ c.isWithin start e.start).map Emitted.instruction

/-- The target of an emitted call. -/
def callTarget? (e : Emitted) : Option Nat :=
  match e.instruction with
  | .call d => Instruction.branchTarget? (.call d) e.start
  | _ => none

/-- Every call by its offset and its target. -/
def callSites (c : Code) : List (Nat × Nat) :=
  c.stream.entries.toList.filterMap fun e ↦ (callTarget? e).map (e.start, ·)

/-- The offsets of the calls of a routine. -/
def callsTo (c : Code) (name : String) : List Nat :=
  match c.routines.start? name with
  | none => []
  | some target => (c.callSites.filter (·.2 == target)).map Prod.fst

end NativeBackend.Code
