/-!
# Operand depth

How many words the running routine has on the machine stack below its frame base,
locals and intermediate values together, and how many it had at most.
-/

namespace NativeBackend

/-- The words on the stack now and at most. -/
structure OperandDepth where
  words : Nat
  deepest : Nat
  deriving DecidableEq, Repr

namespace OperandDepth

/-- The stack of a routine that has pushed nothing. -/
def start : OperandDepth := ⟨0, 0⟩

/-- More words on the stack. -/
def push (d : OperandDepth) (count : Nat) : OperandDepth :=
  ⟨d.words + count, max (d.words + count) d.deepest⟩

/-- Fewer words on the stack, if there are as many. -/
def pop? (d : OperandDepth) (count : Nat) : Option OperandDepth :=
  if count ≤ d.words then some { d with words := d.words - count } else none

end OperandDepth

end NativeBackend
