/-!
# Routine tables

The routines that have started, with their offsets. When two share a name, the later
one takes the name over.
-/

namespace NativeBackend

/-- The routines that have started, the latest first. -/
structure RoutineTable where
  started : List (String × Nat)
  deriving DecidableEq, Repr

namespace RoutineTable

/-- No routine has started. -/
def empty : RoutineTable := ⟨[]⟩

/-- One more routine starts. -/
def insert (t : RoutineTable) (name : String) (start : Nat) : RoutineTable :=
  ⟨(name, start) :: t.started⟩

/-- The offset of the latest routine of a name. -/
def start? (t : RoutineTable) (name : String) : Option Nat := t.started.lookup name

/-- The names in use, each once, in byte order. -/
def names (t : RoutineTable) : List String :=
  (t.started.map Prod.fst).eraseDups.mergeSort (fun a b ↦ decide (a ≤ b))

/-- The names in use with the offset each stands for, in byte order of the names. -/
def toList (t : RoutineTable) : List (String × Nat) :=
  t.names.filterMap fun name ↦ (t.start? name).map (name, ·)

/-- The count of names in use. -/
def size (t : RoutineTable) : Nat := t.names.length

end RoutineTable

end NativeBackend
