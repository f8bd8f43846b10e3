/-!
# Pending calls

Calls that were emitted before the routine they name had an offset. They wait in the
order of emission and are taken together when their routine starts.
-/

namespace NativeBackend

/-- A branch in the code, by the index of its instruction and the offset of its first byte. -/
structure Site where
  index : Nat
  origin : Nat
  deriving DecidableEq, Repr

/-- The calls that wait, each with the routine it names, in order of emission. -/
structure PendingCalls where
  waiting : List (String × Site)
  deriving DecidableEq, Repr

namespace PendingCalls

/-- No call waits. -/
def empty : PendingCalls := ⟨[]⟩

/-- One more call waits. -/
def record (p : PendingCalls) (routine : String) (site : Site) : PendingCalls :=
  ⟨p.waiting ++ [(routine, site)]⟩

/-- The calls that wait for a routine. -/
def sitesOf (p : PendingCalls) (routine : String) : List Site :=
  (p.waiting.filter (·.1 == routine)).map Prod.snd

/-- The calls that wait for other routines. -/
def without (p : PendingCalls) (routine : String) : PendingCalls :=
  ⟨p.waiting.filter (·.1 != routine)⟩

/-- The names that calls wait for, each once, in byte order. -/
def names (p : PendingCalls) : List String :=
  (p.waiting.map Prod.fst).eraseDups.mergeSort (fun a b ↦ decide (a ≤ b))

/-- The calls that wait, by name in byte order. -/
def groups (p : PendingCalls) : List (String × List Site) :=
  p.names.map fun name ↦ (name, p.sitesOf name)

end PendingCalls

end NativeBackend
