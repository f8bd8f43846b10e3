import NativeBackend.Emission.Event
import NativeBackend.Emission.OperandDepth
import NativeBackend.Emission.PendingCalls
import NativeBackend.Emission.RoutineTable
import NativeBackend.Emission.Step
import NativeBackend.Layout.Convention

/-!
# Assembly

Steps become code here. A call of a routine that has started is aimed at once; any
other waits and is aimed when its routine starts. A branch over code that is still to
come is emitted without a distance and aimed when that code is complete. The state
survives a fault, since the events up to it are of interest.
-/

namespace NativeBackend

open Machine

/-- An instruction that is to hold the address of a word of the static area. -/
structure StaticLoad where
  index : Nat
  offset : Int32
  deriving DecidableEq, Repr

/-- Code in the making. -/
structure Assembly where
  stream : CodeStream
  pending : PendingCalls
  routines : RoutineTable
  staticLoads : Array StaticLoad
  depth : OperandDepth
  entry : Option Nat
  reporter : Reporter
  log : Array Event
  deriving DecidableEq, Repr

/-- No code yet. -/
def Assembly.empty : Assembly :=
  ⟨.empty, .empty, .empty, #[], .start, none, .empty, #[]⟩

/-- An action on code in the making, which may find a fault. -/
abbrev Assemble := ExceptT Fault (StateM Assembly)

namespace Assemble

/-- An event takes place. -/
def note (e : Event) : Assemble Unit := modify fun a ↦ { a with log := a.log.push e }

/-- A problem is reported. -/
def report (d : Diagnostic) : Assemble Unit := do
  note (.reported d)
  modify fun a ↦ { a with reporter := a.reporter.report d }

/-- The offset of the next instruction. -/
def position : Assemble Nat := return (← get).stream.size

/-- An instruction at the end of the code; gives its index. -/
def append (i : Instruction) : Assemble Nat := do
  let index := (← get).stream.length
  match i.encode with
  | .ok bs =>
    modify fun a ↦ { a with stream := a.stream.push i bs }
    return index
  | .error cause => throw (.stream (.operand cause))

/-- The operand stack after an instruction with an effect on it. -/
def adjust (effect : Int) : Assemble Unit := do
  let depth := (← get).depth
  if 0 ≤ effect then
    modify fun a ↦ { a with depth := depth.push effect.toNat }
  else
    match depth.pop? effect.natAbs with
    | some depth => modify fun a ↦ { a with depth }
    | none => throw (.stack (.underflow effect.natAbs depth.words))

/-- An instruction whose effect on the operand stack counts; gives its index. -/
def emit (i : Instruction) : Assemble Nat := do
  let index ← append i
  adjust i.stackEffect
  return index

/-- An instruction over an earlier one of the same length. -/
def overwrite (index : Nat) (i : Instruction) : Assemble Unit := do
  match (← get).stream.patch index i with
  | .ok stream => modify fun a ↦ { a with stream }
  | .error cause => throw (.stream cause)

/-- An earlier branch aimed at a target. -/
def retarget (site : Site) (target : Nat) : Assemble Unit := do
  let stream := (← get).stream
  match stream.get? site.index with
  | none => throw (.stream (.indexOutOfRange site.index stream.length))
  | some e =>
    match e.instruction.retarget site.origin target with
    | .error cause => throw (.branch cause)
    | .ok i =>
      note (.retargeted site.index site.origin target)
      overwrite site.index i

/-- A branch whose target is still to come. -/
def forward (i : Instruction) : Assemble Site := do
  let origin ← position
  let index ← emit i
  return ⟨index, origin⟩

/-- An earlier branch aimed at the next instruction. -/
def land (site : Site) : Assemble Unit := do
  retarget site (← position)

/-- A call of a routine by its name. -/
def call (routine : String) : Assemble Unit := do
  let origin ← position
  match (← get).routines.start? routine with
  | some target =>
    match Instruction.callTo origin target with
    | .ok i => discard (emit i)
    | .error cause => throw (.branch cause)
  | none =>
    let index ← emit (.call 0)
    modify fun a ↦ { a with pending := a.pending.record routine ⟨index, origin⟩ }

/-- The address of a word of the static area, known only when all code is complete. -/
def staticAddress (offset : Int32) : Assemble Unit := do
  let index ← emit (.movAbs Convention.result 0)
  modify fun a ↦ { a with staticLoads := a.staticLoads.push ⟨index, offset⟩ }

/-- The check that only live locals are on the operand stack. -/
def settle (live : Nat) : Assemble Unit := do
  let words := (← get).depth.words
  if words = live then return ()
  else throw (.stack (.unbalanced words live))

/-- A jump back to an earlier target. -/
def jumpBack (target : Nat) : Assemble Unit := do
  match Instruction.jmpFitted (← position) target with
  | .ok i => discard (emit i)
  | .error cause => throw (.branch cause)

mutual

/-- The code of a step. -/
def step : Step → Assemble Unit
  | .emit i => discard (emit i)
  | .frame i => discard (append i)
  | .call routine => call routine
  | .staticAddress offset => staticAddress offset
  | .undeclared routine => note (.undeclaredCall routine)
  | .refuse fault => throw fault
  | .settle live => settle live
  | .when body => do
    let skip ← forward (.jcc .equal (.near 0))
    steps body
    land skip
  | .choose yes no => do
    let skip ← forward (.jcc .equal (.near 0))
    steps yes
    let leave ← forward (.jmp (.near 0))
    land skip
    steps no
    land leave
  | .loop cond body => do
    let top ← position
    steps cond
    let exit ← forward (.jcc .equal (.near 0))
    steps body
    jumpBack top
    land exit

/-- The code of steps in order. -/
def steps : List Step → Assemble Unit
  | [] => return ()
  | s :: ss => do
    step s
    steps ss

end

/-- The instructions of a built-in routine. -/
def appendAll : List Instruction → Assemble Unit
  | [] => return ()
  | i :: is => do
    discard (append i)
    appendAll is

/-- Earlier branches aimed at one target. -/
def retargetAll (target : Nat) : List Site → Assemble Unit
  | [] => return ()
  | site :: sites => do
    retarget site target
    retargetAll target sites

/-- A routine starts at the next instruction, and the calls that waited for it are aimed at it;
gives its offset. -/
def startRoutine (name : String) : Assemble Nat := do
  let start ← position
  let waiting := (← get).pending.sitesOf name
  modify fun a ↦ { a with pending := a.pending.without name }
  retargetAll start waiting
  modify fun a ↦ { a with routines := a.routines.insert name start }
  note (.routineStarted name start waiting.length)
  return start

end Assemble

end NativeBackend
