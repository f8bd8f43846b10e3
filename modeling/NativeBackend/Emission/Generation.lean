import NativeBackend.Emission.Assembly
import NativeBackend.Emission.Lowering
import NativeBackend.Image.Placement
import NativeBackend.Machine.Listing

/-!
# Generation

The code of a whole program: the built-in routines, then every method in declaration
order. A program must have exactly one method with the shape of an entry. Calls that
no routine answers are reported when all code is out; the addresses of static fields
are known only then and filled in last.
-/

namespace NativeBackend

open Machine NativeBackend.Tree

/-- What a user may ask of generation. -/
structure Options where
  /-- The address the image is loaded at. -/
  loadAddress : UInt64 := Image.defaultLoadAddress
  /-- The name of the entry. -/
  entryName : String := "main"
  /-- The one class in which the entry is looked for, if any. -/
  entryClass : Option String := none
  deriving DecidableEq, Repr, Inhabited

/-- Whether a type is the element type of the entry's parameter. -/
def isArgumentType : TypeName → Bool
  | .unsupported => true
  | .object className => className == "String"
  | _ => false

/-- Whether parameters are those of an entry: one array of texts. -/
def areArguments : List Parameter → Bool
  | [⟨_, .array element⟩] => isArgumentType element
  | _ => false

/-- Whether a method has the shape of an entry of a given name. -/
def isEntryShape (m : MethodDecl) (name : String) : Bool :=
  m.name == name && !m.isPrivate && m.isStatic && m.returnType == .void && areArguments m.params

/-- The routines with the shape of the entry, in declaration order. -/
def entryCandidates (p : Program) (o : Options) : List Routine :=
  p.routines.filter fun r ↦
    (o.entryClass.all (· == r.className)) && isEntryShape r.method o.entryName

/-- Generated code. -/
structure Code where
  stream : CodeStream
  /-- The offset of the entry, if there is one. -/
  entry : Option Nat
  /-- The bytes of the static area. -/
  staticSize : Nat
  routines : RoutineTable
  deriving DecidableEq, Repr

namespace Code

/-- No code. -/
def empty : Code := ⟨.empty, none, 0, .empty⟩

/-- The lines of the code as loaded at an address. -/
def lines (c : Code) (loadAddress : UInt64) : List String :=
  c.stream.lines (Image.codeAddress loadAddress 0)

/-- The listing of the code as loaded at an address. -/
def listing (c : Code) (loadAddress : UInt64) : String :=
  c.stream.listing (Image.codeAddress loadAddress 0)

end Code

namespace Assemble

/-- The built-in routines. -/
def builtins : List (String × List Instruction) → Assemble Unit
  | [] => return ()
  | (name, body) :: rest => do
    discard (startRoutine name)
    appendAll body
    builtins rest

/-- Whether two routines have the same place in their program. -/
def samePlace (r s : Routine) : Bool := r.owner == s.owner && r.position == s.position

/-- The code of a routine of a program. -/
def routine (p : Program) (l : FieldLayout) (isEntry : Bool) (r : Routine) : Assemble Unit := do
  let start ← startRoutine r.name
  if isEntry then modify fun a ↦ { a with entry := some start }
  modify fun a ↦ { a with depth := .start }
  steps (lowerMethod ⟨p, l, isEntry⟩ r.method)
  let a ← get
  note (.routineFinished r.name (a.stream.size - start) a.depth.deepest)

/-- The code of routines in order, one of which is the entry. -/
def routines (p : Program) (l : FieldLayout) (entry : Routine) : List Routine → Assemble Unit
  | [] => return ()
  | r :: rs => do
    routine p l (samePlace r entry) r
    routines p l entry rs

/-- A report for each name that calls still wait for. -/
def reportAll : List (String × List Site) → Assemble Unit
  | [] => return ()
  | (name, sites) :: rest => do
    report (.unresolvedCall name sites.length)
    reportAll rest

/-- The addresses of static fields, given that of the first. -/
def fillStatics (base : UInt64) : List StaticLoad → Assemble Unit
  | [] => return ()
  | load :: rest =>
    if load.offset < 0 then throw (.storage (.negativeSlot load.offset)) else do
      overwrite load.index (.movAbs Convention.result (base + UInt64.ofInt load.offset.toInt))
      fillStatics base rest

/-- The last things to do when all routines are out. -/
def complete (l : FieldLayout) (o : Options) : Assemble Code := do
  reportAll (← get).pending.groups
  let codeLength ← position
  fillStatics (Image.codeAddress o.loadAddress (staticAreaOffset codeLength))
    (← get).staticLoads.toList
  let a ← get
  note (.generated codeLength a.routines.size a.entry l.staticSize)
  return ⟨a.stream, a.entry, l.staticSize, a.routines⟩

/-- The code of a program with a given entry. -/
def program (p : Program) (o : Options) (entry : Routine) : Assemble Code := do
  let l := FieldLayout.ofProgram p
  builtins Builtin.routines
  routines p l entry p.routines
  complete l o

end Assemble

/-- The outcome of generation. Problems of the program do not make it a fault. -/
structure Generation where
  result : Except Fault Code
  reporter : Reporter
  log : List Event

/-- The problem with the entry candidates of a program that has not exactly one. -/
def entryProblem (o : Options) (candidates : List Routine) : Diagnostic :=
  if candidates.isEmpty then .noEntry o.entryName
  else .manyEntries o.entryName (candidates.map Routine.name)

/-- The code of a program. -/
def generate (p : Program) (o : Options) : Generation :=
  match entryCandidates p o with
  | [entry] =>
    let (result, a) := (Assemble.program p o entry).run.run Assembly.empty
    ⟨result, a.reporter, a.log.toList⟩
  | candidates =>
    let problem := entryProblem o candidates
    ⟨.ok .empty, Reporter.empty.report problem, [.reported problem]⟩

/-- The code of an expression alone, in the frame of a method that is not the entry, and the events
on the way. -/
def generateExpression (p : Program) (m : MethodRef) (e : Expression) :
    Except Fault CodeStream × List Event :=
  match p.method? m with
  | none => (.error (.tree (.unknownRoutine m)), [])
  | some decl =>
    let s : Surroundings := ⟨p, .ofProgram p, false⟩
    let (result, a) :=
      (Assemble.steps (lowerExpression s (.ofMethod decl) e)).run.run Assembly.empty
    (result.map fun _ ↦ a.stream, a.log.toList)

end NativeBackend
