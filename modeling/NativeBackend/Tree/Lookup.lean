import NativeBackend.Tree.Basic

/-!
# Looking things up in a program

Positions in references are checked here and nowhere else: what they name may be
missing. Routines are enumerated in declaration order, class by class.
-/

namespace NativeBackend.Tree

/-- A method with its place in the program. -/
structure Routine where
  owner : Nat
  position : Nat
  className : String
  method : MethodDecl
  deriving Repr, Inhabited

/-- The name of a routine, by which calls find it. -/
def routineName (className methodName : String) : String := className ++ "." ++ methodName

/-- The name of a routine, by which calls find it. -/
def Routine.name (r : Routine) : String := routineName r.className r.method.name

namespace Program

/-- The class at a position. -/
def class? (p : Program) (position : UInt64) : Option ClassDecl := p.classes[position.toNat]?

/-- The field that a reference names. -/
def field? (p : Program) (f : FieldRef) : Option FieldDecl := do
  (← p.class? f.owner).fields[f.position.toNat]?

/-- The method that a reference names. -/
def method? (p : Program) (m : MethodRef) : Option MethodDecl := do
  (← p.class? m.owner).methods[m.position.toNat]?

/-- The name of the routine that a reference names. -/
def routineName? (p : Program) (m : MethodRef) : Option String := do
  let owner ← p.class? m.owner
  let method ← owner.methods[m.position.toNat]?
  return routineName owner.name method.name

/-- Every routine in declaration order. -/
def routines (p : Program) : List Routine :=
  p.classes.zipIdx.flatMap fun (c, owner) ↦
    c.methods.zipIdx.map fun (m, position) ↦ ⟨owner, position, c.name, m⟩

end Program

end NativeBackend.Tree
