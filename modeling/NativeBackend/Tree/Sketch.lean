import NativeBackend.Tree.Basic

/-!
# Sketching trees

Short forms for small trees: parameters are integers named by their position,
variables are integers named by their number, and the entry has its usual shape.
-/

namespace NativeBackend.Tree.Sketch

/-- A field of an object. -/
def field (name : String) (type : TypeName) : FieldDecl := ⟨name, type, false, false⟩

/-- A field that all objects share. -/
def staticField (name : String) (type : TypeName) : FieldDecl := ⟨name, type, true, false⟩

/-- The entry with a body. -/
def entry (body : List Statement) : MethodDecl :=
  ⟨"main", .void, true, false, [⟨"args", .array (.object "String")⟩], body⟩

/-- Parameters named by their positions. -/
def parameters (count : Nat) : List Parameter :=
  (List.range count).map fun i ↦ ⟨"p" ++ toString i, .int⟩

/-- A method of an object. -/
def instanceMethod (name : String) (returnType : TypeName) (count : Nat)
    (body : List Statement) : MethodDecl :=
  ⟨name, returnType, false, false, parameters count, body⟩

/-- A method that needs no object. -/
def staticMethod (name : String) (returnType : TypeName) (count : Nat)
    (body : List Statement) : MethodDecl :=
  ⟨name, returnType, true, false, parameters count, body⟩

/-- A class without members. -/
def emptyClass (name : String) : ClassDecl := ⟨name, [], []⟩

/-- A class with one more field. -/
def addField (c : ClassDecl) (f : FieldDecl) : ClassDecl := { c with fields := c.fields ++ [f] }

/-- A class with one more method. -/
def addMethod (c : ClassDecl) (m : MethodDecl) : ClassDecl := { c with methods := c.methods ++ [m] }

/-- An integer constant. -/
def int (value : Int32) : Expression := .literal (.int value)

/-- A truth value. -/
def boolean (value : Bool) : Expression := .literal (.bool value)

/-- A sum. -/
def add (left right : Expression) : Expression := .binary .add left right

/-- A variable by its number. -/
def localRef (number : UInt32) : Reference := .localName (.var ⟨number⟩)

/-- A parameter by its position. -/
def param (position : UInt64) : Expression := .ref (.localName (.param position))

/-- A field of the enclosing class. -/
def fieldRef (owner position : UInt64) : Reference := .field ⟨owner, position⟩

/-- A field of an object or class. -/
def fieldOf (base : Reference) (owner position : UInt64) : Reference :=
  .qualified base (.field ⟨owner, position⟩)

/-- A method of the enclosing class. -/
def methodRef (owner position : UInt64) : Reference := .method ⟨owner, position⟩

/-- A method of an object or class. -/
def methodOf (base : Reference) (owner position : UInt64) : Reference :=
  .qualified base (.method ⟨owner, position⟩)

/-- The output of a value. -/
def println (value : Expression) : Statement := .call .println [value]

/-- The declaration of a variable named by its number. -/
def declare (number : UInt32) (init : Expression) : Statement :=
  .declare ⟨"v" ++ toString number.toNat, .int, ⟨number⟩⟩ init

end NativeBackend.Tree.Sketch
