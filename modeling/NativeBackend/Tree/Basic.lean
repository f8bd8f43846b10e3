/-!
# Program trees

A program whose names have been resolved: references carry positions of classes,
fields and methods, a position in the parameter list, or the identity of a local
variable. A tree may still name something that is not there; code generation finds
that out.
-/

namespace NativeBackend.Tree

/-- The identity of a local variable within its routine. -/
structure VarId where
  number : UInt32
  deriving DecidableEq, Repr, Inhabited

/-- A field by the positions of its class and of itself. -/
structure FieldRef where
  owner : UInt64
  position : UInt64
  deriving DecidableEq, Repr, Inhabited

/-- A method by the positions of its class and of itself. -/
structure MethodRef where
  owner : UInt64
  position : UInt64
  deriving DecidableEq, Repr, Inhabited

/-- A declared type. -/
inductive TypeName
  | int
  | boolean
  | void
  | object (className : String)
  | array (element : TypeName)
  /-- A type the language cannot name. -/
  | unsupported
  | null
  deriving DecidableEq, Repr, Inhabited

/-- A constant. -/
inductive Literal
  | int (value : Int32)
  | bool (value : Bool)
  | null
  deriving DecidableEq, Repr, Inhabited

/-- An operator on one value. -/
inductive UnaryOp
  | not | neg
  deriving DecidableEq, Repr, Inhabited

/-- An operator on two values. -/
inductive BinaryOp
  | add | sub | mul | div | and | or | eq | ne | lt | le | gt | ge
  deriving DecidableEq, Repr, Inhabited

/-- A name inside a routine. -/
inductive LocalRef
  | param (position : UInt64)
  | var (id : VarId)
  deriving DecidableEq, Repr, Inhabited

/-- What a qualified name selects. -/
inductive Member
  | field (field : FieldRef)
  | method (method : MethodRef)
  deriving DecidableEq, Repr, Inhabited

/-- A resolved name. -/
inductive Reference
  /-- The receiver of the running routine. -/
  | this
  | localName (name : LocalRef)
  /-- A field of the enclosing class. -/
  | field (field : FieldRef)
  /-- A class as the base of a static access. -/
  | classAt (position : UInt64)
  /-- A method of the enclosing class. -/
  | method (method : MethodRef)
  /-- The built-in output operation. -/
  | println
  | qualified (base : Reference) (member : Member)
  deriving DecidableEq, Repr, Inhabited

/-- Something that has a value. -/
inductive Expression
  | literal (value : Literal)
  | ref (reference : Reference)
  | index (array : Reference) (index : Expression)
  | unary (op : UnaryOp) (operand : Expression)
  | binary (op : BinaryOp) (left right : Expression)
  | call (callee : Reference) (args : List Expression)
  | newObject (position : UInt64)
  | newArray (element : TypeName) (size : Expression)
  deriving Repr, Inhabited

/-- A declared local variable. -/
structure Variable where
  name : String
  type : TypeName
  id : VarId
  deriving DecidableEq, Repr, Inhabited

/-- Something that is carried out. -/
inductive Statement
  | block (body : List Statement)
  | declare (decl : Variable) (init : Expression)
  | assign (target : Reference) (value : Expression)
  | assignElement (array : Reference) (index value : Expression)
  | call (callee : Reference) (args : List Expression)
  | giveBack (value : Option Expression)
  | branch (cond : Expression) (yes : Statement) (no : Option Statement)
  | loop (cond : Expression) (body : Statement)
  deriving Repr, Inhabited

/-- A declared parameter. -/
structure Parameter where
  name : String
  type : TypeName
  deriving DecidableEq, Repr, Inhabited

/-- A declared field. -/
structure FieldDecl where
  name : String
  type : TypeName
  isStatic : Bool
  isPrivate : Bool
  deriving DecidableEq, Repr, Inhabited

/-- A declared method. -/
structure MethodDecl where
  name : String
  returnType : TypeName
  isStatic : Bool
  isPrivate : Bool
  params : List Parameter
  body : List Statement
  deriving Repr, Inhabited

/-- A declared class. -/
structure ClassDecl where
  name : String
  fields : List FieldDecl
  methods : List MethodDecl
  deriving Repr, Inhabited

/-- A whole program. -/
structure Program where
  classes : List ClassDecl
  deriving Repr, Inhabited

end NativeBackend.Tree
