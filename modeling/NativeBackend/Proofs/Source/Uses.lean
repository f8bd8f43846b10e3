import Mathlib
import NativeBackend.Tree.Lookup

/-!
# Uses of names

What a routine body uses, found by a walk that keeps track of the variables in scope: a
variable is in scope from its own initial value to the end of the block, branch or loop
body that declares it. A use is well-formed if what it names is there and can be used in this way.
Apart from that, sizes have limits: the words that are taken off the stack at once, and
the distance of a parameter from the last one, must fit 32 bits.
-/

namespace NativeBackend.Source

open NativeBackend.Tree

/-- What names can stand for at a point of a routine. -/
structure Scope where
  isStatic : Bool
  params : Nat
  /-- The variables in scope, the latest first. -/
  locals : List VarId
  deriving DecidableEq, Repr

/-- Something that a routine body uses. -/
inductive Use
  /-- The value of a reference. -/
  | value (reference : Reference)
  /-- A reference that is assigned to. -/
  | target (reference : Reference)
  /-- A reference that is called, with a count of arguments. -/
  | callee (reference : Reference) (args : Nat)
  /-- The stack, at the end of a block with a count of variables of its own. -/
  | blockEnd (count : Nat)
  deriving DecidableEq, Repr

namespace Scope

/-- The scope at the start of a method. -/
def ofMethod (m : MethodDecl) : Scope := ⟨m.isStatic, m.params.length, []⟩

/-- One more variable is in scope. -/
def declare (c : Scope) (id : VarId) : Scope := { c with locals := id :: c.locals }

/-- The scope behind a statement. -/
def after (c : Scope) : Statement → Scope
  | .declare decl _ => c.declare decl.id
  | _ => c

end Scope

section Names

variable (p : Program) (c : Scope)

/-- Whether a reference has a value. The base of a static field is not looked at. -/
def hasValue : Reference → Bool
  | .this => !c.isStatic
  | .localName (.param position) => position.toNat < c.params
  | .localName (.var id) => id ∈ c.locals
  | .field f => (p.field? f).any fun d ↦ d.isStatic || !c.isStatic
  | .qualified base (.field f) => (p.field? f).any fun d ↦ d.isStatic || hasValue base
  | .qualified _ (.method _) | .classAt _ | .method _ | .println => false

/-- Whether a reference can be assigned to. -/
def isAssignable (r : Reference) : Bool := r != .this && hasValue p c r

/-- What a call passes as receiver: the running one for a method of the enclosing class, or else the
base. A static method gets none, and neither does an undeclared one without a base. -/
def receiver? : Reference → Option Reference
  | .method m => (p.method? m).bind fun decl ↦ if decl.isStatic then none else some .this
  | .qualified base (.method m) =>
    match p.method? m with
    | some decl => if decl.isStatic then none else some base
    | none => some base
  | _ => none

/-- Whether a reference stands for something to call. -/
def isCallee : Reference → Bool
  | .println | .method _ | .qualified _ (.method _) => true
  | .this | .localName _ | .field _ | .classAt _ | .qualified _ (.field _) => false

/-- Whether a reference can be called. -/
def isCallable (r : Reference) : Bool := isCallee r && (receiver? p r).all (hasValue p c)

/-- The parameter at the root of a reference, if there is one. The base of a static field is not
looked at. -/
def rootParam? : Reference → Option Nat
  | .localName (.param position) => some position.toNat
  | .qualified base (.field f) => if (p.field? f).any (·.isStatic) then none else rootParam? base
  | _ => none

/-- Whether the parameter at the root of a reference is close enough to the last one for an
offset. -/
def isNear (r : Reference) : Bool :=
  (rootParam? p r).all fun position ↦ c.params ≤ position + 2 ^ 31

namespace Use

/-- The parameter that a use reads or assigns, if there is one. -/
def param? : Use → Option Nat
  | value r | target r => rootParam? p r
  | callee r _ => (receiver? p r).bind (rootParam? p)
  | blockEnd _ => none

/-- Whether a use is well-formed. -/
def isWellFormed : Use → Bool
  | value r => hasValue p c r
  | target r => isAssignable p c r
  | callee r _ => isCallable p c r
  | blockEnd _ => true

/-- Whether a use keeps to the limits: fewer than 2^28 words are taken off the stack at once. -/
def isWithinLimits : Use → Bool
  | value r | target r => isNear p c r
  | callee r args =>
    (receiver? p r).all (isNear p c) && args + (receiver? p r).elim 0 (fun _ ↦ 1) < 2 ^ 28
  | blockEnd count => count < 2 ^ 28

end Use

end Names

mutual

/-- The uses of an expression in the order of evaluation: what is called comes after its
arguments. -/
def expressionUses : Expression → List Use
  | .literal _ | .newObject _ => []
  | .ref r => [.value r]
  | .index array i => .value array :: expressionUses i
  | .unary _ operand => expressionUses operand
  | .binary _ left right => expressionUses left ++ expressionUses right
  | .call callee args => argumentUses args ++ [.callee callee args.length]
  | .newArray _ size => expressionUses size

/-- The uses of arguments. -/
def argumentUses : List Expression → List Use
  | [] => []
  | e :: es => expressionUses e ++ argumentUses es

end

/-- Whether a statement declares a variable for those after it. -/
def isDeclaration : Statement → Bool
  | .declare _ _ => true
  | _ => false

mutual

/-- The uses of a statement, each with its scope. -/
def statementUses (c : Scope) : Statement → List (Scope × Use)
  | .block body => bodyUses c body ++ [(c, .blockEnd (body.countP isDeclaration))]
  | .declare decl init => (expressionUses init).map (c.declare decl.id, ·)
  | .assign target value => (.target target :: expressionUses value).map (c, ·)
  | .assignElement array i value =>
    (.value array :: (expressionUses i ++ expressionUses value)).map (c, ·)
  | .call callee args => (argumentUses args ++ [Use.callee callee args.length]).map (c, ·)
  | .giveBack none => []
  | .giveBack (some value) => (expressionUses value).map (c, ·)
  | .branch cond yes none => (expressionUses cond).map (c, ·) ++ statementUses c yes
  | .branch cond yes (some no) =>
    (expressionUses cond).map (c, ·) ++ (statementUses c yes ++ statementUses c no)
  | .loop cond body => (expressionUses cond).map (c, ·) ++ statementUses c body

/-- The uses of statements in order. -/
def bodyUses (c : Scope) : List Statement → List (Scope × Use)
  | [] => []
  | st :: sts => statementUses c st ++ bodyUses (c.after st) sts

end

/-- The uses of a method. -/
def methodUses (m : MethodDecl) : List (Scope × Use) := bodyUses (.ofMethod m) m.body

/-- Some use of a program is ill-formed. -/
def IllFormed (p : Program) : Prop :=
  ∃ r ∈ p.routines, ∃ u ∈ methodUses r.method, u.2.isWellFormed p u.1 = false

/-- Some use of a program exceeds a limit. -/
def ExceedsWords (p : Program) : Prop :=
  ∃ r ∈ p.routines, ∃ u ∈ methodUses r.method, u.2.isWithinLimits p u.1 = false

instance (p : Program) : Decidable (IllFormed p) := inferInstanceAs (Decidable (∃ r ∈ _, _))

instance (p : Program) : Decidable (ExceedsWords p) := inferInstanceAs (Decidable (∃ r ∈ _, _))

end NativeBackend.Source
