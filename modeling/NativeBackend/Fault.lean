import NativeBackend.Address
import NativeBackend.Diagnostic
import NativeBackend.Machine.Branch
import NativeBackend.Machine.Stream
import NativeBackend.Tree.Describe

/-!
# Faults

Why code generation or packaging stops. A tree may be used in a way that has no
meaning, a branch may not reach, the operand stack or the static area may be out of step,
or an instruction may not encode; `message` puts each cause into words.
-/

namespace NativeBackend

open Machine NativeBackend.Tree

/-- A use of the tree that has no meaning. -/
inductive TreeFault
  | thisNotAssignable
  | thisInStatic
  | paramOutOfRange (position : UInt64)
  | localNotInScope (id : VarId)
  | unknownField (field : FieldRef)
  | instanceFieldInStatic (field : FieldRef)
  | noValue (reference : Reference)
  | notCallable (reference : Reference)
  | unknownRoutine (method : MethodRef)
  deriving DecidableEq, Repr

/-- The cause in words. -/
def TreeFault.message : TreeFault → String
  | thisNotAssignable => "`this` is not assignable"
  | thisInStatic => "`this` used in a static routine"
  | paramOutOfRange position => "parameter " ++ toString position.toNat ++ " out of range"
  | localNotInScope id => "local " ++ id.describe ++ " is not in scope"
  | unknownField field => "unknown field " ++ field.describe
  | instanceFieldInStatic field =>
    "instance field " ++ field.describe ++ " in a static routine"
  | noValue reference => reference.describe ++ " does not denote a value"
  | notCallable reference => reference.describe ++ " is not callable"
  | unknownRoutine method => "unknown routine " ++ method.describe

/-- The operand stack out of step with the code. -/
inductive StackFault
  | underflow (words depth : Nat)
  | unbalanced (depth live : Nat)
  | tooManyWords (words : Nat)
  deriving DecidableEq, Repr

/-- The cause in words. -/
def StackFault.message : StackFault → String
  | underflow words depth =>
    "operand stack underflow: popping " ++ toString words ++ " word(s) at depth " ++ toString depth
  | unbalanced depth live =>
    "operand stack holds " ++ toString depth ++ " word(s) after a statement, expected "
      ++ toString live
  | tooManyWords words => "cannot release " ++ toString words ++ " stack words"

/-- The static area out of step with the code. -/
inductive StorageFault
  | negativeSlot (offset : Int32)
  deriving DecidableEq, Repr

/-- The cause in words. -/
def StorageFault.message : StorageFault → String
  | negativeSlot offset => "negative static slot " ++ toString offset.toInt

/-- Why generation or packaging stops. -/
inductive Fault
  | tree (cause : TreeFault)
  | branch (cause : BranchFault)
  | stack (cause : StackFault)
  | storage (cause : StorageFault)
  | stream (cause : StreamFault)
  | compilationFailed (diagnostics : List Diagnostic)
  | misalignedLoadAddress (address : UInt64)
  | missingEntry
  deriving DecidableEq, Repr

namespace Fault

/-- The cause of a fault that only a tree without meaning, or one too large, brings about. -/
def internal? : Fault → Option String
  | tree cause => some cause.message
  | branch cause => some cause.message
  | stack cause => some cause.message
  | _ => none

/-- The fault in words. -/
def message : Fault → String
  | tree cause => "Internal error: " ++ cause.message
  | branch cause => "Internal error: " ++ cause.message
  | stack cause => "Internal error: " ++ cause.message
  | storage cause => "Internal error: " ++ cause.message
  | stream cause => cause.message
  | compilationFailed ds =>
    "Compilation failed with " ++ toString ds.length ++ " error(s): " ++ Diagnostic.summary ds
  | misalignedLoadAddress address =>
    "Load address " ++ Hex.marked address.toNat ++ " is not aligned to a " ++ Hex.marked pageSize
      ++ "-byte page"
  | missingEntry => "No entry routine address was recorded"

/-- The kind of fault. -/
def kind : Fault → String
  | tree _ | branch _ | stack _ | storage _ => "Internal"
  | stream (.operand _) => "InvalidOperand"
  | stream (.indexOutOfRange _ _) => "PatchOutOfRange"
  | stream (.lengthChange _ _ _) => "PatchLengthMismatch"
  | compilationFailed _ => "CompilationFailed"
  | misalignedLoadAddress _ => "MisalignedLoadAddress"
  | missingEntry => "MissingEntryPoint"

/-- The fault with all its parts named. -/
def describe (f : Fault) : String :=
  match f with
  | tree cause => f.kind ++ "(" ++ Quoted.text cause.message ++ ")"
  | branch cause => f.kind ++ "(" ++ Quoted.text cause.message ++ ")"
  | stack cause => f.kind ++ "(" ++ Quoted.text cause.message ++ ")"
  | storage cause => f.kind ++ "(" ++ Quoted.text cause.message ++ ")"
  | stream (.operand cause) => f.kind ++ "(" ++ Quoted.text cause.message ++ ")"
  | stream (.indexOutOfRange index length) =>
    f.kind ++ " \x7b index: " ++ toString index ++ ", len: " ++ toString length ++ " \x7d"
  | stream (.lengthChange index expected actual) =>
    f.kind ++ " \x7b index: " ++ toString index ++ ", expected: " ++ toString expected
      ++ ", actual: " ++ toString actual ++ " \x7d"
  | compilationFailed ds => f.kind ++ "(" ++ Diagnostic.describeAll ds ++ ")"
  | misalignedLoadAddress address => f.kind ++ "(" ++ toString address.toNat ++ ")"
  | missingEntry => f.kind

end Fault

end NativeBackend
