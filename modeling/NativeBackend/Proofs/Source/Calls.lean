import Mathlib
import NativeBackend.Emission.Lowering

/-!
# Calls of a program

The places of a program that run a routine, in the order they are reached: a call
after its arguments, an allocation after the size of an array. Each has the name of
the routine it runs.
-/

namespace NativeBackend.Source

open NativeBackend.Tree

/-- A place of a program that runs a routine. -/
inductive CallNode
  | call (callee : Reference)
  | allocation
  deriving DecidableEq, Repr

/-- The name of the routine that is run, unless the callee is not one. -/
def CallNode.routine? (p : Program) : CallNode → Option String
  | call callee => (callee? p callee).map Callee.routine
  | allocation => some Builtin.allocateName

/-- What holds of calls and the names they run holds of the names alone. -/
theorem forall₂_routines {α : Type} {R : α → String → Prop} {p : Program} {xs : List α}
    {nodes : List CallNode}
    (h : List.Forall₂ (fun x node ↦ ∃ name, node.routine? p = some name ∧ R x name) xs nodes) :
    List.Forall₂ R xs (nodes.filterMap (CallNode.routine? p)) := by
  induction h with
  | nil => exact .nil
  | cons hx _ ih =>
    obtain ⟨name, hname, hR⟩ := hx
    rw [List.filterMap_cons, hname]
    exact .cons hR ih

mutual

/-- The calls of an expression. -/
def expressionCalls : Expression → List CallNode
  | .literal _ | .ref _ => []
  | .index _ i => expressionCalls i
  | .unary _ operand => expressionCalls operand
  | .binary _ left right => expressionCalls left ++ expressionCalls right
  | .call callee args => argumentCalls args ++ [.call callee]
  | .newObject _ => [.allocation]
  | .newArray _ size => expressionCalls size ++ [.allocation]

/-- The calls of arguments. -/
def argumentCalls : List Expression → List CallNode
  | [] => []
  | e :: es => expressionCalls e ++ argumentCalls es

end

mutual

/-- The calls of a statement. -/
def statementCalls : Statement → List CallNode
  | .block body => bodyCalls body
  | .declare _ e | .assign _ e | .giveBack (some e) => expressionCalls e
  | .assignElement _ i e => expressionCalls i ++ expressionCalls e
  | .call callee args => argumentCalls args ++ [.call callee]
  | .giveBack none => []
  | .branch cond yes none => expressionCalls cond ++ statementCalls yes
  | .branch cond yes (some no) => expressionCalls cond ++ (statementCalls yes ++ statementCalls no)
  | .loop cond body => expressionCalls cond ++ statementCalls body

/-- The calls of statements in order. -/
def bodyCalls : List Statement → List CallNode
  | [] => []
  | st :: sts => statementCalls st ++ bodyCalls sts

end

/-- The names of all routines, in the order of their code. -/
def routineNames (p : Program) : List String :=
  Builtin.allocateName :: Builtin.printName :: p.routines.map Routine.name

/-- The calls of every routine of a program, in the order of their code. The built-in ones have
none. -/
def programCalls (p : Program) : List (List CallNode) :=
  Builtin.routines.map (fun _ ↦ []) ++ p.routines.map fun r ↦ bodyCalls r.method.body

/-- The names that are called in every routine of a program, in the order of their code. -/
def calledNames (p : Program) : List (List String) :=
  (programCalls p).map fun nodes ↦ nodes.filterMap (CallNode.routine? p)

end NativeBackend.Source
