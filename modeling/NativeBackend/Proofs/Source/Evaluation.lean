import NativeBackend.Proofs.Execution.Memory
import NativeBackend.Proofs.Layout.FieldPlaces

/-!
# Evaluation

The value of an expression without calls and allocations: words in two's complement,
operands from left to right. Objects, arrays and static fields are words of a memory;
a field lies as many words into its area as fields come before it, and an element as
many words into its array as its index says. `reads` lists the words of that memory
that an evaluation needs, up to the point where it stops.
-/

namespace NativeBackend.Source

open NativeBackend.Tree Execution

/-- What an expression is evaluated in. -/
structure Environment where
  /-- The receiver, in an instance routine. -/
  receiver : Option Word
  params : List Word
  /-- The live locals, the latest first. -/
  locals : List (VarId × Word)
  /-- The word at every address, for objects, arrays and static fields. -/
  memory : Word → Word
  /-- The address of the first static field. -/
  statics : Word

/-- Why an expression has no value. -/
inductive NoValue
  /-- A division by zero, or a quotient that does not fit a word. -/
  | division
  /-- A name that stands for nothing here, or a call or an allocation. -/
  | meaningless
  deriving DecidableEq, Repr

/-- A truth value as a word. -/
def truth (b : Bool) : Word := if b then 1 else 0

/-- The value of a constant. -/
def literal : Literal → Word
  | .int value => BitVec.ofInt 64 value.toInt
  | .bool b => truth b
  | .null => 0

/-- The value of an operator on one word. -/
def unary : UnaryOp → Word → Word
  | .not, v => v ^^^ 1
  | .neg, v => -v

/-- The value of an operator on two words. -/
def binary : BinaryOp → Word → Word → Except NoValue Word
  | .add, a, b => .ok (a + b)
  | .sub, a, b => .ok (a - b)
  | .mul, a, b => .ok (a * b)
  | .div, a, b =>
    if b = 0 ∨ a = BitVec.intMin 64 ∧ b = -1 then .error .division else .ok (a.sdiv b)
  | .and, a, b => .ok (a &&& b)
  | .or, a, b => .ok (a ||| b)
  | .eq, a, b => .ok (truth (a == b))
  | .ne, a, b => .ok (truth (a != b))
  | .lt, a, b => .ok (truth (a.slt b))
  | .le, a, b => .ok (truth (a.sle b))
  | .gt, a, b => .ok (truth (b.slt a))
  | .ge, a, b => .ok (truth (b.sle a))

/-- The address a count of words into an area. -/
def wordsInto (base : Word) (count : Nat) : Word := base + 8 * BitVec.ofNat 64 count

/-- The address of a field, given the object it is selected from. -/
def fieldAddress? (p : Program) (env : Environment) (object : Option Word) (f : FieldRef) :
    Option Word := do
  if (← p.field? f).isStatic then return wordsInto env.statics (p.staticRank f)
  else return wordsInto (← object) (p.instanceRank f)

/-- The value of a reference, if it has one. -/
def reference? (p : Program) (env : Environment) : Reference → Option Word
  | .this => env.receiver
  | .localName (.param position) => env.params[position.toNat]?
  | .localName (.var id) => env.locals.lookup id
  | .field f => (fieldAddress? p env env.receiver f).map env.memory
  | .qualified base (.field f) => (fieldAddress? p env (reference? p env base) f).map env.memory
  | _ => none

/-- Whether an expression has neither calls nor allocations. -/
def isPlain : Expression → Bool
  | .literal _ | .ref _ => true
  | .index _ i => isPlain i
  | .unary _ operand => isPlain operand
  | .binary _ left right => isPlain left && isPlain right
  | .call _ _ | .newObject _ | .newArray _ _ => false

/-- Whether a reference names a local or a parameter. -/
def isVariable : Reference → Bool
  | .localName _ => true
  | _ => false

/-- Whether an expression is made of constants, locals, parameters and operators alone. -/
def isScalar : Expression → Bool
  | .literal _ => true
  | .ref r => isVariable r
  | .unary _ operand => isScalar operand
  | .binary _ left right => isScalar left && isScalar right
  | _ => false

/-- A value that may be missing. -/
def orMeaningless (value : Option Word) : Except NoValue Word :=
  value.elim (.error .meaningless) .ok

/-- The value of an expression. -/
def evaluate (p : Program) (env : Environment) : Expression → Except NoValue Word
  | .literal value => .ok (literal value)
  | .ref r => orMeaningless (reference? p env r)
  | .index array i => do
    let base ← orMeaningless (reference? p env array)
    return env.memory (base + 8 * (← evaluate p env i))
  | .unary op operand => return unary op (← evaluate p env operand)
  | .binary op left right => do
    let a ← evaluate p env left
    binary op a (← evaluate p env right)
  | .call _ _ | .newObject _ | .newArray _ _ => .error .meaningless

/-- The addresses of the words of memory that a reference needs for its value. The object that a
static field is selected from is not looked at. -/
def referenceReads (p : Program) (env : Environment) : Reference → List Word
  | .field f => (fieldAddress? p env env.receiver f).toList
  | .qualified base (.field f) =>
    (if (p.field? f).any (·.isStatic) then [] else referenceReads p env base)
      ++ (fieldAddress? p env (reference? p env base) f).toList
  | _ => []

/-- The addresses of the words of memory that an evaluation reads, in order. -/
def reads (p : Program) (env : Environment) : Expression → List Word
  | .ref r => referenceReads p env r
  | .index array i =>
    referenceReads p env array ++ reads p env i ++
      match reference? p env array, evaluate p env i with
      | some base, .ok k => [base + 8 * k]
      | _, _ => []
  | .unary _ operand => reads p env operand
  | .binary _ left right =>
    reads p env left ++
      match evaluate p env left with
      | .ok _ => reads p env right
      | .error _ => []
  | _ => []

end NativeBackend.Source
