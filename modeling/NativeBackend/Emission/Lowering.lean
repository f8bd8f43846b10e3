import NativeBackend.Emission.Builtin
import NativeBackend.Emission.Step
import NativeBackend.Layout.Fields
import NativeBackend.Layout.Frame

/-!
# Lowering

The steps of expressions and statements. Values travel on the machine stack: every
expression pushes one word, and whoever uses it pops what it needs into fixed
registers. Statements thread the frame, since declarations change it; nothing here
depends on where the code will lie.
-/

namespace NativeBackend

open Machine NativeBackend.Tree Convention

/-- What a routine body is lowered in, apart from its frame. -/
structure Surroundings where
  program : Program
  layout : FieldLayout
  isEntry : Bool
  deriving Repr

/-- Whether a reference is wanted for its value or for the address it names. -/
inductive Access
  | value | address
  deriving DecidableEq, Repr

/-- What a call passes as its receiver. -/
inductive Receiver
  | absent
  | this
  | base (reference : Reference)
  deriving DecidableEq, Repr

/-- The routine a call runs and what it passes as receiver. -/
structure Callee where
  routine : String
  receiver : Receiver
  /-- Whether the program declares the routine. -/
  declared : Bool
  deriving DecidableEq, Repr

/-- The steps of plain instructions. -/
def emitAll (instructions : List Instruction) : List Step := instructions.map .emit

/-- The step that stops at a use of the tree without meaning. -/
def refuseTree (cause : TreeFault) : Step := .refuse (.tree cause)

/-- The steps that take words off the stack. -/
def releaseSteps (words : Nat) : List Step :=
  if words = 0 then []
  else if wordSize * words < 0x80000000 then
    [.emit (.aluRegImm .add stackPointer (Int32.ofNat (wordSize * words)))]
  else [.refuse (.stack (.tooManyWords words))]

/-- The element at a base and an index. -/
def element (reg : Register) : Operand := .indexed result scratch .eight 0 (some reg)

/-- The steps that push the receiver of the running routine. -/
def lowerThis (f : Frame) : List Step :=
  match f.receiver? with
  | some offset => [.emit (.pushMem frameBase offset)]
  | none => [refuseTree .thisInStatic]

/-- The steps that push the value or address of a word of the frame. -/
def lowerSlot (offset : Int32) : Access → List Step
  | .value => emitAll [.pushMem frameBase offset]
  | .address => emitAll [.address result frameBase offset, .pushReg result]

/-- The steps that push the value or address of a word at the result register. -/
def lowerWord (offset : Int32) : Access → List Step
  | .value => emitAll [.pushMem result offset]
  | .address =>
    if offset = 0 then emitAll [.pushReg result]
    else emitAll [.address result result offset, .pushReg result]

/-- The steps that push the value or address of a field, given the steps that bring the object that
holds it into the result register. Static fields need no object. -/
def lowerField (s : Surroundings) (field : FieldRef) (object : List Step) (access : Access) :
    List Step :=
  match s.layout.slot? field with
  | none => [refuseTree (.unknownField field)]
  | some (.inStatics offset) => .staticAddress offset :: lowerWord 0 access
  | some (.inObject offset) => object ++ lowerWord offset access

/-- The steps that bring the receiver of the running routine into the result register. -/
def loadReceiver (f : Frame) (field : FieldRef) : List Step :=
  match f.receiver? with
  | some offset => [.emit (.load result frameBase offset)]
  | none => [refuseTree (.instanceFieldInStatic field)]

/-- The steps that push the value or address of a reference. -/
def lowerReference (s : Surroundings) (f : Frame) : Reference → Access → List Step
  | .this, .address => [refuseTree .thisNotAssignable]
  | .this, .value => lowerThis f
  | .localName (.param position), access =>
    match f.param? position.toNat with
    | some offset => lowerSlot offset access
    | none => [refuseTree (.paramOutOfRange position)]
  | .localName (.var id), access =>
    match f.local? id with
    | some offset => lowerSlot offset access
    | none => [refuseTree (.localNotInScope id)]
  | .field field, access => lowerField s field (loadReceiver f field) access
  | .qualified base (.field field), access =>
    lowerField s field (lowerReference s f base .value ++ emitAll [.popReg result]) access
  | .qualified base (.method m), _ => [refuseTree (.noValue (.qualified base (.method m)))]
  | .classAt position, _ => [refuseTree (.noValue (.classAt position))]
  | .method m, _ => [refuseTree (.noValue (.method m))]
  | .println, _ => [refuseTree (.noValue .println)]

/-- A name for a method that the program does not declare. -/
def danglingName (p : Program) (m : MethodRef) : String :=
  match p.class? m.owner with
  | some c => c.name ++ ".#" ++ toString m.position.toNat
  | none => "#" ++ toString m.owner.toNat ++ ".#" ++ toString m.position.toNat

/-- The method of a callee and the reference that qualifies it. -/
def calledMethod? : Reference → Option (MethodRef × Option Reference)
  | .method m => some (m, none)
  | .qualified base (.method m) => some (m, some base)
  | _ => none

/-- What a call of a method runs. No routine ever starts under the name of an undeclared one, unless
a declared one has the same name. -/
def calleeOf (p : Program) (m : MethodRef) (base : Option Reference) : Callee :=
  match p.method? m, p.routineName? m with
  | some decl, some name =>
    let receiver := if decl.isStatic then .absent else (base.map Receiver.base).getD .this
    ⟨name, receiver, true⟩
  | _, _ => ⟨danglingName p m, (base.map Receiver.base).getD .absent, false⟩

/-- What a reference in the place of a callee runs. -/
def callee? (p : Program) : Reference → Option Callee
  | .println => some ⟨Builtin.printName, .absent, true⟩
  | r => (calledMethod? r).map fun (m, base) ↦ calleeOf p m base

/-- The steps that push a receiver. -/
def lowerReceiver (s : Surroundings) (f : Frame) : Receiver → List Step
  | .absent => []
  | .this => lowerThis f
  | .base reference => lowerReference s f reference .value

/-- The words of a receiver. -/
def Receiver.words : Receiver → Nat
  | absent => 0
  | _ => 1

/-- The steps of a call whose arguments are pushed by given steps. The arguments and the receiver
are taken off the stack again, and the result is left in its register. -/
def lowerCall (s : Surroundings) (f : Frame) (callee : Reference) (args : List Step)
    (count : Nat) : List Step :=
  match callee? s.program callee with
  | none => [refuseTree (.notCallable callee)]
  | some c =>
    (if c.declared then [] else [.undeclared c.routine])
      ++ args ++ lowerReceiver s f c.receiver ++ [.call c.routine]
      ++ releaseSteps (count + c.receiver.words)

/-- The immediate value of a constant. -/
def literalValue : Literal → Int32
  | .int value => value
  | .bool true => 1
  | .bool false => 0
  | .null => 0

/-- What an operator does to the value in the result register. -/
def unaryInstruction : UnaryOp → Instruction
  | .not => .aluRegImm .xor result 1
  | .neg => .neg (.reg result)

/-- The instructions that leave the truth of a comparison on the stack. The register is cleared
first, since clearing it later would change the flags. -/
def comparison (cond : Condition) : List Instruction :=
  [.aluReg .xor flag flag, .aluReg .cmp result scratch, .setcc cond flag, .pushReg flag]

/-- The instructions that combine the two operands of an operator and push its value. -/
def binaryInstructions : BinaryOp → List Instruction
  | .add => [.aluReg .add result scratch, .pushReg result]
  | .sub => [.aluReg .sub result scratch, .pushReg result]
  | .and => [.aluReg .and result scratch, .pushReg result]
  | .or => [.aluReg .or result scratch, .pushReg result]
  | .mul => [.imul (.pair scratch result), .pushReg result]
  | .div => [.cqo, .idiv (.reg scratch), .pushReg result]
  | .eq => comparison .equal
  | .ne => comparison .notEqual
  | .lt => comparison .less
  | .le => comparison .lessEqual
  | .gt => comparison .greater
  | .ge => comparison .greaterEqual

mutual

/-- The steps that push the value of an expression. -/
def lowerExpression (s : Surroundings) (f : Frame) : Expression → List Step
  | .literal value => emitAll [.pushImm (literalValue value)]
  | .ref reference => lowerReference s f reference .value
  | .index array i =>
    lowerReference s f array .value ++ lowerExpression s f i
      ++ emitAll [.popReg scratch, .popReg result, .movLoad (element result), .pushReg result]
  | .unary op operand =>
    lowerExpression s f operand
      ++ emitAll [.popReg result, unaryInstruction op, .pushReg result]
  | .binary op left right =>
    lowerExpression s f left ++ lowerExpression s f right
      ++ emitAll ([.popReg scratch, .popReg result] ++ binaryInstructions op)
  | .call callee args =>
    lowerCall s f callee (lowerArguments s f args) args.length ++ emitAll [.pushReg result]
  | .newObject _ => [.call Builtin.allocateName, .emit (.pushReg result)]
  | .newArray _ size =>
    lowerExpression s f size
      ++ [.emit (.popReg scratch), .call Builtin.allocateName, .emit (.pushReg result)]

/-- The steps that push the values of arguments from left to right. -/
def lowerArguments (s : Surroundings) (f : Frame) : List Expression → List Step
  | [] => []
  | e :: es => lowerExpression s f e ++ lowerArguments s f es

end

/-- The steps that leave the routine: the entry ends the process, every other one returns. -/
def leaveSteps (s : Surroundings) : List Step :=
  (if s.isEntry then Builtin.exit else Builtin.epilogue).map .frame

/-- The steps that set the flags to whether a condition differs from zero. -/
def lowerCondition (s : Surroundings) (f : Frame) (cond : Expression) : List Step :=
  lowerExpression s f cond ++ emitAll [.popReg result, .aluRegImm .cmp result 0]

/-- Steps with the locals they declared taken off the stack. -/
def inScope (mark : Nat) (body : List Step × Frame) : List Step × Frame :=
  (body.1 ++ releaseSteps (body.2.beyond mark), body.2.release mark)

/-- The steps of a statement with the check that closes it. -/
def settled (body : List Step × Frame) : List Step × Frame :=
  (body.1 ++ [.settle body.2.live], body.2)

mutual

/-- The steps of a statement and the frame after it. -/
def lowerStatement (s : Surroundings) (f : Frame) : Statement → List Step × Frame
  | .block body => settled (inScope f.live (lowerStatements s f body))
  | .declare decl init =>
    let f := f.declare decl.id
    settled (.emit (.pushImm 0) :: lowerExpression s f init
      ++ emitAll [.popReg result, .store frameBase f.latestOffset result], f)
  | .assign target value =>
    settled (lowerReference s f target .address ++ lowerExpression s f value
      ++ emitAll [.popReg scratch, .popReg result, .store result 0 scratch], f)
  | .assignElement array i value =>
    settled (lowerReference s f array .value ++ lowerExpression s f i ++ lowerExpression s f value
      ++ emitAll [.popReg stored, .popReg scratch, .popReg result, .movStore (element stored)], f)
  | .call callee args =>
    settled (lowerCall s f callee (lowerArguments s f args) args.length, f)
  | .giveBack none => settled (leaveSteps s, f)
  | .giveBack (some value) =>
    settled (lowerExpression s f value ++ emitAll [.popReg result] ++ leaveSteps s, f)
  | .branch cond yes none =>
    let (yes, f') := inScope f.live (lowerStatement s f yes)
    settled (lowerCondition s f cond ++ [.when yes], f')
  | .branch cond yes (some no) =>
    let (yes, f') := inScope f.live (lowerStatement s f yes)
    let (no, f'') := inScope f'.live (lowerStatement s f' no)
    settled (lowerCondition s f cond ++ [.choose yes no], f'')
  | .loop cond body =>
    let (body, f') := inScope f.live (lowerStatement s f body)
    settled ([.loop (lowerCondition s f cond) body], f')

/-- The steps of statements in order and the frame after them. -/
def lowerStatements (s : Surroundings) (f : Frame) : List Statement → List Step × Frame
  | [] => ([], f)
  | st :: sts =>
    let (first, f) := lowerStatement s f st
    let (rest, f) := lowerStatements s f sts
    (first ++ rest, f)

end

/-- The steps of a whole routine. -/
def lowerMethod (s : Surroundings) (m : MethodDecl) : List Step :=
  Builtin.prologue.map .frame ++ (lowerStatements s (.ofMethod m) m.body).1 ++ leaveSteps s

end NativeBackend
