import NativeBackend.Machine.Instruction
import NativeBackend.Proofs.Execution.Memory

/-!
# Processor

What an instruction does to registers, flags and memory. Immediate values and
displacements are sign-extended. A flag that the processor leaves undefined is
missing, and a condition on a missing flag stops it, so no result can depend on one.
Instructions that move the program counter are not carried out here.
-/

namespace NativeBackend.Execution

open Machine

/-- The flags that conditions ask for, each missing while it is undefined. -/
structure Flags where
  zero : Option Bool
  sign : Option Bool
  overflow : Option Bool
  deriving DecidableEq, Repr

/-- What instructions read and change. -/
structure State where
  registers : Register → Word
  flags : Flags
  memory : Memory

/-- Why the processor does not go on. -/
inductive Stop
  /-- A division by zero, or a quotient that does not fit a word. -/
  | divideError
  /-- A condition on an undefined flag. -/
  | undefinedFlag
  /-- An instruction whose operand has not the shape it needs. -/
  | noSuchForm
  /-- An instruction that moves the program counter, among ones that do not. -/
  | transfer
  /-- The program counter is not at an instruction. -/
  | outsideCode
  /-- A call of the operating system. -/
  | systemCall
  deriving DecidableEq, Repr

/-- An immediate value or displacement as a word. -/
def extend (value : Int32) : Word := value.toBitVec.signExtend 64

namespace Flags

/-- Every flag undefined. -/
def undefined : Flags := ⟨none, none, none⟩

/-- The flags of a result, given whether its sign is wrong. -/
def ofResult (result : Word) (overflow : Bool) : Flags :=
  ⟨some (result == 0), some result.msb, some overflow⟩

/-- Whether a condition holds, unless it asks for an undefined flag. -/
def holds? (f : Flags) : Condition → Option Bool
  | .equal => f.zero
  | .notEqual => return !(← f.zero)
  | .less => return (← f.sign) != (← f.overflow)
  | .greaterEqual => return (← f.sign) == (← f.overflow)
  | .lessEqual => return (← f.zero) || (← f.sign) != (← f.overflow)
  | .greater => return !(← f.zero) && (← f.sign) == (← f.overflow)

end Flags

/-- The result of an operation and its flags. A comparison is a subtraction. -/
def combine : AluOp → Word → Word → Word × Flags
  | .add, a, b => (a + b, .ofResult (a + b) (a.saddOverflow b))
  | .sub, a, b | .cmp, a, b => (a - b, .ofResult (a - b) (a.ssubOverflow b))
  | .and, a, b => (a &&& b, .ofResult (a &&& b) false)
  | .or, a, b => (a ||| b, .ofResult (a ||| b) false)
  | .xor, a, b => (a ^^^ b, .ofResult (a ^^^ b) false)

namespace State

/-- A register changes. -/
def set (s : State) (r : Register) (v : Word) : State :=
  { s with registers := fun r' ↦ if r' = r then v else s.registers r' }

/-- The word at the top of the stack. -/
def top (s : State) : Word := s.memory.word (s.registers .rsp)

/-- A word is pushed. -/
def push (s : State) (v : Word) : State :=
  { s.set .rsp (slot (s.registers .rsp) (-1)) with
    memory := s.memory.store (slot (s.registers .rsp) (-1)) v }

/-- The word at the top of the stack is taken off. -/
def drop (s : State) : State := s.set .rsp (slot (s.registers .rsp) 1)

/-- The address of an operand in memory. -/
def address? (s : State) : Operand → Option Word
  | .mem base disp _ => some (s.registers base + extend disp)
  | .indexed base index scale disp _ =>
    some (s.registers base + s.registers index * BitVec.ofNat 64 scale.factor + extend disp)
  | .reg _ | .pair _ _ => none

/-- The value of an operand. -/
def read (s : State) (operand : Operand) : Word :=
  match s.address? operand, operand with
  | some a, _ => s.memory.word a
  | none, .reg rm | none, .pair rm _ => s.registers rm
  | none, _ => 0

/-- An operand changes. -/
def write (s : State) (operand : Operand) (v : Word) : State :=
  match s.address? operand, operand with
  | some a, _ => { s with memory := s.memory.store a v }
  | none, .reg rm | none, .pair rm _ => s.set rm v
  | none, _ => s

/-- An operation on an operand and a value. A comparison only sets the flags. -/
def apply (s : State) (op : AluOp) (operand : Operand) (v : Word) : State :=
  let (r, flags) := combine op (s.read operand) v
  if op = .cmp then { s with flags } else { s.write operand r with flags }

/-- The two words `rdx:rax` as one signed number divided by a word, towards zero. -/
def divide (s : State) (d : Word) : Except Stop State :=
  let n := (s.registers .rdx ++ s.registers .rax).toInt
  let q := n.tdiv d.toInt
  if d = 0 ∨ q < -2 ^ 63 ∨ 2 ^ 63 ≤ q then .error .divideError
  else .ok { (s.set .rax (BitVec.ofInt 64 q)).set .rdx (BitVec.ofInt 64 (n.tmod d.toInt)) with
    flags := .undefined }

end State

/-- The truth of a condition in the low byte of a word. -/
def withLowByte (v : Word) (b : Bool) : Word := v.extractLsb' 8 56 ++ if b then 1#8 else 0#8

/-- What an instruction does. -/
def execute (i : Instruction) (s : State) : Except Stop State :=
  match i with
  | .alu op operand => do
    let some r := operand.register? | throw .noSuchForm
    return s.apply op operand (s.registers r)
  | .aluImm op operand value => return s.apply op operand (extend value)
  | .movStore operand => do
    let some r := operand.register? | throw .noSuchForm
    return s.write operand (s.registers r)
  | .movLoad operand => do
    let some r := operand.register? | throw .noSuchForm
    return s.set r (s.read operand)
  | .movImm operand value => return s.write operand (extend value)
  | .movAbs dst value => return s.set dst value.toBitVec
  | .lea operand => do
    let some r := operand.register? | throw .noSuchForm
    let some a := s.address? operand | throw .noSuchForm
    return s.set r a
  | .imul operand => do
    let some r := operand.register? | throw .noSuchForm
    let (a, b) := (s.registers r, s.read operand)
    return { s.set r (a * b) with flags := ⟨none, none, some (a.smulOverflow b)⟩ }
  | .idiv operand => s.divide (s.read operand)
  | .neg operand =>
    let v := s.read operand
    return { s.write operand (-v) with flags := .ofResult (-v) v.negOverflow }
  | .not operand => return s.write operand (~~~ s.read operand)
  | .cqo => return s.set .rdx (if (s.registers .rax).msb then BitVec.allOnes 64 else 0)
  | .push operand => return s.push (s.read operand)
  | .pushImm value => return s.push (extend value)
  -- The address of a popped operand is worked out after the stack pointer has moved.
  | .pop operand => return s.drop.write operand s.top
  | .setcc cond dst => do
    let some b := s.flags.holds? cond | throw .undefinedFlag
    return s.set dst (withLowByte (s.registers dst) b)
  | .jmp _ | .jcc _ _ | .call _ | .ret | .syscall => throw .transfer

/-- What instructions do in order. -/
def run : List Instruction → State → Except Stop State
  | [], s => return s
  | i :: is, s => do run is (← execute i s)

namespace State

variable (s : State)

/-- A register that is set has its new value. -/
@[simp] theorem registers_set_self (r : Register) (v : Word) : (s.set r v).registers r = v := by
  simp [set]

/-- Setting a register leaves the others. -/
@[simp] theorem registers_set_ne {r r' : Register} (v : Word) (h : r' ≠ r) :
    (s.set r v).registers r' = s.registers r' := by
  simp [set, h]

/-- A push moves the stack pointer down by a word. -/
@[simp] theorem rsp_push (v : Word) :
    (s.push v).registers .rsp = slot (s.registers .rsp) (-1) := by
  simp [push]

/-- A push leaves the other registers. -/
@[simp] theorem registers_push {r : Register} (v : Word) (h : r ≠ .rsp) :
    (s.push v).registers r = s.registers r := by
  simp [push, set, h]

/-- A push stores its word below the stack pointer. -/
@[simp] theorem memory_push (v : Word) :
    (s.push v).memory = s.memory.store (slot (s.registers .rsp) (-1)) v := rfl

/-- Dropping a word moves the stack pointer up by one. -/
@[simp] theorem rsp_drop : s.drop.registers .rsp = slot (s.registers .rsp) 1 := by simp [drop]

/-- Dropping a word leaves the other registers. -/
@[simp] theorem registers_drop {r : Register} (h : r ≠ .rsp) :
    s.drop.registers r = s.registers r := by
  simp [drop, h]

/-- A pair of registers is read from its first one. -/
@[simp] theorem read_pair (rm r : Register) : s.read (.pair rm r) = s.registers rm := rfl

/-- A pair of registers is written to its first one. -/
@[simp] theorem write_pair (rm r : Register) (v : Word) : s.write (.pair rm r) v = s.set rm v := rfl

end State

/-- Whether two signed words compare as a condition says. -/
def compares (a b : Word) : Condition → Bool
  | .equal => a == b
  | .notEqual => a != b
  | .less => a.slt b
  | .greaterEqual => b.sle a
  | .lessEqual => a.sle b
  | .greater => b.slt a

private theorem sub_beq_zero (a b : Word) : (a - b == 0) = (a == b) := by
  rw [Bool.eq_iff_iff, beq_iff_eq, beq_iff_eq]
  constructor
  · intro h
    bv_omega
  · rintro rfl
    bv_omega

private theorem msb_sub_bne (a b : Word) : ((a - b).msb != a.ssubOverflow b) = a.slt b := by
  have ha := BitVec.toInt_lt (x := a)
  have hb := BitVec.toInt_lt (x := b)
  have ha' := BitVec.le_toInt a
  have hb' := BitVec.le_toInt b
  rw [BitVec.msb_eq_toInt, BitVec.toInt_sub, BitVec.slt_eq_decide, Bool.eq_iff_iff, bne_iff_ne,
    ne_eq, Bool.eq_iff_iff]
  simp only [BitVec.ssubOverflow, Int.bmod, decide_eq_true_eq, Bool.or_eq_true]
  split <;> omega

private theorem msb_sub_beq (a b : Word) : ((a - b).msb == a.ssubOverflow b) = b.sle a := by
  rw [BitVec.sle_eq_not_slt, ← msb_sub_bne, bne, Bool.not_not]

/-- The flags of a comparison tell how two signed words compare. -/
theorem holds?_cmp (a b : Word) (cond : Condition) :
    (combine .cmp a b).2.holds? cond = some (compares a b cond) := by
  cases cond with
  | equal => exact congrArg some (sub_beq_zero a b)
  | notEqual => exact congrArg (fun z ↦ some (!z)) (sub_beq_zero a b)
  | less => exact congrArg some (msb_sub_bne a b)
  | greaterEqual => exact congrArg some (msb_sub_beq a b)
  | lessEqual =>
    change some ((a - b == 0) || ((a - b).msb != a.ssubOverflow b)) = some (a.sle b)
    rw [sub_beq_zero, msb_sub_bne, BitVec.sle_eq_slt_or_eq, Bool.or_comm]
  | greater =>
    change some (!(a - b == 0) && ((a - b).msb == a.ssubOverflow b)) = some (b.slt a)
    rw [sub_beq_zero, msb_sub_beq, BitVec.slt_eq_sle_and_ne, Bool.and_comm, bne, BEq.comm]

private theorem toInt_extended (n : Word) :
    ((if n.msb then BitVec.allOnes 64 else 0) ++ n).toInt = n.toInt := by
  rw [← BitVec.toInt_signExtend_of_le (x := n) (v := 128) (by omega),
    BitVec.signExtend_eq_append_of_le (by omega)]
  rfl

private theorem quotient_fits {n d : Word} (h : ¬ (d = 0 ∨ n = BitVec.intMin 64 ∧ d = -1)) :
    n.toInt.tdiv d.toInt = (n.sdiv d).toInt := by
  rw [BitVec.toInt_sdiv_of_ne_or_ne]
  by_cases hn : n = BitVec.intMin 64
  · exact .inr fun hd ↦ h (.inr ⟨hn, hd⟩)
  · exact .inl hn

/-- The division of a sign-extended word finds its quotient, or none where there is none. -/
theorem divide_extended (s : State) (d : Word)
    (h : s.registers .rdx = if (s.registers .rax).msb then BitVec.allOnes 64 else 0) :
    s.divide d =
      if d = 0 ∨ s.registers .rax = BitVec.intMin 64 ∧ d = -1 then .error .divideError
      else .ok { (s.set .rax ((s.registers .rax).sdiv d)).set .rdx
        (BitVec.ofInt 64 ((s.registers .rax).toInt.tmod d.toInt)) with flags := .undefined } := by
  have hn : (s.registers .rdx ++ s.registers .rax).toInt = (s.registers .rax).toInt := by
    rw [h, toInt_extended]
  rw [State.divide, hn]
  by_cases hu : d = 0 ∨ s.registers .rax = BitVec.intMin 64 ∧ d = -1
  · rw [if_pos hu, if_pos]
    rcases hu with hd | ⟨hr, hd⟩
    · exact .inl hd
    · rw [hr, hd]
      decide
  · have hq := quotient_fits hu
    have hd : ¬ d = 0 := fun hd ↦ hu (.inl hd)
    have hlow := BitVec.le_toInt ((s.registers .rax).sdiv d)
    have hhigh := BitVec.toInt_lt (x := (s.registers .rax).sdiv d)
    have hf : ¬ (d = 0 ∨ ((s.registers .rax).sdiv d).toInt < -2 ^ 63 ∨
        2 ^ 63 ≤ ((s.registers .rax).sdiv d).toInt) := by
      simp only [hd, false_or]
      omega
    rw [if_neg hu, hq, if_neg hf, BitVec.ofInt_toInt]

/-- Execution goes on after an instruction that does not stop it. -/
theorem run_cons {i : Instruction} {s s' : State} (is : List Instruction)
    (h : execute i s = .ok s') : run (i :: is) s = run is s' := by
  rw [run, h]
  rfl

/-- Execution ends at an instruction that stops it. -/
theorem run_cons_error {i : Instruction} {s : State} {stop : Stop} (is : List Instruction)
    (h : execute i s = .error stop) : run (i :: is) s = .error stop := by
  rw [run, h]
  rfl

/-- Code that follows other code takes over its state. -/
theorem run_append (is js : List Instruction) (s : State) :
    run (is ++ js) s = run is s >>= run js := by
  induction is generalizing s with
  | nil => rfl
  | cons i is ih =>
    simp only [List.cons_append, run]
    cases execute i s with
    | error stop => rfl
    | ok s' => exact ih s'

end NativeBackend.Execution
