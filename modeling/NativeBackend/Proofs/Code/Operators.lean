import NativeBackend.Emission.Lowering
import NativeBackend.Proofs.Execution.Processor
import NativeBackend.Proofs.Source.Evaluation

/-!
# Operators in code

The instructions of an operator, run on operands in the registers that hold them, push
the value of the operator, or stop at a division exactly when there is no value.
-/

namespace NativeBackend

open Machine Convention Execution

/-- One state is another with a word pushed; registers other than the stack pointer and the frame
base may differ. -/
structure Puts (v : Word) (s s' : State) : Prop where
  rsp : s'.registers .rsp = slot (s.registers .rsp) (-1)
  rbp : s'.registers .rbp = s.registers .rbp
  memory : s'.memory = s.memory.store (slot (s.registers .rsp) (-1)) v

/-- What comes of a computation that pushes the value of an operator, if it has one. -/
def PutsValue (value : Except Source.NoValue Word) (s : State) (r : Except Stop State) : Prop :=
  match value with
  | .ok v => ∃ s', r = .ok s' ∧ Puts v s s'
  | .error .division => r = .error .divideError
  | .error .meaningless => False

/-- A push after changes to other registers. -/
theorem puts_push {s t : State} (v : Word) (hrsp : t.registers .rsp = s.registers .rsp)
    (hrbp : t.registers .rbp = s.registers .rbp) (hm : t.memory = s.memory) :
    Puts v s (t.push v) := by
  refine ⟨?_, ?_, ?_⟩
  · rw [State.rsp_push, hrsp]
  · rw [State.registers_push _ _ (by decide), hrbp]
  · rw [State.memory_push, hm, hrsp]

private theorem run_alu (s : State) {op : AluOp} (hop : op ≠ .cmp) :
    ∃ s', run [.aluReg op result scratch, .pushReg result] s = .ok s' ∧
      Puts (combine op (s.registers .rax) (s.registers .rcx)).1 s s' := by
  let r := combine op (s.registers .rax) (s.registers .rcx)
  have he : execute (.aluReg op result scratch) s =
      .ok { s.set .rax r.1 with flags := r.2 } := by
    change Except.ok (s.apply op (.pair .rax .rcx) (s.registers .rcx)) = _
    simp only [State.apply, hop, ite_false, State.read_pair, State.write_pair]
    rfl
  refine ⟨_, run_cons _ he, puts_push r.1 rfl rfl rfl⟩

private theorem withLowByte_zero (b : Bool) : withLowByte 0 b = Source.truth b := by
  cases b <;> decide

private theorem run_comparison (s : State) (cond : Condition) :
    ∃ s', run (comparison cond) s = .ok s' ∧
      Puts (Source.truth (compares (s.registers .rax) (s.registers .rcx) cond)) s s' := by
  let b := compares (s.registers .rax) (s.registers .rcx) cond
  let cleared : State :=
    { s.set .rdx (s.registers .rdx ^^^ s.registers .rdx) with
      flags := (combine .xor (s.registers .rdx) (s.registers .rdx)).2 }
  let compared : State :=
    { cleared with flags := (combine .cmp (s.registers .rax) (s.registers .rcx)).2 }
  have hf : compared.flags.holds? cond = some b := holds?_cmp _ _ cond
  have he : execute (.setcc cond flag) compared = .ok (compared.set .rdx (Source.truth b)) := by
    have hz : compared.registers .rdx = 0 := by
      change s.registers .rdx ^^^ s.registers .rdx = 0
      exact BitVec.xor_self
    rw [execute, hf]
    change Except.ok (compared.set .rdx (withLowByte (compared.registers .rdx) b)) = _
    rw [hz, withLowByte_zero]
  refine ⟨(compared.set .rdx (Source.truth b)).push (Source.truth b), ?_, puts_push _ rfl rfl rfl⟩
  calc run (comparison cond) s
      = run [.aluReg .cmp result scratch, .setcc cond flag, .pushReg flag] cleared := rfl
    _ = run [.setcc cond flag, .pushReg flag] compared := rfl
    _ = run [.pushReg flag] (compared.set .rdx (Source.truth b)) := run_cons _ he
    _ = .ok ((compared.set .rdx (Source.truth b)).push (Source.truth b)) := rfl

private theorem run_division (s : State) :
    PutsValue (Source.binary .div (s.registers .rax) (s.registers .rcx)) s
      (run [.cqo, .idiv (.reg scratch), .pushReg result] s) := by
  let extended := s.set .rdx (if (s.registers .rax).msb then BitVec.allOnes 64 else 0)
  have hx : run [.cqo, .idiv (.reg scratch), .pushReg result] s =
      run [.idiv (.reg scratch), .pushReg result] extended := rfl
  have hd : execute (.idiv (.reg scratch)) extended = _ :=
    divide_extended extended (s.registers .rcx) rfl
  have hr : extended.registers .rax = s.registers .rax := rfl
  rw [hr] at hd
  rw [hx, Source.binary]
  by_cases h : s.registers .rcx = 0 ∨ s.registers .rax = BitVec.intMin 64 ∧ s.registers .rcx = -1
  · rw [if_pos h] at hd ⊢
    exact run_cons_error _ hd
  · rw [if_neg h] at hd ⊢
    exact ⟨_, run_cons _ hd, puts_push _ rfl rfl rfl⟩

private theorem run_product (s : State) :
    ∃ s', run [.imul (.pair scratch result), .pushReg result] s = .ok s' ∧
      Puts (s.registers .rax * s.registers .rcx) s s' :=
  ⟨_, rfl, puts_push _ rfl rfl rfl⟩

/-- The instructions of an operator push its value. -/
theorem run_binaryInstructions (s : State) (op : Tree.BinaryOp) :
    PutsValue (Source.binary op (s.registers .rax) (s.registers .rcx)) s
      (run (binaryInstructions op) s) := by
  cases op with
  | add => exact run_alu s (by decide)
  | sub => exact run_alu s (by decide)
  | and => exact run_alu s (by decide)
  | or => exact run_alu s (by decide)
  | mul => exact run_product s
  | div => exact run_division s
  | eq => exact run_comparison s .equal
  | ne => exact run_comparison s .notEqual
  | lt => exact run_comparison s .less
  | le => exact run_comparison s .lessEqual
  | gt => exact run_comparison s .greater
  | ge => exact run_comparison s .greaterEqual

end NativeBackend
