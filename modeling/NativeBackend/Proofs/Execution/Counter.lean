import NativeBackend.Machine.Branch
import NativeBackend.Machine.Stream
import NativeBackend.Proofs.Execution.Processor

/-!
# Execution of code in its place

A processor that fetches its instructions from code: the program counter is the offset
of the next one. A jump adds its distance to the offset after it, a call pushes that
offset, and a return goes to the offset at the top of the stack, which may well lie
outside the code.
-/

namespace NativeBackend.Execution

open Machine

/-- A processor in the midst of code. -/
structure Configuration where
  /-- The offset of the next instruction. -/
  counter : Nat
  state : State

/-- The offset a distance away. -/
def displaced (origin : Nat) (d : Int) : Except Stop Nat :=
  if 0 ≤ origin + d then .ok (origin + d).toNat else .error .outsideCode

/-- What an instruction in its place does. -/
def perform (e : Emitted) (s : State) : Except Stop Configuration :=
  match e.instruction with
  | .jmp d => return ⟨← displaced e.finish d.toInt, s⟩
  | .jcc cond d =>
    match s.flags.holds? cond with
    | none => .error .undefinedFlag
    | some true => return ⟨← displaced e.finish d.toInt, s⟩
    | some false => return ⟨e.finish, s⟩
  | .call d => return ⟨← displaced e.finish d.toInt, s.push (BitVec.ofNat 64 e.finish)⟩
  | .ret => return ⟨s.top.toNat, s.drop⟩
  | .syscall => .error .systemCall
  | i => return ⟨e.finish, ← execute i s⟩

/-- What the processor does next. -/
def next (code : CodeStream) (c : Configuration) : Except Stop Configuration :=
  match code.at? c.counter with
  | some e => perform e c.state
  | none => .error .outsideCode

/-- The processor gets from one configuration to another. -/
def Reaches (code : CodeStream) : Configuration → Configuration → Prop :=
  Relation.ReflTransGen fun c c' ↦ next code c = .ok c'

variable {code : CodeStream} {e : Emitted} {s s' : State}

/-- Performing the instruction at the counter is a step of the processor. -/
theorem Reaches.of_perform {c : Configuration} (he : code.at? e.start = some e)
    (h : perform e s = .ok c) : Reaches code ⟨e.start, s⟩ c := by
  refine Relation.ReflTransGen.single ?_
  rw [next, he]
  exact h

/-- An instruction that does not move the program counter leaves it after itself. -/
theorem perform_of_execute (h : execute e.instruction s = .ok s') :
    perform e s = .ok ⟨e.finish, s'⟩ := by
  obtain ⟨i, start, bytes⟩ := e
  cases i with
  | jmp | jcc | call | ret | syscall => cases h
  | _ => exact congrArg (· >>= fun t ↦ pure (Configuration.mk (start + bytes.length) t)) h

/-- A jump leads to the offset its distance was taken to. -/
theorem perform_jmp {d : Distance} {target : Nat} (hi : e.instruction = .jmp d)
    (htarget : (e.finish : Int) + d.toInt = target) : perform e s = .ok ⟨target, s⟩ := by
  rw [perform, hi]
  simp only [displaced, htarget, Int.natCast_nonneg, if_true, Int.toNat_natCast]
  rfl

/-- A conditional jump leads there if its condition holds. -/
theorem perform_jcc {cond : Condition} {d : Distance} {target : Nat} {b : Bool}
    (hi : e.instruction = .jcc cond d) (hb : s.flags.holds? cond = some b)
    (htarget : (e.finish : Int) + d.toInt = target) :
    perform e s = .ok ⟨if b then target else e.finish, s⟩ := by
  rw [perform, hi]
  simp only [hb]
  cases b with
  | true =>
    simp only [displaced, htarget, Int.natCast_nonneg, if_true, Int.toNat_natCast]
    rfl
  | false => rfl

end NativeBackend.Execution
