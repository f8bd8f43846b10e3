import NativeBackend.Fault
import NativeBackend.Proofs.Decoding.RoundTrip

/-!
# Which instructions can be encoded

An instruction can be encoded just if its operand has the shape that it asks for, and the stack
pointer is never an index. How long the encoding is can be told from the outline of the instruction,
which leaves out everything but its form, its registers and how large a displacement is.
-/

namespace NativeBackend.Machine

/-- What an instruction asks of its operand. -/
inductive Demand
  /-- A pair of registers, or a word in memory that carries a register. -/
  | carrying
  /-- A word in memory that carries a register. -/
  | carryingMemory
  /-- A register, or a word in memory, that carries none. -/
  | alone
  deriving DecidableEq, Repr

/-- Whether an operand is as asked for. -/
def Demand.isMetBy : Demand → Operand → Bool
  | carrying, .pair _ _ => true
  | carrying, .mem _ _ reg => reg.isSome
  | carrying, .indexed _ index _ _ reg => reg.isSome && index ≠ .rsp
  | carryingMemory, .mem _ _ reg => reg.isSome
  | carryingMemory, .indexed _ index _ _ reg => reg.isSome && index ≠ .rsp
  | alone, .reg _ => true
  | alone, .mem _ _ reg => reg.isNone
  | alone, .indexed _ index _ _ reg => reg.isNone && index ≠ .rsp
  | _, _ => false

/-- A displacement that stands for its class: zero, those of one byte, or those of four. -/
def displacementClass (disp : Int32) : Int32 :=
  if disp = 0 then 0 else if -128 ≤ disp.toInt ∧ disp.toInt ≤ 127 then 1 else 128

namespace Operand

/-- The bytes that address an operand. -/
def addressLength : Operand → Nat
  | reg _ | pair _ _ => 1
  | mem base disp _ =>
    1 + (if base.lowBits = 4 then 1 else 0) + (displacement base disp).2.length
  | indexed base _ _ disp _ => 2 + (displacement base disp).2.length

/-- Whether one of the registers of an operand needs an extension bit. -/
def isExtended : Operand → Bool
  | reg rm => rm.isExtended
  | pair rm r => r.isExtended || rm.isExtended
  | mem base _ r => r.any (·.isExtended) || base.isExtended
  | indexed base index _ _ r => r.any (·.isExtended) || index.isExtended || base.isExtended

/-- The operand with the same registers, and of its displacement only the class. -/
def outline : Operand → Operand
  | reg rm => reg rm
  | pair rm r => pair rm r
  | mem base disp r => mem base (displacementClass disp) r
  | indexed base index _ disp r => indexed base index .one (displacementClass disp) r

end Operand

namespace Instruction

/-- What an instruction asks of its operand, if it has one. -/
def demand? : Instruction → Option (Demand × Operand)
  | alu _ operand | movStore operand | movLoad operand | imul operand => some (.carrying, operand)
  | lea operand => some (.carryingMemory, operand)
  | aluImm _ operand _ | movImm operand _ | idiv operand | neg operand | not operand
  | push operand | pop operand => some (.alone, operand)
  | _ => none

/-- Whether the operand of an instruction is as asked for. -/
def isEncodable (i : Instruction) : Bool := i.demand?.all fun d ↦ d.1.isMetBy d.2

/-- The instruction of the same form with the same registers, and of its displacement only the
class. Operations, conditions, factors, immediate values and branch distances are left out. -/
def outline : Instruction → Instruction
  | alu _ operand => alu .add operand.outline
  | aluImm _ operand _ => aluImm .add operand.outline 0
  | movStore operand => movStore operand.outline
  | movLoad operand => movLoad operand.outline
  | movImm operand _ => movImm operand.outline 0
  | movAbs dst _ => movAbs dst 0
  | lea operand => lea operand.outline
  | imul operand => imul operand.outline
  | idiv operand => idiv operand.outline
  | neg operand => neg operand.outline
  | not operand => not operand.outline
  | cqo => cqo
  | push operand => push operand.outline
  | pushImm _ => pushImm 0
  | pop operand => pop operand.outline
  | setcc _ dst => setcc .equal dst
  | jmp (.short _) => jmp (.short 0)
  | jmp (.near _) => jmp (.near 0)
  | jcc _ (.short _) => jcc .equal (.short 0)
  | jcc _ (.near _) => jcc .equal (.near 0)
  | call _ => call 0
  | ret => ret
  | syscall => syscall

/-- The bytes of an instruction that can be encoded. -/
def length : Instruction → Nat
  | alu _ operand | movStore operand | movLoad operand | lea operand | idiv operand | neg operand
  | not operand => 2 + operand.addressLength
  | imul operand => 3 + operand.addressLength
  | aluImm _ operand _ | movImm operand _ => 2 + operand.addressLength + 4
  | push (.reg r) | pop (.reg r) => r.isExtended.toNat + 1
  | push operand | pop operand => operand.isExtended.toNat + 1 + operand.addressLength
  | setcc _ dst => (if 4 ≤ dst.number then 1 else 0) + 3
  | movAbs _ _ => 10
  | jcc _ (.near _) => 6
  | pushImm _ | jmp (.near _) | call _ => 5
  | cqo | jmp (.short _) | jcc _ (.short _) | syscall => 2
  | ret => 1

end Instruction

section Addressing

variable {operand : Operand} {field : RegisterField}

/-- What a middle field asks of the operand beside it. -/
def RegisterField.demand : RegisterField → Demand
  | carried => .carrying
  | digit _ => .alone

private theorem isOk_addressing (operand : Operand) (field : RegisterField) :
    (operand.addressing field).isOk = field.demand.isMetBy operand := by
  cases operand with
  | reg rm => cases field <;> rfl
  | pair rm r => cases field <;> rfl
  | mem base disp r => cases field <;> cases r <;> rfl
  | indexed base index scale disp r =>
    by_cases hindex : index = .rsp
    · subst hindex
      cases field <;> cases r <;> rfl
    · cases field <;> cases r <;>
        simp [Operand.addressing, Operand.registerField, Operand.register?, hindex,
          RegisterField.demand, Demand.isMetBy] <;> rfl

private theorem extended_of_registerField {middle : Nat} {extended : Bool}
    (h : operand.registerField field = .ok (middle, extended)) :
    extended = operand.register?.any (·.isExtended) := by
  cases field with
  | carried =>
    cases hr : operand.register? with
    | none => simp [Operand.registerField, hr] at h
    | some r =>
      simp only [Operand.registerField, hr, Except.ok.injEq, Prod.mk.injEq] at h
      exact h.2.symm
  | digit d =>
    cases hr : operand.register? with
    | none =>
      simp only [Operand.registerField, hr, Except.ok.injEq, Prod.mk.injEq] at h
      exact h.2.symm
    | some r => simp [Operand.registerField, hr] at h

private theorem length_addressing {a : Addressing} (h : operand.addressing field = .ok a) :
    a.bytes.length = operand.addressLength ∧
      (a.rexReg || a.rexIndex || a.rexBase) = operand.isExtended := by
  rw [Operand.addressing] at h
  cases hf : operand.registerField field with
  | error cause =>
    rw [hf] at h
    cases h
  | ok found =>
    obtain ⟨middle, extended⟩ := found
    have hextended := extended_of_registerField hf
    rw [hf] at h
    cases operand with
    | reg rm =>
      cases h
      simp [Operand.addressLength, Operand.isExtended, hextended, Operand.register?]
    | pair rm r =>
      cases h
      simp [Operand.addressLength, Operand.isExtended, hextended, Operand.register?]
    | mem base disp r =>
      -- The bytes are named first: taking `h` apart would open the displacement too.
      have hbytes : ∃ mode, a.bytes = bitFields mode middle base.lowBits ::
          ((if base.lowBits = 4 then [bitFields 0 4 4] else []) ++ (displacement base disp).2) := by
        cases h
        exact ⟨_, rfl⟩
      obtain ⟨mode, hbytes⟩ := hbytes
      cases h
      refine ⟨?_, by simp [Operand.isExtended, hextended, Operand.register?]⟩
      rw [hbytes, Operand.addressLength, List.length_cons, List.length_append]
      split
      · rw [List.length_singleton]
        omega
      · rw [List.length_nil]
        omega
    | indexed base index scale disp r =>
      by_cases hindex : index = .rsp
      · subst hindex
        cases h
      · simp only [hindex, if_false] at h
        have hbytes : ∃ mode low, a.bytes = mode :: low :: (displacement base disp).2 := by
          cases h
          exact ⟨_, _, rfl⟩
        obtain ⟨mode, low, hbytes⟩ := hbytes
        cases h
        refine ⟨?_, by simp [Operand.isExtended, hextended, Operand.register?]⟩
        rw [hbytes, Operand.addressLength, List.length_cons, List.length_cons]
        omega

private theorem Rex.length_bytes (r : Rex) :
    r.bytes.length = (r.wide || r.reg || r.index || r.base).toNat := by
  obtain ⟨wide, reg, index, base⟩ := r
  revert wide reg index base
  decide

/-- The count of bytes, where there are any. -/
def byteCount? (encoded : Except OperandFault (List UInt8)) : Option Nat :=
  encoded.toOption.map List.length

/-- An addressed operand has an extension byte, where one is needed, and the opcode before it. -/
theorem byteCount?_addressed (wide : Bool) (opcode : List UInt8) (operand : Operand)
    (field : RegisterField) :
    byteCount? (Instruction.addressed wide opcode operand field) =
      if field.demand.isMetBy operand then
        some ((wide || operand.isExtended).toNat + opcode.length + operand.addressLength)
      else none := by
  rw [← isOk_addressing, Instruction.addressed]
  cases ha : operand.addressing field with
  | error cause => rfl
  | ok a =>
    obtain ⟨hlength, hextended⟩ := length_addressing ha
    rw [← hlength, ← hextended, ← Bool.or_assoc, ← Bool.or_assoc]
    change some (List.length (_ ++ _ ++ _)) = some _
    rw [List.length_append, List.length_append, Rex.length_bytes]

private theorem byteCount?_immediate (encoded : Except OperandFault (List UInt8))
    (tail : List UInt8) :
    byteCount? (return (← encoded) ++ tail) = (byteCount? encoded).map (· + tail.length) := by
  cases encoded with
  | error cause => rfl
  | ok bytes => exact congrArg some List.length_append

private theorem addressLength_bounds (operand : Operand) :
    1 ≤ operand.addressLength ∧ operand.addressLength ≤ 6 := by
  have hdisplacement (base : Register) (disp : Int32) : (displacement base disp).2.length ≤ 4 := by
    rw [displacement]
    split
    · exact Nat.zero_le 4
    · split <;> simp [dwordBytes]
  cases operand with
  | reg rm => simp [Operand.addressLength]
  | pair rm r => simp [Operand.addressLength]
  | mem base disp r =>
    have hle := hdisplacement base disp
    rw [Operand.addressLength]
    split <;> omega
  | indexed base index scale disp r =>
    have hle := hdisplacement base disp
    rw [Operand.addressLength]
    omega

end Addressing

section Instructions

variable {i : Instruction} {bs : List UInt8}

private theorem byteCount?_withImmediate (opcode : UInt8) (operand : Operand) (digit : Nat)
    (value : Int32) :
    byteCount? (return (← Instruction.addressed true [opcode] operand (.digit digit)) ++
        dwordBytes value) =
      if Demand.alone.isMetBy operand then some (2 + operand.addressLength + 4) else none := by
  rw [byteCount?_immediate, byteCount?_addressed]
  cases hmet : Demand.alone.isMetBy operand <;> simp [RegisterField.demand, hmet, dwordBytes]

private theorem byteCount?_registerOpcode (opcode : Nat) (r : Register) :
    byteCount? (.ok (Instruction.registerOpcode opcode r)) = some (r.isExtended.toNat + 1) := by
  apply congrArg some
  rw [Instruction.registerOpcode, List.length_append, Rex.length_bytes]
  rfl

/-- An instruction has bytes just if its operand is as asked for, and how many they are. -/
theorem byteCount?_encode (i : Instruction) :
    byteCount? i.encode = if i.isEncodable then some i.length else none := by
  -- The operand is split only where the instruction looks at its shape before it is addressed.
  cases i with
  | alu op operand => exact byteCount?_addressed true [op.opcode] operand .carried
  | aluImm op operand value => exact byteCount?_withImmediate 0x81 operand op.digit value
  | movStore operand => exact byteCount?_addressed true [0x89] operand .carried
  | movLoad operand =>
    cases operand with
    | reg r => rfl
    | pair rm r => exact byteCount?_addressed true [0x8B] (.pair rm r) .carried
    | mem base disp r => exact byteCount?_addressed true [0x8B] (.mem base disp r) .carried
    | indexed base index scale disp r =>
      exact byteCount?_addressed true [0x8B] (.indexed base index scale disp r) .carried
  | movImm operand value => exact byteCount?_withImmediate 0xC7 operand 0 value
  | movAbs dst value => rfl
  | lea operand =>
    cases operand with
    | reg r => rfl
    | pair rm r => rfl
    | mem base disp r => exact byteCount?_addressed true [0x8D] (.mem base disp r) .carried
    | indexed base index scale disp r =>
      exact byteCount?_addressed true [0x8D] (.indexed base index scale disp r) .carried
  | imul operand =>
    cases operand with
    | reg r => rfl
    | pair rm r => exact byteCount?_addressed true [0x0F, 0xAF] (.pair rm r) .carried
    | mem base disp r => exact byteCount?_addressed true [0x0F, 0xAF] (.mem base disp r) .carried
    | indexed base index scale disp r =>
      exact byteCount?_addressed true [0x0F, 0xAF] (.indexed base index scale disp r) .carried
  | idiv operand => exact byteCount?_addressed true [0xF7] operand (.digit 7)
  | neg operand => exact byteCount?_addressed true [0xF7] operand (.digit 3)
  | not operand => exact byteCount?_addressed true [0xF7] operand (.digit 2)
  | cqo => rfl
  | push operand =>
    cases operand with
    | reg r => exact byteCount?_registerOpcode 0x50 r
    | pair rm r => rfl
    | mem base disp r => exact byteCount?_addressed false [0xFF] (.mem base disp r) (.digit 6)
    | indexed base index scale disp r =>
      exact byteCount?_addressed false [0xFF] (.indexed base index scale disp r) (.digit 6)
  | pushImm value => rfl
  | pop operand =>
    cases operand with
    | reg r => exact byteCount?_registerOpcode 0x58 r
    | pair rm r => rfl
    | mem base disp r => exact byteCount?_addressed false [0x8F] (.mem base disp r) (.digit 0)
    | indexed base index scale disp r =>
      exact byteCount?_addressed false [0x8F] (.indexed base index scale disp r) (.digit 0)
  | setcc cond dst =>
    apply congrArg some
    rw [List.length_append, apply_ite List.length]
    rfl
  | jmp d => cases d <;> rfl
  | jcc cond d => cases d <;> rfl
  | call d => rfl
  | ret => rfl
  | syscall => rfl

private theorem length_bounds (i : Instruction) : 1 ≤ i.length ∧ i.length ≤ 12 := by
  cases i with
  | alu op operand | movStore operand | movLoad operand | lea operand | imul operand | idiv operand
  | neg operand | not operand | aluImm op operand value | movImm operand value =>
    have hbounds := addressLength_bounds operand
    simp only [Instruction.length]
    omega
  | push operand | pop operand =>
    have hbounds := addressLength_bounds operand
    have hbit := operand.isExtended.toNat_le
    cases operand with
    | reg r =>
      have hregister := r.isExtended.toNat_le
      simp only [Instruction.length]
      omega
    | pair rm r | mem base disp r | indexed base index scale disp r =>
      simp only [Instruction.length]
      omega
  | setcc cond dst =>
    simp only [Instruction.length]
    split <;> omega
  | jmp d | jcc cond d => cases d <;> simp [Instruction.length]
  | movAbs dst value | cqo | pushImm value | call d | ret | syscall => simp [Instruction.length]

private theorem length_displacement_class (base : Register) (disp : Int32) :
    (displacement base (displacementClass disp)).2.length = (displacement base disp).2.length := by
  by_cases hzero : disp = 0
  · rw [displacementClass, if_pos hzero, hzero]
  · have hmode (d : Int32) (hd : d ≠ 0) : (displacement base d).2.length =
        if -128 ≤ d.toInt ∧ d.toInt ≤ 127 then 1 else 4 := by
      rw [displacement, if_neg fun h ↦ hd h.1]
      simp only [fitsByte, Bool.and_eq_true, decide_eq_true_eq]
      split <;> simp [dwordBytes]
    rw [displacementClass, if_neg hzero]
    split
    · next hbyte => rw [hmode disp hzero, if_pos hbyte, hmode 1 (by decide)]; rfl
    · next hbyte => rw [hmode disp hzero, if_neg hbyte, hmode 128 (by decide)]; rfl

@[simp] private theorem Demand.isMetBy_outline (d : Demand) (operand : Operand) :
    d.isMetBy operand.outline = d.isMetBy operand := by
  cases d <;> cases operand <;> rfl

@[simp] private theorem Operand.addressLength_outline (operand : Operand) :
    operand.outline.addressLength = operand.addressLength := by
  cases operand with
  | reg rm => rfl
  | pair rm r => rfl
  | mem base disp r => simp only [outline, addressLength, length_displacement_class]
  | indexed base index scale disp r => simp only [outline, addressLength, length_displacement_class]

private theorem demand?_outline (i : Instruction) :
    i.outline.demand? = i.demand?.map fun d ↦ (d.1, d.2.outline) := by
  cases i with
  | jmp d | jcc cond d => cases d <;> rfl
  | _ => rfl

private theorem isEncodable_outline (i : Instruction) : i.outline.isEncodable = i.isEncodable := by
  simp only [Instruction.isEncodable, demand?_outline, Option.all_map,
    Demand.isMetBy_outline]

private theorem length_outline (i : Instruction) : i.outline.length = i.length := by
  cases i with
  | push operand | pop operand =>
    cases operand with
    | reg r | pair rm r => rfl
    | mem base disp r =>
      exact congrArg (_ + 1 + ·) (Operand.addressLength_outline (.mem base disp r))
    | indexed base index scale disp r =>
      exact congrArg (_ + 1 + ·) (Operand.addressLength_outline (.indexed base index scale disp r))
  | jmp d | jcc cond d => cases d <;> rfl
  | _ => simp [Instruction.outline, Instruction.length]

private theorem encode_eq_ok (h : i.encode = .ok bs) :
    i.isEncodable = true ∧ bs.length = i.length := by
  have hcount := byteCount?_encode i
  rw [h] at hcount
  split at hcount
  · next hencodable => exact ⟨hencodable, Option.some.inj hcount⟩
  · cases hcount

private theorem exists_encode_of_isEncodable (h : i.isEncodable = true) : ∃ bs, i.encode = .ok bs :=
  by
  have hcount := byteCount?_encode i
  rw [if_pos h] at hcount
  cases hencode : i.encode with
  | ok bs => exact ⟨bs, rfl⟩
  | error cause =>
    rw [hencode] at hcount
    cases hcount

/-- Every instruction has bytes. -/
theorem length_encode_pos (h : i.encode = .ok bs) : 0 < bs.length := by
  rw [(encode_eq_ok h).2]
  exact (length_bounds i).1

end Instructions

/-- An instruction can be encoded just if its operand is as asked for, and it is refused for its
operand otherwise. An encoding has at most twelve bytes, and as many as those of all instructions
with the same outline. -/
theorem encodes_iff_isEncodable (i : Instruction) :
    ((∃ bs, i.encode = .ok bs) ↔ i.isEncodable = true) ∧
    (i.isEncodable = false → ∃ cause, i.encode = .error cause ∧
      (Fault.stream (.operand cause)).kind = "InvalidOperand") ∧
    ∀ bs, i.encode = .ok bs → 1 ≤ bs.length ∧ bs.length ≤ 12 ∧
      ∀ j : Instruction, j.outline = i.outline →
        ∃ cs, j.encode = .ok cs ∧ cs.length = bs.length := by
  refine ⟨⟨fun ⟨bs, h⟩ ↦ (encode_eq_ok h).1, exists_encode_of_isEncodable⟩, ?_, ?_⟩
  · intro hrefused
    cases hencode : i.encode with
    | error cause => exact ⟨cause, rfl, rfl⟩
    | ok bs =>
      have hencodable := (encode_eq_ok hencode).1
      rw [hrefused] at hencodable
      cases hencodable
  · intro bs h
    obtain ⟨hencodable, hlength⟩ := encode_eq_ok h
    rw [hlength]
    refine ⟨(length_bounds i).1, (length_bounds i).2, fun j hj ↦ ?_⟩
    have hsame : j.isEncodable = true := by
      rw [← isEncodable_outline, hj, isEncodable_outline, hencodable]
    obtain ⟨cs, hcs⟩ := exists_encode_of_isEncodable hsame
    refine ⟨cs, hcs, ?_⟩
    rw [(encode_eq_ok hcs).2, ← length_outline, hj, length_outline]

end NativeBackend.Machine
