import NativeBackend.Proofs.Decoding.Decoder

/-!
# Decoding undoes encoding

`Reads` says that a reader takes exactly some bytes, whatever stands behind them. The
parts of an encoding are read one after the other: the fields of a byte, a
displacement, the place that an operand names, the operand beside a register or a
digit, and what stands around it. So an instruction is read from its own bytes alone
(`reads_encode`), and a sweep over the code of many finds them all.
-/

namespace NativeBackend.Machine

/-- A reader takes exactly these bytes, whatever follows them, and gives a value. -/
def Reads {α : Type} (x : Decode α) (bs : List UInt8) (v : α) : Prop :=
  ∀ rest, x (bs ++ rest) = some (v, rest)

namespace Reads

variable {α β : Type} {x : Decode α} {f : α → Decode β} {bs cs : List UInt8} {v : α} {w : β}

private theorem pure (v : α) : Reads (Pure.pure v) [] v := fun _ ↦ rfl

private theorem bind (hx : Reads x bs v) (hf : Reads (f v) cs w) : Reads (x >>= f) (bs ++ cs) w :=
  by
  intro rest
  change (x (bs ++ cs ++ rest)).bind (fun p ↦ f p.1 p.2) = _
  rw [List.append_assoc, hx, Option.bind_some]
  exact hf rest

/-- What is made of a value takes no more bytes. -/
theorem map (g : α → β) (hx : Reads x bs v) :
    Reads (x >>= fun v ↦ Pure.pure (g v)) bs (g v) := by
  rw [← List.append_nil bs]
  exact hx.bind (pure (g v))

/-- A value that is there takes no bytes. -/
theorem lift {o : Option α} (ho : o = some v) : Reads (liftM o) [] v := by
  subst ho
  exact pure v

private theorem lift_bind {o : Option α} (ho : o = some v) (hf : Reads (f v) bs w) :
    Reads ((liftM o : Decode α) >>= f) bs w :=
  (lift ho).bind hf

private theorem byte (b : UInt8) : Reads Decode.byte [b] b := fun _ ↦ rfl

private theorem byte_bind {f : UInt8 → Decode β} {b : UInt8} (hf : Reads (f b) bs w) :
    Reads (Decode.byte >>= f) (b :: bs) w :=
  (byte b).bind hf

/-- A number is read back as far as its bytes hold it. -/
theorem number (width n : Nat) :
    Reads (Decode.number width) (littleEndian width n) (n % 256 ^ width) := by
  induction width generalizing n with
  | zero =>
    rw [Nat.pow_zero, Nat.mod_one]
    exact pure 0
  | succ width ih =>
    have h : n % 256 ^ (width + 1) =
        (UInt8.ofNat n).toNat + 256 * (n / 256 % 256 ^ width) := by
      rw [Nat.pow_succ, Nat.mul_comm, Nat.mod_mul, UInt8.toNat_ofNat']
    rw [h]
    exact byte_bind ((ih (n / 256)).map fun k ↦ (UInt8.ofNat n).toNat + 256 * k)

private theorem dword (word : Int32) : Reads Decode.dword (dwordBytes word) word := by
  have hlt : word.toUInt32.toNat < 256 ^ 4 := word.toUInt32.toNat_lt
  have h := (number 4 word.toUInt32.toNat).map fun n ↦ (UInt32.ofNat n).toInt32
  rwa [Nat.mod_eq_of_lt hlt, UInt32.ofNat_toNat, Int32.toInt32_toUInt32] at h

private theorem qword (word : UInt64) : Reads Decode.qword (qwordBytes word) word := by
  have hlt : word.toNat < 256 ^ 8 := word.toNat_lt
  have h := (number 8 word.toNat).map UInt64.ofNat
  rwa [Nat.mod_eq_of_lt hlt, UInt64.ofNat_toNat] at h

private theorem signedByte (d : Int8) : Reads Decode.signedByte [d.toUInt8] d := by
  have h := (byte d.toUInt8).map UInt8.toInt8
  rwa [Int8.toInt8_toUInt8] at h

end Reads

section Fields

@[simp] private theorem Register.ofBits_lowBits (r : Register) :
    .ofBits r.isExtended r.lowBits = r := by
  cases r <;> rfl

private theorem Register.lowBits_lt (r : Register) : r.lowBits < 8 := Nat.mod_lt _ (by decide)

/-- Only the stack pointer has the index bits that mean no index. -/
theorem Register.eq_rsp {r : Register} (h : r.lowBits = 4 ∧ r.isExtended = false) : r = .rsp := by
  revert h
  cases r <;> decide

@[simp] private theorem Scale.ofBits_bits (s : Scale) : .ofBits s.bits = s := by cases s <;> rfl

private theorem Scale.bits_lt (s : Scale) : s.bits < 4 := by cases s <;> decide

/-- Every condition is read back from its code. -/
@[simp] theorem Condition.ofCode?_code (c : Condition) : ofCode? c.code = some c := by
  cases c <;> rfl

/-- Every operation is read back from its opcode. -/
@[simp] theorem AluOp.ofOpcode?_opcode (op : AluOp) : ofOpcode? op.opcode = some op := by
  cases op <;> rfl

/-- Every operation is read back from its digit. -/
@[simp] theorem AluOp.ofDigit?_digit (op : AluOp) : ofDigit? op.digit = some op := by
  cases op <;> rfl

variable {high middle low : Nat}

/-- The fields of an addressing byte are read back. -/
theorem bitFields_fields (hh : high < 4) (hm : middle < 8) (hl : low < 8) :
    (bitFields high middle low).toNat / 64 = high ∧
      (bitFields high middle low).toNat / 8 % 8 = middle ∧
      (bitFields high middle low).toNat % 8 = low := by
  have h : (bitFields high middle low).toNat = 64 * high + 8 * middle + low := by
    rw [bitFields, UInt8.toNat_ofNat']
    omega
  omega

end Fields

private theorem toUInt8_toUInt32 (d : Int32) : d.toUInt32.toUInt8 = d.toInt8.toUInt8 := by
  apply UInt8.toBitVec_inj.mp
  change d.toBitVec.setWidth 8 = d.toBitVec.signExtend 8
  rw [BitVec.signExtend_eq_setWidth_of_le _ (by omega)]

private theorem toInt32_toInt8 {d : Int32} (hlow : -128 ≤ d.toInt) (hhigh : d.toInt ≤ 127) :
    d.toInt8.toInt32 = d := by
  apply Int32.toInt_inj.mp
  rw [Int8.toInt_toInt32, Int32.toInt_toInt8]
  exact Int.bmod_eq_of_le (by omega) (by omega)

/-- The displacement that follows an addressing byte is read back, and a mode without one is never
used where it would mean no base. -/
theorem reads_displacement (base : Register) (disp : Int32) :
    (displacement base disp).1 < 3 ∧
      ¬ (base.lowBits = 5 ∧ (displacement base disp).1 = 0) ∧
      Reads (Decode.displacement (displacement base disp).1) (displacement base disp).2 disp := by
  rw [displacement]
  split
  · next h =>
    refine ⟨by omega, fun h' ↦ h.2 h'.1, ?_⟩
    rw [h.1]
    exact .pure 0
  · split
    · next h =>
      have hb : -128 ≤ disp.toInt ∧ disp.toInt ≤ 127 := by simpa [fitsByte] using h
      refine ⟨by omega, by omega, ?_⟩
      rw [toUInt8_toUInt32]
      have hread := (Reads.signedByte disp.toInt8).map Int8.toInt32
      rwa [toInt32_toInt8 hb.1 hb.2] at hread
    · exact ⟨by omega, by omega, .dword disp⟩

section Places

variable {rex : Rex} {base : Register}

/-- A register in the place of a memory word. -/
theorem reads_place_register (hb : rex.base = base.isExtended) :
    Reads (Decode.place rex 3 base.lowBits) [] (.register base) := by
  rw [Decode.place, if_pos rfl, hb, Register.ofBits_lowBits]
  exact .pure _

/-- The bytes of a base and a displacement. A base with the low bits `100` is read through the index
byte that says there is no index. -/
theorem reads_place_base (disp : Int32) (hb : rex.base = base.isExtended)
    (hi : rex.index = false) :
    Reads (Decode.place rex (displacement base disp).1 base.lowBits)
      ((if base.lowBits = 4 then [bitFields 0 4 4] else []) ++ (displacement base disp).2)
      (.memory (some base) none disp) := by
  obtain ⟨hmode, hnone, hread⟩ := reads_displacement base disp
  have h3 : ¬ (displacement base disp).1 = 3 := by omega
  rw [Decode.place, if_neg h3]
  by_cases h4 : base.lowBits = 4
  · have hname : Register.ofBits rex.base 4 = base := by
      rw [hb, ← h4, Register.ofBits_lowBits]
    rw [if_pos h4, if_pos h4]
    apply Reads.byte_bind
    have hsib : (bitFields 0 4 4).toNat = 36 := rfl
    simp only [hsib, hi]
    simpa [hname] using hread.map (Place.memory (some base) none)
  · rw [if_neg h4, if_neg h4, if_neg hnone, hb, Register.ofBits_lowBits]
    exact hread.map (Place.memory (some base) none)

/-- The bytes of a base, an index and a displacement. -/
theorem reads_place_indexed {index : Register} (scale : Scale) (disp : Int32)
    (hb : rex.base = base.isExtended) (hi : rex.index = index.isExtended) (hsp : index ≠ .rsp) :
    Reads (Decode.place rex (displacement base disp).1 4)
      (bitFields scale.bits index.lowBits base.lowBits :: (displacement base disp).2)
      (.memory (some base) (some (index, scale)) disp) := by
  obtain ⟨hmode, hnone, hread⟩ := reads_displacement base disp
  obtain ⟨hscale, hindex, hbase⟩ :=
    bitFields_fields scale.bits_lt index.lowBits_lt base.lowBits_lt
  have h3 : ¬ (displacement base disp).1 = 3 := by omega
  have h4 : ¬ (index.lowBits = 4 ∧ index.isExtended = false) := fun h ↦ hsp (Register.eq_rsp h)
  rw [Decode.place, if_neg h3, if_pos rfl]
  apply Reads.byte_bind
  simp only [hscale, hindex, hbase, hi, hb]
  rw [if_neg h4, if_neg hnone, Register.ofBits_lowBits, Register.ofBits_lowBits, Scale.ofBits_bits]
  exact hread.map (Place.memory (some base) (some (index, scale)))

end Places

/-- The extension bits of an addressed operand. -/
def Addressing.rex (a : Addressing) (wide : Bool) : Rex := ⟨wide, a.rexReg, a.rexIndex, a.rexBase⟩

section Operands

variable {operand : Operand} {field : RegisterField} {a : Addressing}

/-- The addressing bytes of an operand name its place. -/
theorem reads_place (wide : Bool) (h : operand.addressing field = .ok a) :
    ∃ middle mode low tail p, operand.registerField field = .ok (middle, a.rexReg) ∧
      a.bytes = bitFields mode middle low :: tail ∧ mode < 4 ∧ low < 8 ∧
      Reads (Decode.place (a.rex wide) mode low) tail p ∧
      p.operand? operand.register? = some operand := by
  rw [Operand.addressing] at h
  cases hf : operand.registerField field with
  | error cause =>
    rw [hf] at h
    cases h
  | ok middleBits =>
    obtain ⟨middle, rexReg⟩ := middleBits
    rw [hf] at h
    cases operand with
    | reg rm =>
      cases h
      exact ⟨middle, 3, rm.lowBits, [], .register rm, rfl, rfl, by omega, rm.lowBits_lt,
        reads_place_register rfl, rfl⟩
    | pair rm r =>
      cases h
      exact ⟨middle, 3, rm.lowBits, [], .register rm, rfl, rfl, by omega, rm.lowBits_lt,
        reads_place_register rfl, rfl⟩
    | mem base disp r =>
      cases h
      have hmode := (reads_displacement base disp).1
      exact ⟨middle, (displacement base disp).1, base.lowBits, _, .memory (some base) none disp,
        rfl, rfl, by omega, base.lowBits_lt, reads_place_base disp rfl rfl, rfl⟩
    | indexed base index scale disp r =>
      by_cases hsp : index = .rsp
      · subst hsp
        cases h
      · simp only [hsp, if_false] at h
        cases h
        have hmode := (reads_displacement base disp).1
        exact ⟨middle, (displacement base disp).1, 4, _,
          .memory (some base) (some (index, scale)) disp, rfl, rfl, by omega, by omega,
          reads_place_indexed scale disp rfl rfl hsp, rfl⟩

/-- An operand is read back with the register that it carries. -/
theorem reads_carried (wide : Bool) (h : operand.addressing .carried = .ok a) :
    Reads (Decode.carried (a.rex wide)) a.bytes operand := by
  obtain ⟨middle, mode, low, tail, p, hfield, hbytes, hmode, hlow, hread, hp⟩ :=
    reads_place wide h
  cases hr : operand.register? with
  | none => simp [Operand.registerField, hr] at hfield
  | some r =>
    simp only [Operand.registerField, hr, Except.ok.injEq, Prod.mk.injEq] at hfield
    obtain ⟨rfl, hext⟩ := hfield
    have hreg : (a.rex wide).reg = r.isExtended := hext.symm
    obtain ⟨hhigh, hmiddle, hlast⟩ := bitFields_fields hmode r.lowBits_lt hlow
    rw [hbytes, ← List.append_nil tail]
    apply Reads.byte_bind
    simp only [hhigh, hmiddle, hlast, hreg, Register.ofBits_lowBits]
    rw [hr] at hp
    exact hread.bind (.lift hp)

/-- An operand that carries no register is read back with the digit of the opcode. -/
theorem reads_digit (wide : Bool) {d : Nat} (hd : d < 8)
    (h : operand.addressing (.digit d) = .ok a) :
    Reads (Decode.digit (a.rex wide)) a.bytes (d, operand) := by
  obtain ⟨middle, mode, low, tail, p, hfield, hbytes, hmode, hlow, hread, hp⟩ :=
    reads_place wide h
  cases hr : operand.register? with
  | some r => simp [Operand.registerField, hr] at hfield
  | none =>
    simp only [Operand.registerField, hr, Except.ok.injEq, Prod.mk.injEq] at hfield
    obtain ⟨rfl, -⟩ := hfield
    obtain ⟨hhigh, hmiddle, hlast⟩ := bitFields_fields hmode hd hlow
    rw [hbytes, ← List.append_nil tail]
    apply Reads.byte_bind
    simp only [hhigh, hmiddle, hlast]
    rw [hr] at hp
    exact hread.bind (.lift_bind hp (.pure _))

end Operands

namespace Rex

@[simp] private theorem isByte_byte (r : Rex) : isByte r.byte = true := by
  obtain ⟨wide, reg, index, base⟩ := r
  revert wide reg index base
  decide

@[simp] private theorem ofByte_byte (r : Rex) : ofByte r.byte = r := by
  obtain ⟨wide, reg, index, base⟩ := r
  revert wide reg index base
  decide

private theorem bytes_eq (r : Rex) : r.bytes = if r = clear then [] else [r.byte] := by
  obtain ⟨wide, reg, index, base⟩ := r
  revert wide reg index base
  decide

end Rex

section Instructions

variable {i : Instruction} {opcode : UInt8} {more bs tail : List UInt8} {operand : Operand}
  {field : RegisterField} {wide : Bool}

/-- An opcode that is no extension byte is read after an extension byte, which is left out when it
has no bits. -/
theorem reads_prefixed (r : Rex) (hop : Rex.isByte opcode = false)
    (h : ∀ rex : Option Rex, rex.getD .clear = r → Reads (Decode.operation rex opcode) bs i) :
    Reads Decode.instruction (r.bytes ++ opcode :: bs) i := by
  rw [Rex.bytes_eq]
  split
  · next hclear =>
    apply Reads.byte_bind
    rw [hop, if_neg Bool.false_ne_true]
    exact h none hclear.symm
  · apply Reads.byte_bind
    rw [Rex.isByte_byte, if_pos rfl, Rex.ofByte_byte]
    exact .byte_bind (h (some r) rfl)

private theorem addressed_eq_ok {bytes : List UInt8}
    (h : Instruction.addressed wide bytes operand field = .ok bs) :
    ∃ a, operand.addressing field = .ok a ∧ bs = (a.rex wide).bytes ++ bytes ++ a.bytes := by
  rw [Instruction.addressed] at h
  cases ha : operand.addressing field with
  | error cause =>
    rw [ha] at h
    cases h
  | ok a =>
    rw [ha] at h
    cases h
    exact ⟨a, rfl, rfl⟩

/-- An addressed operand is read after its opcode and before what follows it. -/
theorem reads_addressed (hop : Rex.isByte opcode = false)
    (h : Instruction.addressed wide (opcode :: more) operand field = .ok bs)
    (hread : ∀ (a : Addressing) (rex : Option Rex), operand.addressing field = .ok a →
      rex.getD .clear = a.rex wide →
      Reads (Decode.operation rex opcode) (more ++ (a.bytes ++ tail)) i) :
    Reads Decode.instruction (bs ++ tail) i := by
  obtain ⟨a, ha, rfl⟩ := addressed_eq_ok h
  have hall := reads_prefixed (a.rex wide) hop fun rex hrex ↦ hread a rex ha hrex
  simpa using hall

/-- The opcodes that stand only behind an extension byte that says the operands are whole words. -/
def wideOpcodes : List UInt8 :=
  [0x81, 0x89, 0x8B, 0x8D, 0x99, 0xC7, 0xF7] ++ AluOp.all.map AluOp.opcode

private theorem operation_wide {rex : Option Rex} (hop : opcode ∈ wideOpcodes)
    (hw : (rex.getD .clear).wide = true) :
    Decode.operation rex opcode = Decode.wide (rex.getD .clear) opcode := by
  simp only [wideOpcodes, AluOp.all, List.map, List.cons_append, List.nil_append,
    List.mem_cons, List.not_mem_nil, or_false] at hop
  rcases hop with rfl | rfl | rfl | rfl | rfl | rfl | rfl | rfl | rfl | rfl | rfl | rfl | rfl <;>
    · simp only [Decode.operation, hw]
      rfl

private theorem isByte_of_mem_wideOpcodes : ∀ op ∈ wideOpcodes, Rex.isByte op = false := by
  decide +kernel

/-- An operand of whole words that carries a register is read after its opcode. -/
theorem reads_wide_carried {f : Operand → Decode Instruction} (hop : opcode ∈ wideOpcodes)
    (hwide : ∀ rex, Decode.wide rex opcode = Decode.carried rex >>= f)
    (h : Instruction.addressed true [opcode] operand .carried = .ok bs)
    (hf : Reads (f operand) [] i) : Reads Decode.instruction bs i := by
  rw [← List.append_nil bs]
  apply reads_addressed (isByte_of_mem_wideOpcodes _ hop) h
  intro a rex ha hrex
  have hw : (rex.getD .clear).wide = true := by rw [hrex]; rfl
  rw [operation_wide hop hw, hrex, hwide]
  exact (reads_carried true ha).bind hf

/-- An operand of whole words beside a digit of the opcode is read after its opcode. -/
theorem reads_wide_digit {f : Nat × Operand → Decode Instruction} {d : Nat} (hd : d < 8)
    (hop : opcode ∈ wideOpcodes)
    (hwide : ∀ rex, Decode.wide rex opcode = Decode.digit rex >>= f)
    (h : Instruction.addressed true [opcode] operand (.digit d) = .ok bs)
    (hf : Reads (f (d, operand)) tail i) : Reads Decode.instruction (bs ++ tail) i := by
  apply reads_addressed (isByte_of_mem_wideOpcodes _ hop) h
  intro a rex ha hrex
  have hw : (rex.getD .clear).wide = true := by rw [hrex]; rfl
  rw [operation_wide hop hw, hrex, hwide]
  exact (reads_digit true hd ha).bind hf

/-- A word in memory beside a digit of the opcode is read after its opcode, where no bit says that
the operand is a whole word. -/
theorem reads_narrow_digit {f : Nat × Operand → Decode Instruction} {d : Nat} (hd : d < 8)
    (hop : Rex.isByte opcode = false)
    (hoperation : ∀ rex : Option Rex,
      Decode.operation rex opcode = Decode.digit (rex.getD .clear) >>= f)
    (h : Instruction.addressed false [opcode] operand (.digit d) = .ok bs)
    (hf : Reads (f (d, operand)) [] i) : Reads Decode.instruction bs i := by
  rw [← List.append_nil bs]
  apply reads_addressed hop h
  intro a rex ha hrex
  rw [hoperation, hrex]
  exact (reads_digit false hd ha).bind hf

private theorem immediate_eq_ok {x : Except OperandFault (List UInt8)}
    (h : (return (← x) ++ tail) = Except.ok bs) : ∃ as, x = .ok as ∧ bs = as ++ tail := by
  cases x with
  | error cause => cases h
  | ok as =>
    cases h
    exact ⟨as, rfl, rfl⟩

/-- The low byte of a register is read back. The extension byte is there exactly where the low bits
alone would name another byte. -/
theorem reads_byteRegister {rex : Option Rex} {r : Register}
    (h : rex.map Rex.base = if 4 ≤ r.number then some r.isExtended else none) :
    Reads (Decode.byteRegister rex) [bitFields 3 0 r.lowBits] r := by
  obtain ⟨hhigh, -, hlow⟩ := bitFields_fields (by omega : 3 < 4) (by omega : 0 < 8) r.lowBits_lt
  apply Reads.byte_bind
  rw [hhigh, hlow]
  cases rex with
  | some rex =>
    have hbase : rex.base = r.isExtended := by
      by_cases hr : 4 ≤ r.number
      · simpa [hr] using h
      · simp [hr] at h
    simpa [hbase] using Reads.pure r
  | none =>
    have hr : r.lowBits < 4 ∧ r.isExtended = false := by
      by_cases hr : 4 ≤ r.number
      · simp [hr] at h
      · simp only [Register.lowBits, Register.isExtended, decide_eq_false_iff_not]
        omega
    have hname : Register.ofBits false r.lowBits = r := by rw [← hr.2, Register.ofBits_lowBits]
    simpa [hr.1, hname] using Reads.pure r

/-- A register in the low bits of its opcode is read back. -/
theorem reads_named (n : Nat) (wide : Bool) {r : Register} (hn : n ∈ [0x50, 0x58, 0xB8])
    (h : ∀ (rex : Option Rex) (opcode : UInt8), (rex.getD .clear).wide = wide →
      opcode.toNat / 8 = n / 8 → Register.ofBits (rex.getD .clear).base (opcode.toNat % 8) = r →
      Reads (Decode.operation rex opcode) tail i) :
    Reads Decode.instruction
      (Rex.bytes ⟨wide, false, false, r.isExtended⟩ ++ UInt8.ofNat (n + r.lowBits) :: tail) i := by
  have hlow := r.lowBits_lt
  have hn' : n = 0x50 ∨ n = 0x58 ∨ n = 0xB8 := by simpa using hn
  have hop : (UInt8.ofNat (n + r.lowBits)).toNat = n + r.lowBits := by
    rw [UInt8.toNat_ofNat']
    omega
  apply reads_prefixed
  · rw [Rex.isByte, hop, beq_eq_false_iff_ne]
    omega
  · intro rex hrex
    apply h rex
    · rw [hrex]
    · omega
    · have hmod : (n + r.lowBits) % 8 = r.lowBits := by omega
      rw [hrex, hop, hmod, Register.ofBits_lowBits]

/-- A product is read after both bytes of its opcode. -/
theorem reads_imul (h : Instruction.addressed true [0x0F, 0xAF] operand .carried = .ok bs) :
    Reads Decode.instruction bs (.imul operand) := by
  rw [← List.append_nil bs]
  apply reads_addressed rfl h
  intro a rex ha hrex
  apply Reads.byte_bind
  have hw : (rex.getD .clear).wide = true := by rw [hrex]; rfl
  have hescaped : Decode.escaped rex 0xAF =
      Decode.carried (rex.getD .clear) >>= fun o ↦ pure (.imul o) := by
    simp only [Decode.escaped, hw]
    rfl
  rw [hescaped, hrex, List.append_nil]
  exact (reads_carried true ha).map Instruction.imul

/-- An instruction is read from its bytes, and from no more than these. -/
theorem reads_encode (h : i.encode = .ok bs) : Reads Decode.instruction bs i := by
  cases i with
  | alu op operand =>
    have hwide (rex : Rex) : Decode.wide rex op.opcode = (do
        let op ← AluOp.ofOpcode? op.opcode
        return .alu op (← Decode.carried rex)) := by
      cases op <;> rfl
    rw [AluOp.ofOpcode?_opcode] at hwide
    refine reads_wide_carried (f := fun o ↦ pure (.alu op o)) ?_ hwide h (.pure _)
    cases op <;> decide
  | aluImm op operand value =>
    obtain ⟨as, has, rfl⟩ := immediate_eq_ok h
    refine reads_wide_digit ?_ (by decide) (fun _ ↦ rfl) has ?_
    · cases op <;> decide
    · exact .lift_bind op.ofDigit?_digit ((Reads.dword value).map (Instruction.aluImm op operand))
  | movStore operand => exact reads_wide_carried (by decide) (fun _ ↦ rfl) h (.pure _)
  | movImm operand value =>
    obtain ⟨as, has, rfl⟩ := immediate_eq_ok h
    exact reads_wide_digit (by decide) (by decide) (fun _ ↦ rfl) has
      ((Reads.dword value).map (Instruction.movImm operand))
  | idiv operand =>
    rw [← List.append_nil bs]
    exact reads_wide_digit (by decide) (by decide) (fun _ ↦ rfl) h (.pure _)
  | neg operand =>
    rw [← List.append_nil bs]
    exact reads_wide_digit (by decide) (by decide) (fun _ ↦ rfl) h (.pure _)
  | not operand =>
    rw [← List.append_nil bs]
    exact reads_wide_digit (by decide) (by decide) (fun _ ↦ rfl) h (.pure _)
  | movLoad operand =>
    cases operand with
    | reg r => cases h
    | pair rm r => exact reads_wide_carried (by decide) (fun _ ↦ rfl) h (.pure _)
    | mem base disp r => exact reads_wide_carried (by decide) (fun _ ↦ rfl) h (.pure _)
    | indexed base index scale disp r =>
      exact reads_wide_carried (by decide) (fun _ ↦ rfl) h (.pure _)
  | imul operand =>
    cases operand with
    | reg r => cases h
    | pair rm r => exact reads_imul h
    | mem base disp r => exact reads_imul h
    | indexed base index scale disp r => exact reads_imul h
  | lea operand =>
    simp only [Instruction.encode] at h
    split at h
    · next hm =>
      refine reads_wide_carried (by decide) (fun _ ↦ rfl) h ?_
      rw [if_pos hm]
      exact .pure _
    · cases h
  | push operand =>
    cases operand with
    | reg r =>
      cases h
      refine reads_named 0x50 false (by decide) fun rex opcode _ h8 hr ↦ ?_
      simp only [Decode.operation, h8, hr]
      exact .pure _
    | pair rm r => cases h
    | mem base disp r => exact reads_narrow_digit (by decide) rfl (fun _ ↦ rfl) h (.pure _)
    | indexed base index scale disp r =>
      exact reads_narrow_digit (by decide) rfl (fun _ ↦ rfl) h (.pure _)
  | pop operand =>
    cases operand with
    | reg r =>
      cases h
      refine reads_named 0x58 false (by decide) fun rex opcode _ h8 hr ↦ ?_
      simp only [Decode.operation, h8, hr]
      exact .pure _
    | pair rm r => cases h
    | mem base disp r => exact reads_narrow_digit (by decide) rfl (fun _ ↦ rfl) h (.pure _)
    | indexed base index scale disp r =>
      exact reads_narrow_digit (by decide) rfl (fun _ ↦ rfl) h (.pure _)
  | setcc cond dst =>
    cases h
    have hescaped (rex : Option Rex) :
        Decode.escaped rex (UInt8.ofNat (0x90 + cond.code)) = (do
          let cond ← Condition.ofCode? cond.code
          return .setcc cond (← Decode.byteRegister rex)) := by
      cases cond <;> rfl
    rw [Condition.ofCode?_code] at hescaped
    split
    · next h4 =>
      apply Reads.byte_bind
      rw [Rex.isByte_byte, if_pos rfl, Rex.ofByte_byte]
      apply Reads.byte_bind
      apply Reads.byte_bind
      rw [hescaped]
      exact (reads_byteRegister (by rw [if_pos h4]; rfl)).map (Instruction.setcc cond)
    · next h4 =>
      apply Reads.byte_bind
      apply Reads.byte_bind
      rw [hescaped]
      exact (reads_byteRegister (by rw [if_neg h4]; rfl)).map (Instruction.setcc cond)
  | jmp d =>
    cases d with
    | short d =>
      cases h
      exact .byte_bind ((Reads.signedByte d).map fun d ↦ Instruction.jmp (.short d))
    | near d =>
      cases h
      exact .byte_bind ((Reads.dword d).map fun d ↦ Instruction.jmp (.near d))
  | jcc cond d =>
    cases d with
    | short d =>
      cases h
      cases cond <;>
        exact .byte_bind ((Reads.signedByte d).map fun d ↦ Instruction.jcc _ (.short d))
    | near d =>
      cases h
      cases cond <;>
        exact .byte_bind (.byte_bind ((Reads.dword d).map fun d ↦ Instruction.jcc _ (.near d)))
  | movAbs dst value =>
    cases h
    refine reads_named 0xB8 true (by decide) fun rex opcode hw h8 hr ↦ ?_
    simp only [Decode.operation, hw, h8, hr]
    exact (Reads.qword value).map (Instruction.movAbs dst)
  | pushImm value =>
    cases h
    exact .byte_bind ((Reads.dword value).map Instruction.pushImm)
  | call d =>
    cases h
    exact .byte_bind ((Reads.dword d).map Instruction.call)
  | cqo => cases h; exact fun _ ↦ rfl
  | ret => cases h; exact fun _ ↦ rfl
  | syscall => cases h; exact fun _ ↦ rfl

end Instructions

private theorem Reads.ne_nil {i : Instruction} {bs : List UInt8}
    (h : Reads Decode.instruction bs i) : bs ≠ [] := by
  intro hnil
  have hread := h []
  rw [hnil] at hread
  cases hread

/-- Instructions lie one right after the other from an offset on, each with its bytes. -/
def InOrder : Nat → List Emitted → Prop
  | _, [] => True
  | o, e :: es => e.start = o ∧ e.instruction.encode = .ok e.bytes ∧ InOrder e.finish es

/-- Sweeping over bytes that start with those of an instruction finds it first. -/
theorem sweep_encode_append {i : Instruction} {bs : List UInt8} (h : i.encode = .ok bs)
    (origin : Nat) (rest : List UInt8) :
    sweep origin (bs ++ rest) =
      (sweep (origin + bs.length) rest).map (⟨i, origin, bs⟩ :: ·) := by
  have hread := reads_encode h
  have hpos : 0 < bs.length := List.length_pos_iff.mpr hread.ne_nil
  have hne : (bs ++ rest).isEmpty = false := by simp [hread.ne_nil]
  have hlt : rest.length < (bs ++ rest).length := by
    rw [List.length_append]
    omega
  have hlength : (bs ++ rest).length - rest.length = bs.length := by
    rw [List.length_append, Nat.add_sub_cancel]
  rw [sweep, hne, if_neg Bool.false_ne_true, hread rest]
  simp only [hlt, if_true, hlength, List.take_left']

/-- A sweep over code finds its instructions. -/
theorem InOrder.sweep_bytes {o : Nat} {es : List Emitted} (h : InOrder o es) :
    sweep o (es.flatMap Emitted.bytes) = some es := by
  induction es generalizing o with
  | nil => simp [sweep]
  | cons e es ih =>
    obtain ⟨hstart, hencode, hrest⟩ := h
    have hsweep := ih hrest
    rw [List.flatMap_cons, sweep_encode_append hencode, ← hstart]
    change Option.map _ (sweep e.finish _) = _
    rw [hsweep]
    rfl

/-- Instructions that all encode can be appended, and then lie in order. -/
theorem exists_inOrder {is : List Instruction} (h : ∀ i ∈ is, ∃ bs, i.encode = .ok bs)
    (s : CodeStream) :
    ∃ es t, is.foldlM CodeStream.append s = .ok t ∧ t.entries.toList = s.entries.toList ++ es ∧
      es.map Emitted.instruction = is ∧ InOrder s.size es := by
  induction is generalizing s with
  | nil => exact ⟨[], s, rfl, by simp, rfl, trivial⟩
  | cons i is ih =>
    obtain ⟨bs, hbs⟩ := h i List.mem_cons_self
    have happend : s.append i = .ok (s.push i bs) := by rw [CodeStream.append, hbs]
    obtain ⟨es, t, ht, hentries, his, horder⟩ :=
      ih (fun j hj ↦ h j (List.mem_cons_of_mem i hj)) (s.push i bs)
    refine ⟨⟨i, s.size, bs⟩ :: es, t, ?_, ?_, ?_, rfl, hbs, horder⟩
    · rw [List.foldlM_cons, happend]
      exact ht
    · rw [hentries]
      simp [CodeStream.push]
    · rw [List.map_cons, his]

/-- No encoding is the start of another. -/
theorem eq_of_encode_isPrefix {i j : Instruction} {bs cs : List UInt8} (hi : i.encode = .ok bs)
    (hj : j.encode = .ok cs) (h : bs <+: cs) : i = j := by
  obtain ⟨rest, hrest⟩ := h
  have hreadi := reads_encode hi rest
  have hreadj := reads_encode hj []
  rw [List.append_nil, ← hrest, hreadi] at hreadj
  exact congrArg Prod.fst (Option.some.inj hreadj)

/-- Decoding undoes encoding. Instructions that all encode make machine code in which a sweep from
the first byte on finds exactly these instructions again, each at its offset and with its bytes.
And where an encoding starts another one, the instructions are the same: encoding is injective, and
no encoding is a proper start of another. -/
theorem sweep_bytes_eq_entries :
    (∀ is : List Instruction, (∀ i ∈ is, ∃ bs, i.encode = .ok bs) →
      ∃ s, is.foldlM CodeStream.append .empty = .ok s ∧ s.instructions = is ∧
        InOrder 0 s.entries.toList ∧ sweep 0 s.bytes = some s.entries.toList) ∧
    (∀ i j bs cs, Instruction.encode i = .ok bs → Instruction.encode j = .ok cs → bs <+: cs →
      i = j ∧ bs = cs) := by
  constructor
  · intro is h
    obtain ⟨es, s, hs, hentries, his, horder⟩ := exists_inOrder h .empty
    have hes : s.entries.toList = es := hentries
    refine ⟨s, hs, ?_, ?_, ?_⟩
    · rw [CodeStream.instructions, hes, his]
    · rw [hes]
      exact horder
    · rw [CodeStream.bytes, hes]
      exact horder.sweep_bytes
  · intro i j bs cs hi hj h
    have hij := eq_of_encode_isPrefix hi hj h
    subst hij
    exact ⟨rfl, Except.ok.inj (hi.symm.trans hj)⟩

/-- The forms that the processor treats apart: a base and an index with the low bits `100`, bases
with the low bits `101` and no displacement, displacements of one byte and of four, and byte
registers with and without an extension byte. -/
def unusualForms : List Instruction :=
  [.load .rax .r12 0, .store .r13 0 .rcx, .movLoad (.indexed .r13 .r12 .eight 0 (some .rdx)),
    .pushMem .rsp 128, .pushMem .rbp (-128), .setcc .less .rsi, .setcc .less .rbx,
    .jcc .equal (.short (-2)), .movAbs .r9 0x8000000000000000, .popReg .r12]

/-- The unusual forms are found again. -/
theorem sweep_unusualForms :
    ∃ s, unusualForms.foldlM CodeStream.append .empty = .ok s ∧
      s.instructions = unusualForms ∧ InOrder 0 s.entries.toList ∧
      sweep 0 s.bytes = some s.entries.toList := by
  apply sweep_bytes_eq_entries.1
  simp only [unusualForms, List.forall_mem_cons]
  exact ⟨⟨_, rfl⟩, ⟨_, rfl⟩, ⟨_, rfl⟩, ⟨_, rfl⟩, ⟨_, rfl⟩, ⟨_, rfl⟩, ⟨_, rfl⟩, ⟨_, rfl⟩, ⟨_, rfl⟩,
    ⟨_, rfl⟩, by simp⟩

end NativeBackend.Machine
