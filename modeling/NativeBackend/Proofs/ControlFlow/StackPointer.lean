import NativeBackend.Proofs.ControlFlow.Flow

/-!
# The stack pointer along a path

What instructions do to the stack pointer and the frame base, and what follows for every
path through a routine: wherever control is, the stack pointer is as many words below the
frame base as the instructions before that place put on the operand stack. A call counts
as one step of the path, on the condition that it gives back both registers.
-/

namespace NativeBackend

open Machine Execution Convention

section Registers

variable {i : Instruction} {s s' : State} {r : Register} {operand : Operand}

private theorem registers_write (v : Word) (h : operand.place? ≠ some r) :
    (s.write operand v).registers r = s.registers r := by
  cases operand with
  | reg rm | pair rm _ => exact s.registers_set_ne v fun heq ↦ h (congrArg some heq.symm)
  | mem _ _ _ | indexed _ _ _ _ _ => rfl

private theorem registers_apply {op : AluOp} (v : Word) (h : op = .cmp ∨ operand.place? ≠ some r) :
    (s.apply op operand v).registers r = s.registers r := by
  unfold State.apply
  by_cases hop : op = .cmp
  · simp only [hop, if_true]
  · simp only [hop, if_false]
    exact registers_write _ (h.resolve_left hop)

private theorem ne_some_of_not_mem {place : Option Register} (h : r ∉ place.toList) :
    place ≠ some r :=
  fun hplace ↦ h (Option.mem_toList.mpr hplace)

private theorem registers_of_execute (h : execute i s = .ok s') (hr : r ∉ i.written)
    (hi : i.stackEffect = 0 ∨ r ≠ .rsp) : s'.registers r = s.registers r := by
  cases i with
  | alu op operand =>
    simp only [execute] at h
    split at h
    · cases h
      cases op with
      | cmp => exact registers_apply _ (.inl rfl)
      | _ => exact registers_apply _ (.inr (ne_some_of_not_mem hr))
    · cases h
  | aluImm op operand value =>
    cases h
    cases op with
    | cmp => exact registers_apply _ (.inl rfl)
    | _ => exact registers_apply _ (.inr (ne_some_of_not_mem hr))
  | movStore operand =>
    simp only [execute] at h
    split at h
    · cases h
      exact registers_write _ (ne_some_of_not_mem hr)
    · cases h
  | movLoad operand =>
    simp only [execute] at h
    split at h
    · next r' hr' =>
      cases h
      exact s.registers_set_ne _ fun heq ↦ ne_some_of_not_mem hr (heq ▸ hr')
    · cases h
  | movImm operand value =>
    cases h
    exact registers_write _ (ne_some_of_not_mem hr)
  | movAbs dst value =>
    cases h
    exact s.registers_set_ne _ (List.ne_of_not_mem_cons hr)
  | lea operand =>
    simp only [execute] at h
    split at h
    · next r' hr' =>
      split at h
      · cases h
        exact s.registers_set_ne _ fun heq ↦ ne_some_of_not_mem hr (heq ▸ hr')
      · cases h
    · cases h
  | imul operand =>
    simp only [execute] at h
    split at h
    · next r' hr' =>
      cases h
      exact s.registers_set_ne _ fun heq ↦ ne_some_of_not_mem hr (heq ▸ hr')
    · cases h
  | idiv operand =>
    simp only [execute, State.divide] at h
    split at h
    · cases h
    · cases h
      have hrax := List.ne_of_not_mem_cons hr
      have hrdx := List.ne_of_not_mem_cons (List.not_mem_of_not_mem_cons hr)
      exact (State.registers_set_ne _ _ hrdx).trans (s.registers_set_ne _ hrax)
  | neg operand =>
    cases h
    exact registers_write _ (ne_some_of_not_mem hr)
  | not operand =>
    cases h
    exact registers_write _ (ne_some_of_not_mem hr)
  | cqo =>
    cases h
    exact s.registers_set_ne _ (List.ne_of_not_mem_cons hr)
  | push operand =>
    cases h
    exact s.registers_push _ (hi.resolve_left Int.one_ne_zero)
  | pushImm value =>
    cases h
    exact s.registers_push _ (hi.resolve_left Int.one_ne_zero)
  | pop operand =>
    cases h
    rw [registers_write _ (ne_some_of_not_mem hr)]
    exact s.registers_drop (hi.resolve_left (Int.neg_ne_zero.mpr Int.one_ne_zero))
  | setcc cond dst =>
    simp only [execute] at h
    split at h
    · cases h
      exact s.registers_set_ne _ (List.ne_of_not_mem_cons hr)
    · cases h
  | jmp | jcc | call | ret | syscall => cases h

private theorem rsp_of_execute (h : execute i s = .ok s') (hr : .rsp ∉ i.written) :
    s'.registers .rsp = slot (s.registers .rsp) (-i.stackEffect) := by
  by_cases heffect : i.stackEffect = 0
  · rw [registers_of_execute h hr (.inl heffect), heffect, Int.neg_zero, slot_zero]
  · cases i with
    | push operand =>
      cases h
      exact s.rsp_push _
    | pushImm value =>
      cases h
      exact s.rsp_push _
    | pop operand =>
      cases h
      rw [registers_write _ (ne_some_of_not_mem hr)]
      exact s.rsp_drop
    | aluImm op operand value =>
      refine absurd ?_ heffect
      unfold Instruction.stackEffect
      split
      · next heq => cases heq
      · next heq => cases heq
      · next heq => cases heq
      · next heq =>
        cases heq
        exact absurd (List.mem_singleton.mpr rfl) hr
      · next heq =>
        cases heq
        exact absurd (List.mem_singleton.mpr rfl) hr
      · rfl
    | _ => exact absurd rfl heffect

/-- Instructions that keep the frame write neither of its registers, but for the one that takes
words off the stack. -/
theorem keepsFrame_cases {i : Instruction} (h : i.keepsFrame = true) :
    (∃ value : Int32, i = .aluImm .add (.reg .rsp) value ∧ value.toInt % 8 = 0) ∨
      .rsp ∉ i.written ∧ .rbp ∉ i.written := by
  have hothers {i : Instruction}
      (h : (!i.written.contains .rsp && !i.written.contains .rbp) = true) :
      .rsp ∉ i.written ∧ .rbp ∉ i.written := by
    simpa only [Bool.and_eq_true, Bool.not_eq_true', List.contains_eq_mem,
      decide_eq_false_iff_not] using h
  cases i with
  | jmp | jcc | call | ret | syscall => cases h
  | push operand => exact .inr ⟨List.not_mem_nil, List.not_mem_nil⟩
  | aluImm op operand value =>
    cases op with
    | add =>
      cases operand with
      | reg r =>
        cases r with
        | rsp => exact .inl ⟨value, rfl, beq_iff_eq.mp h⟩
        | _ => exact .inr (hothers h)
      | _ => exact .inr (hothers h)
    | _ => exact .inr (hothers h)
  | _ => exact .inr (hothers h)

/-- An instruction that keeps the frame moves the stack pointer by its effect. -/
theorem pointers_of_execute (h : execute i s = .ok s') (hkeeps : i.keepsFrame = true) :
    s'.registers .rsp = slot (s.registers .rsp) (-i.stackEffect) ∧
      s'.registers .rbp = s.registers .rbp := by
  rcases keepsFrame_cases hkeeps with ⟨value, rfl, hmod⟩ | ⟨hrsp, hrbp⟩
  · cases h
    have hwords : 8 * - -value.toInt.tdiv 8 = value.toInt := by
      rw [Int.neg_neg, Int.mul_tdiv_cancel' (Int.dvd_of_emod_eq_zero hmod)]
    refine ⟨?_, rfl⟩
    change s.registers .rsp + BitVec.ofInt 64 value.toInt =
      slot (s.registers .rsp) (- -value.toInt.tdiv 8)
    rw [slot, hwords]
  · exact ⟨rsp_of_execute h hrsp, registers_of_execute h hrbp (.inr (by decide))⟩

end Registers

section Perform

variable {e : Emitted} {s : State} {c : Configuration}

private theorem execute_of_perform (h : perform e s = .ok c)
    (hkeeps : e.instruction.keepsFrame = true) :
    ∃ s', execute e.instruction s = .ok s' ∧ c = ⟨e.finish, s'⟩ := by
  cases hexecute : execute e.instruction s with
  | ok s' =>
    rw [perform_of_execute hexecute] at h
    exact ⟨s', rfl, (Except.ok.inj h).symm⟩
  | error stop =>
    obtain ⟨i, start, bytes⟩ := e
    cases i with
    | jmp | jcc | call | ret | syscall => cases hkeeps
    | _ =>
      simp only [perform, hexecute] at h
      cases h

private theorem add_of_branchTarget? {i : Instruction} {origin length target : Nat} {d : Int}
    (hbranch : i.branch? = some (d, length)) (haimed : i.branchTarget? origin = some target)
    (hrange : origin + length < wordLimit) : ((origin + length : Nat) : Int) + d = target := by
  rw [Instruction.branchTarget?, hbranch] at haimed
  change (if _ then some ((endOffset origin length : Int) + d).toNat else none) = _ at haimed
  rw [endOffset, Nat.mod_eq_of_lt hrange] at haimed
  split at haimed
  · next hfits =>
    cases haimed
    omega
  · cases haimed

private theorem perform_jump {target : Nat} (h : perform e s = .ok c)
    (hjump : e.instruction.isJump = true) (hencoded : e.instruction.encode = .ok e.bytes)
    (hrange : e.finish < wordLimit) (haimed : e.instruction.branchTarget? e.start = some target) :
    c.state = s ∧ (c.counter = target ∨ c.counter = e.finish) := by
  obtain ⟨i, start, bytes⟩ := e
  cases i with
  | jmp d =>
    have hlength : bytes.length = d.jumpLength := by
      cases d <;> cases hencoded <;> rfl
    have htarget := add_of_branchTarget? rfl haimed (hlength ▸ hrange)
    rw [perform_jmp rfl (hlength ▸ htarget)] at h
    cases h
    exact ⟨rfl, .inl rfl⟩
  | jcc cond d =>
    have hlength : bytes.length = d.conditionalLength := by
      cases d <;> cases hencoded <;> rfl
    have htarget := add_of_branchTarget? rfl haimed (hlength ▸ hrange)
    cases hholds : s.flags.holds? cond with
    | none =>
      simp only [perform, hholds] at h
      cases h
    | some b =>
      rw [perform_jcc rfl hholds (hlength ▸ htarget)] at h
      cases h
      cases b
      · exact ⟨rfl, .inr rfl⟩
      · exact ⟨rfl, .inl rfl⟩
  | _ => cases hjump

end Perform

/-- Where the stack pointer and the frame base are when a routine meets an instruction, given the
frame base of the routine and the words on the operand stack. Before the frame is there, and when it
is given up, the stack pointer is at the saved frame base or at the return address above it. -/
def Framed (base : Word) (words : Int) (i : Instruction) (s : State) : Prop :=
  if i = .pushReg frameBase ∨ i = .ret then s.registers .rsp = slot base 1
  else if i = .move frameBase stackPointer then s.registers .rsp = base
  else if i = .popReg frameBase then
    s.registers .rsp = base ∧ s.registers .rbp = base
  else s.registers .rsp = slot base (-words) ∧ s.registers .rbp = base

/-- The processor goes on in the same routine: by an instruction that is neither a call nor a
return, or by a call that comes back behind itself with the stack pointer and the frame base it
found. -/
inductive Advances (code : CodeStream) (c c' : Configuration) : Prop
  | step {e : Emitted} (here : code.at? c.counter = some e) (stays : e.instruction ≠ .ret)
      (plain : e.instruction.isCall = false) (next : next code c = .ok c')
  | call {e : Emitted} (here : code.at? c.counter = some e) (calls : e.instruction.isCall = true)
      (counter : c'.counter = e.finish)
      (rsp : c'.state.registers .rsp = c.state.registers .rsp)
      (rbp : c'.state.registers .rbp = c.state.registers .rbp)

/-- The processor is at an instruction of a routine with the stack pointer where it belongs. -/
def InRoutine (es : List Emitted) (base : Word) (c : Configuration) : Prop :=
  ∃ l e r, es = l ++ e :: r ∧ e.start = c.counter ∧
    Framed base (operandEffect l) e.instruction c.state

/-- In the frame, the stack pointer is below the frame base by the words on the operand stack. -/
theorem framed_iff {base : Word} {words : Int} {i : Instruction} {s : State}
    (h : i.isUnframed = false) : Framed base words i s ↔
      s.registers .rsp = slot base (-words) ∧ s.registers .rbp = base := by
  have hmem : i ∉ [.pushReg frameBase, .move frameBase stackPointer, .popReg frameBase, .ret] := by
    rw [← List.contains_iff_mem]
    exact Bool.eq_false_iff.mp h
  simp only [List.mem_cons, List.not_mem_nil, or_false, not_or] at hmem
  obtain ⟨hpush, hmove, hpop, hret⟩ := hmem
  rw [Framed, if_neg (not_or.mpr ⟨hpush, hret⟩), if_neg hmove, if_neg hpop]

section Framed

variable {base : Word} {words : Int} {s : State}

/-- The push that opens a frame is framed where the stack pointer is at the return address. -/
theorem framed_push :
    Framed base words (.pushReg frameBase) s ↔ s.registers .rsp = slot base 1 :=
  Iff.of_eq (if_pos (.inl rfl))

private theorem framed_move : Framed base words (.move frameBase stackPointer) s ↔
    s.registers .rsp = base := by
  rw [Framed, if_neg (by nofun), if_pos rfl]

private theorem framed_pop : Framed base words (.popReg frameBase) s ↔
    s.registers .rsp = base ∧ s.registers .rbp = base := by
  rw [Framed, if_neg (by nofun), if_neg (by nofun), if_pos rfl]

private theorem framed_ret :
    Framed base words .ret s ↔ s.registers .rsp = slot base 1 :=
  Iff.of_eq (if_pos (.inr rfl))

end Framed

section Paths

variable {isEntry : Bool} {code : CodeStream} {es l r : List Emitted} {e : Emitted} {base : Word}
  {c c' : Configuration}

private theorem InRoutine.of_begins {P : Instruction → Prop} (hes : es = l ++ e :: r)
    (hnext : Begins e.finish P r) (hcounter : c'.counter = e.finish)
    (hframed : ∀ i, P i → Framed base (operandEffect (l ++ [e])) i c'.state) :
    InRoutine es base c' := by
  obtain ⟨e', r', rfl, hstart, hP⟩ := hnext
  refine ⟨l ++ [e], e', r', ?_, hstart.trans hcounter.symm, hframed _ hP⟩
  rw [hes, List.append_assoc]
  rfl

private theorem InRoutine.of_opens (hes : es = l ++ e :: r) (hnext : Opens e.finish r)
    (hcounter : c'.counter = e.finish)
    (hrsp : c'.state.registers .rsp =
      slot base (-(operandEffect l + e.instruction.operandEffect)))
    (hrbp : c'.state.registers .rbp = base) : InRoutine es base c' := by
  refine .of_begins hes hnext hcounter fun i hi ↦ (framed_iff hi).mpr ⟨?_, hrbp⟩
  simpa using hrsp

private theorem InRoutine.of_perform (hes : es = l ++ e :: r) (hflow : Flow isEntry l e r)
    (hframed : Framed base (operandEffect l) e.instruction c.state)
    (hret : e.instruction ≠ .ret) (hcall : e.instruction.isCall = false)
    (h : perform e c.state = .ok c') : InRoutine es base c' := by
  cases hflow with
  | saves hi hnext =>
    have hexecute : execute e.instruction c.state =
        .ok (c.state.push (c.state.registers .rbp)) := by
      rw [hi]
      rfl
    rw [perform_of_execute hexecute] at h
    cases h
    rw [hi, framed_push] at hframed
    refine .of_begins hes hnext rfl fun i hi ↦ ?_
    rw [hi, framed_move]
    change (c.state.push _).registers .rsp = base
    rw [State.rsp_push, hframed, slot_slot]
    exact slot_zero base
  | opens hi hempty hnext =>
    have hexecute : execute e.instruction c.state =
        .ok (c.state.set .rbp (c.state.registers .rsp)) := by
      rw [hi]
      rfl
    rw [perform_of_execute hexecute] at h
    cases h
    rw [hi, framed_move] at hframed
    refine .of_opens hes hnext rfl ?_ (Eq.trans (State.registers_set_self _ _ _) hframed)
    rw [hempty, hi]
    exact hframed.trans (slot_zero base).symm
  | steady hi hnext =>
    have hkeeps := hi.resolve_right (Bool.eq_false_iff.mp hcall)
    obtain ⟨s', hexecute, rfl⟩ := execute_of_perform h hkeeps
    obtain ⟨hrsp, hrbp⟩ := pointers_of_execute hexecute hkeeps
    obtain ⟨hsp, hbp⟩ := (framed_iff (framed_of_keepsFrame hkeeps)).mp hframed
    refine .of_opens hes hnext rfl ?_ (hrbp.trans hbp)
    rw [operandEffect_of_keepsFrame hkeeps, Int.neg_add, ← slot_slot, ← hsp]
    exact hrsp
  | jumps hi hencoded hrange hnext haimed hinside hlands heffect =>
    obtain ⟨hstate, hcounter⟩ := perform_jump h hi hencoded hrange haimed
    obtain ⟨hsp, hbp⟩ := (framed_iff (framed_of_isJump hi).1).mp hframed
    rw [← hstate] at hsp hbp
    rcases hcounter with htarget | hbehind
    · obtain ⟨e', r', rfl, hstart, hopen⟩ := hlands
      refine ⟨_, e', r', hes.trans hinside, hstart.trans htarget.symm, ?_⟩
      exact (framed_iff hopen).mpr ⟨heffect ▸ hsp, hbp⟩
    · refine .of_opens hes hnext hbehind ?_ hbp
      rw [(framed_of_isJump hi).2, Int.add_zero]
      exact hsp
  | closes hi _ hnext =>
    have hexecute : execute e.instruction c.state =
        .ok (c.state.set .rsp (c.state.registers .rbp)) := by
      rw [hi]
      rfl
    rw [perform_of_execute hexecute] at h
    cases h
    rw [hi, framed_iff rfl] at hframed
    refine .of_begins hes hnext rfl fun i hi ↦ ?_
    rw [hi, framed_pop]
    exact ⟨(State.registers_set_self _ _ _).trans hframed.2, hframed.2⟩
  | restores hi _ hnext =>
    have hexecute : execute e.instruction c.state = .ok (c.state.drop.set .rbp c.state.top) := by
      rw [hi]
      rfl
    rw [perform_of_execute hexecute] at h
    cases h
    rw [hi, framed_pop] at hframed
    refine .of_begins hes hnext rfl fun i hi ↦ ?_
    rw [hi, framed_ret]
    change c.state.drop.registers .rsp = slot base 1
    rw [State.rsp_drop, hframed.1]
  | returns hi _ _ => exact absurd hi hret
  | exits hi _ _ =>
    rw [perform, hi] at h
    cases h

/-- One step in a routine keeps the stack pointer where it belongs. -/
theorem InRoutine.advance (hat : ∀ e ∈ es, code.at? e.start = some e)
    (hflow : ∀ l e r, es = l ++ e :: r → Flow isEntry l e r) (h : InRoutine es base c)
    (hstep : Advances code c c') : InRoutine es base c' := by
  obtain ⟨l, e, r, hes, hstart, hframed⟩ := h
  have hmem : e ∈ es := hes ▸ List.mem_append_right _ List.mem_cons_self
  have hhere := hat e hmem
  rw [hstart] at hhere
  cases hstep with
  | call here calls counter rsp rbp =>
    cases hhere.symm.trans here
    obtain ⟨hsp, hbp⟩ := (framed_iff (framed_of_isCall calls).1).mp hframed
    refine .of_opens hes ((hflow l e r hes).opens_of_isCall calls) counter ?_ (rbp.trans hbp)
    rw [(framed_of_isCall calls).2, Int.add_zero]
    exact rsp.trans hsp
  | step here stays plain next =>
    cases hhere.symm.trans here
    rw [Execution.next, hhere] at next
    exact .of_perform hes (hflow l e r hes) hframed stays plain next

/-- Along every path in a routine the stack pointer is where it belongs. -/
theorem InRoutine.path (hat : ∀ e ∈ es, code.at? e.start = some e)
    (hflow : ∀ l e r, es = l ++ e :: r → Flow isEntry l e r) (h : InRoutine es base c)
    (hpath : Relation.ReflTransGen (Advances code) c c') : InRoutine es base c' := by
  induction hpath with
  | refl => exact h
  | tail _ hstep ih => exact ih.advance hat hflow hstep

end Paths

end NativeBackend
