import NativeBackend.Proofs.Code.Frames

/-!
# Balance

How many words of the operand stack the steps of a routine take and leave. `Stretch`
relates the counts of words before and after steps without branches, `Balanced` those
before and after any steps of a body; a branch leaves as many words as it finds, on
either side. Every expression leaves one word, and every statement exactly the live
locals.
-/

namespace NativeBackend

open Machine NativeBackend.Tree Convention

/-- Whether a fault says that the operand stack is out of step with the code. -/
def Fault.isDepth : Fault → Bool
  | stack (.underflow _ _) | stack (.unbalanced _ _) => true
  | _ => false

/-- The register that stands in the place of a memory word. -/
def Machine.Operand.place? : Operand → Option Register
  | reg rm | pair rm _ => some rm
  | mem _ _ _ | indexed _ _ _ _ _ => none

/-- The registers that an instruction writes, apart from the stack pointer of a push or a pop. -/
def Machine.Instruction.written : Instruction → List Register
  | alu .cmp _ | aluImm .cmp _ _ => []
  | alu _ operand | aluImm _ operand _ | movStore operand | movImm operand _ | neg operand
  | not operand | pop operand => operand.place?.toList
  | movLoad operand | lea operand | imul operand => operand.register?.toList
  | movAbs dst _ | setcc _ dst => [dst]
  | idiv _ => [.rax, .rdx]
  | cqo => [.rdx]
  | push _ | pushImm _ | jmp _ | jcc _ _ | call _ | ret | syscall => []

/-- Whether an instruction leads to the one after it, leaves the frame base, and moves the stack
pointer by whole words only as its effect says. -/
def Machine.Instruction.keepsFrame : Instruction → Bool
  | jmp _ | jcc _ _ | call _ | ret | syscall | push (.reg .rbp) => false
  | aluImm .add (.reg .rsp) value => value.toInt % 8 == 0
  | i => !i.written.contains .rsp && !i.written.contains .rbp

/-- Steps without branches lead from a count of words on the operand stack to another. What stands
behind a refusal is never reached. -/
inductive Stretch : Nat → List Step → Nat → Prop
  | nil {d : Nat} : Stretch d [] d
  | emit {d d₁ d' : Nat} {i : Instruction} {xs : List Step} (keeps : i.keepsFrame = true)
      (effect : (d₁ : Int) = d + i.stackEffect) (rest : Stretch d₁ xs d') :
      Stretch d (.emit i :: xs) d'
  | call {d d' : Nat} {name : String} {xs : List Step} (rest : Stretch d xs d') :
      Stretch d (.call name :: xs) d'
  | staticAddress {d d' : Nat} {offset : Int32} {xs : List Step} (rest : Stretch d xs d') :
      Stretch d (.staticAddress offset :: xs) d'
  | undeclared {d d' : Nat} {name : String} {xs : List Step} (rest : Stretch d xs d') :
      Stretch d (.undeclared name :: xs) d'
  | refuse {d d' : Nat} {fault : Fault} {xs : List Step} (other : fault.isDepth = false) :
      Stretch d (.refuse fault :: xs) d'

/-- Steps of a body lead from a count of words on the operand stack to another. What stands behind
the end of the routine counts as if the routine had not been left. -/
inductive Balanced (s : Surroundings) : Nat → List Step → Nat → Prop
  | nil {d : Nat} : Balanced s d [] d
  | stretch {d d₁ d' : Nat} {xs ys : List Step} (first : Stretch d xs d₁)
      (rest : Balanced s d₁ ys d') : Balanced s d (xs ++ ys) d'
  | leave {d d' : Nat} {xs : List Step} (rest : Balanced s d xs d') :
      Balanced s d (leaveSteps s ++ xs) d'
  | settle {d d' : Nat} {xs : List Step} (rest : Balanced s d xs d') :
      Balanced s d (.settle d :: xs) d'
  | when {d d' : Nat} {body xs : List Step} (inner : Balanced s d body d)
      (rest : Balanced s d xs d') : Balanced s d (.when body :: xs) d'
  | choose {d d' : Nat} {yes no xs : List Step} (first : Balanced s d yes d)
      (second : Balanced s d no d) (rest : Balanced s d xs d') :
      Balanced s d (.choose yes no :: xs) d'
  | loop {d d' : Nat} {cond body xs : List Step} (test : Stretch d cond d)
      (inner : Balanced s d body d) (rest : Balanced s d xs d') :
      Balanced s d (.loop cond body :: xs) d'

namespace Stretch

variable {d d₁ d' : Nat} {i : Instruction} {xs ys : List Step}

private theorem append (h : Stretch d xs d₁) (h' : Stretch d₁ ys d') : Stretch d (xs ++ ys) d' := by
  induction h with
  | nil => exact h'
  | emit keeps effect _ ih => exact .emit keeps effect (ih h')
  | call _ ih => exact .call (ih h')
  | staticAddress _ ih => exact .staticAddress (ih h')
  | undeclared _ ih => exact .undeclared (ih h')
  | refuse other => exact .refuse other

private theorem push (keeps : i.keepsFrame = true) (effect : i.stackEffect = 1)
    (rest : Stretch (d + 1) xs d') : Stretch d (.emit i :: xs) d' :=
  .emit keeps (by omega) rest

private theorem pop (keeps : i.keepsFrame = true) (effect : i.stackEffect = -1)
    (rest : Stretch d xs d') : Stretch (d + 1) (.emit i :: xs) d' :=
  .emit keeps (by omega) rest

private theorem keep (keeps : i.keepsFrame = true) (effect : i.stackEffect = 0)
    (rest : Stretch d xs d') : Stretch d (.emit i :: xs) d' :=
  .emit keeps (by omega) rest

private theorem refuseTree (cause : TreeFault) : Stretch d [.refuse (.tree cause)] d' := .refuse rfl

end Stretch

section Expressions

variable (s : Surroundings) (f : Frame) (d : Nat)

private theorem stretch_releaseSteps (words : Nat) : Stretch (d + words) (releaseSteps words) d :=
  by
  rw [releaseSteps]
  split
  · next h =>
    subst h
    exact .nil
  · split
    · next h =>
      have hvalue : (Int32.ofNat (wordSize * words)).toInt = 8 * words := by
        rw [Int32.toInt_ofNat_of_lt h]
        rfl
      have hkeeps : (Int32.ofNat (wordSize * words)).toInt % 8 = 0 := by omega
      have heffect : (Instruction.aluRegImm .add stackPointer
          (Int32.ofNat (wordSize * words))).stackEffect = -words := by
        change -((Int32.ofNat (wordSize * words)).toInt.tdiv 8) = -words
        rw [hvalue, Int.mul_tdiv_cancel_left _ (by omega)]
      refine .emit (beq_iff_eq.mpr hkeeps) ?_ .nil
      rw [heffect]
      omega
    · exact .refuse rfl

private theorem stretch_lowerThis : Stretch d (lowerThis f) (d + 1) := by
  rw [lowerThis]
  split
  · exact .push rfl rfl .nil
  · exact .refuseTree _

private theorem stretch_lowerSlot (offset : Int32) (access : Access) :
    Stretch d (lowerSlot offset access) (d + 1) := by
  cases access with
  | value => exact .push rfl rfl .nil
  | address => exact .keep rfl rfl (.push rfl rfl .nil)

private theorem stretch_lowerWord (offset : Int32) (access : Access) :
    Stretch d (lowerWord offset access) (d + 1) := by
  cases access with
  | value => exact .push rfl rfl .nil
  | address =>
    rw [lowerWord]
    split
    · exact .push rfl rfl .nil
    · exact .keep rfl rfl (.push rfl rfl .nil)

private theorem stretch_lowerField (field : FieldRef) {object : List Step} (access : Access)
    (h : Stretch d object d) : Stretch d (lowerField s field object access) (d + 1) := by
  rw [lowerField]
  split
  · exact .refuseTree _
  · exact .staticAddress (stretch_lowerWord d 0 access)
  · exact h.append (stretch_lowerWord d _ access)

private theorem stretch_loadReceiver (field : FieldRef) : Stretch d (loadReceiver f field) d := by
  rw [loadReceiver]
  split
  · exact .keep rfl rfl .nil
  · exact .refuseTree _

/-- The code of a reference leaves one word. -/
theorem stretch_lowerReference (r : Reference) (access : Access) :
    Stretch d (lowerReference s f r access) (d + 1) := by
  fun_induction lowerReference s f r access with
  | case1 => exact .refuseTree _
  | case2 => exact stretch_lowerThis f d
  | case3 => exact stretch_lowerSlot d _ _
  | case4 => exact .refuseTree _
  | case5 => exact stretch_lowerSlot d _ _
  | case6 => exact .refuseTree _
  | case7 => exact stretch_lowerField s d _ _ (stretch_loadReceiver f d _)
  | case8 object field access ih =>
    exact stretch_lowerField s d _ _ (ih.append (.pop rfl rfl .nil))
  | case9 | case10 | case11 | case12 => exact .refuseTree _

private theorem stretch_lowerReceiver (r : Receiver) :
    Stretch d (lowerReceiver s f r) (d + r.words) := by
  cases r with
  | absent => exact .nil
  | this => exact stretch_lowerThis f d
  | base r => exact stretch_lowerReference s f d r .value

/-- The code of a call takes off what it puts on the stack for its arguments and its receiver. -/
theorem stretch_lowerCall (callee : Reference) {args : List Step} {count : Nat}
    (hargs : Stretch d args (d + count)) : Stretch d (lowerCall s f callee args count) d := by
  rw [lowerCall]
  split
  · exact .refuseTree _
  · next c _ =>
    have hnote : Stretch d (if c.declared then [] else [.undeclared c.routine]) d := by
      split
      · exact .nil
      · exact .undeclared .nil
    have hreceiver := stretch_lowerReceiver s f (d + count) c.receiver
    have hrelease := stretch_releaseSteps d (count + c.receiver.words)
    rw [← Nat.add_assoc] at hrelease
    exact (((hnote.append hargs).append hreceiver).append (.call .nil)).append hrelease

private theorem stretch_binaryInstructions (op : BinaryOp) :
    Stretch (d + 1 + 1) (emitAll ([.popReg scratch, .popReg result] ++ binaryInstructions op))
      (d + 1) := by
  refine .pop rfl rfl (.pop rfl rfl ?_)
  cases op with
  | add | sub | and | or | mul => exact .keep rfl rfl (.push rfl rfl .nil)
  | div => exact .keep rfl rfl (.keep rfl rfl (.push rfl rfl .nil))
  | eq | ne | lt | le | gt | ge =>
    exact .keep rfl rfl (.keep rfl rfl (.keep rfl rfl (.push rfl rfl .nil)))

private theorem stretch_unaryInstruction (op : UnaryOp) :
    Stretch (d + 1) (emitAll [.popReg result, unaryInstruction op, .pushReg result]) (d + 1) := by
  refine .pop rfl rfl ?_
  cases op <;> exact .keep rfl rfl (.push rfl rfl .nil)

mutual

/-- The code of an expression leaves one word. -/
theorem stretch_lowerExpression :
    (e : Expression) → (d : Nat) → Stretch d (lowerExpression s f e) (d + 1)
  | .literal _, _ => .push rfl rfl .nil
  | .ref r, d => stretch_lowerReference s f d r .value
  | .index array i, d =>
    ((stretch_lowerReference s f d array .value).append (stretch_lowerExpression i (d + 1))).append
      (.pop rfl rfl (.pop rfl rfl (.keep rfl rfl (.push rfl rfl .nil))))
  | .unary op operand, d =>
    (stretch_lowerExpression operand d).append (stretch_unaryInstruction d op)
  | .binary op left right, d =>
    ((stretch_lowerExpression left d).append (stretch_lowerExpression right (d + 1))).append
      (stretch_binaryInstructions d op)
  | .call callee args, d =>
    (stretch_lowerCall s f d callee (stretch_lowerArguments args d)).append (.push rfl rfl .nil)
  | .newObject _, _ => .call (.push rfl rfl .nil)
  | .newArray _ size, d =>
    (stretch_lowerExpression size d).append (.pop rfl rfl (.call (.push rfl rfl .nil)))

/-- The code of arguments leaves one word for each. -/
theorem stretch_lowerArguments :
    (es : List Expression) → (d : Nat) → Stretch d (lowerArguments s f es) (d + es.length)
  | [], _ => .nil
  | e :: es, d => by
    have hrest := stretch_lowerArguments es (d + 1)
    rw [Nat.add_right_comm] at hrest
    exact (stretch_lowerExpression e d).append hrest

end

/-- The code of a condition leaves what it finds. -/
theorem stretch_lowerCondition (cond : Expression) : Stretch d (lowerCondition s f cond) d :=
  (stretch_lowerExpression s f cond d).append (.pop rfl rfl (.keep rfl rfl .nil))

end Expressions

namespace Balanced

variable {s : Surroundings} {d d₁ d' : Nat} {xs ys : List Step}

private theorem of_stretch (h : Stretch d xs d') : Balanced s d xs d' := by
  rw [← List.append_nil xs]
  exact .stretch h .nil

/-- Balanced steps in a row are balanced. -/
theorem append (h : Balanced s d xs d₁) (h' : Balanced s d₁ ys d') :
    Balanced s d (xs ++ ys) d' := by
  induction h with
  | nil => exact h'
  | stretch first _ ih =>
    rw [List.append_assoc]
    exact .stretch first (ih h')
  | leave _ ih =>
    rw [List.append_assoc]
    exact .leave (ih h')
  | settle _ ih => exact .settle (ih h')
  | when inner _ _ ih => exact .when inner (ih h')
  | choose first second _ _ _ ih => exact .choose first second (ih h')
  | loop test inner _ _ ih => exact .loop test inner (ih h')

end Balanced

/-- The steps of a statement with the locals that it declares taken off the stack. -/
def scopedSteps (s : Surroundings) (f : Frame) (st : Statement) : List Step :=
  (inScope f.live (lowerStatement s f st)).1

section Statements

variable (s : Surroundings) (f : Frame)

/-- The frame after a statement in its own scope is the one before it. -/
theorem inScope_lowerStatement (st : Statement) :
    inScope f.live (lowerStatement s f st) = (scopedSteps s f st, f) := by
  obtain ⟨new, hnew, -⟩ := f.after_eq_extended st
  refine Prod.ext rfl ?_
  simp only [inScope, lowerStatement_frame, hnew, Frame.release_extended]

/-- The steps of a branch with one part. -/
theorem lowerStatement_when (cond : Expression) (yes : Statement) :
    lowerStatement s f (.branch cond yes none) =
      settled (lowerCondition s f cond ++ [.when (scopedSteps s f yes)], f) := by
  simp only [lowerStatement, inScope_lowerStatement]

/-- The steps of a branch with two parts. -/
theorem lowerStatement_choose (cond : Expression) (yes no : Statement) :
    lowerStatement s f (.branch cond yes (some no)) =
      settled (lowerCondition s f cond ++ [.choose (scopedSteps s f yes) (scopedSteps s f no)],
        f) := by
  simp only [lowerStatement, inScope_lowerStatement]

/-- The steps of a loop. -/
theorem lowerStatement_loop (cond : Expression) (body : Statement) :
    lowerStatement s f (.loop cond body) =
      settled ([.loop (lowerCondition s f cond) (scopedSteps s f body)], f) := by
  simp only [lowerStatement, inScope_lowerStatement]

/-- The end of a routine is balanced at every depth. -/
theorem balanced_leaveSteps (d : Nat) : Balanced s d (leaveSteps s) d := by
  rw [← List.append_nil (leaveSteps s)]
  exact .leave .nil

variable {s f}

private theorem balanced_inScope {new : List VarId} {body : List Step × Frame}
    (hframe : body.2 = f.extended new) (h : Balanced s f.live body.1 body.2.live) :
    Balanced s f.live (inScope f.live body).1 (inScope f.live body).2.live := by
  have hrelease := stretch_releaseSteps f.live new.length
  rw [Nat.add_comm] at hrelease
  rw [hframe, Frame.live_extended] at h
  simp only [inScope, hframe, Frame.beyond_extended, Frame.release_extended]
  exact h.append (.of_stretch hrelease)

private theorem balanced_scopedSteps {st : Statement}
    (h : Balanced s f.live (lowerStatement s f st).1 (lowerStatement s f st).2.live) :
    Balanced s f.live (scopedSteps s f st) f.live := by
  obtain ⟨new, hnew, -⟩ := f.after_eq_extended st
  have hscope := balanced_inScope ((lowerStatement_frame s f st).trans hnew) h
  rwa [inScope_lowerStatement] at hscope

private theorem balanced_settled {d : Nat} {body : List Step × Frame}
    (h : Balanced s d body.1 body.2.live) : Balanced s d (settled body).1 (settled body).2.live :=
  h.append (.settle .nil)

variable (s)

mutual

/-- A statement that finds the live locals on the operand stack leaves the live locals. -/
theorem balanced_lowerStatement : (st : Statement) → (f : Frame) →
    Balanced s f.live (lowerStatement s f st).1 (lowerStatement s f st).2.live
  | .block body, f => by
    obtain ⟨new, hnew⟩ := f.foldl_after_eq_extended body
    exact balanced_settled (balanced_inScope ((lowerStatements_frame s f body).trans hnew)
      (balanced_lowerStatements body f))
  | .declare decl init, f =>
    balanced_settled (.of_stretch (.push rfl rfl
      ((stretch_lowerExpression s (f.declare decl.id) init (f.live + 1)).append
        (.pop rfl rfl (.keep rfl rfl .nil)))))
  | .assign target value, f =>
    balanced_settled (.of_stretch
      (((stretch_lowerReference s f f.live target .address).append
        (stretch_lowerExpression s f value _)).append
          (.pop rfl rfl (.pop rfl rfl (.keep rfl rfl .nil)))))
  | .assignElement array i value, f =>
    balanced_settled (.of_stretch
      ((((stretch_lowerReference s f f.live array .value).append
        (stretch_lowerExpression s f i _)).append (stretch_lowerExpression s f value _)).append
          (.pop rfl rfl (.pop rfl rfl (.pop rfl rfl (.keep rfl rfl .nil))))))
  | .call callee args, f =>
    balanced_settled
      (.of_stretch (stretch_lowerCall s f f.live callee (stretch_lowerArguments s f args _)))
  | .giveBack none, f => balanced_settled (balanced_leaveSteps s f.live)
  | .giveBack (some value), f =>
    balanced_settled (.append
      (.of_stretch ((stretch_lowerExpression s f value f.live).append (.pop rfl rfl .nil)))
      (balanced_leaveSteps s f.live))
  | .branch cond yes none, f => by
    rw [lowerStatement_when]
    exact balanced_settled (.stretch (stretch_lowerCondition s f f.live cond)
      (.when (balanced_scopedSteps (balanced_lowerStatement yes f)) .nil))
  | .branch cond yes (some no), f => by
    rw [lowerStatement_choose]
    exact balanced_settled (.stretch (stretch_lowerCondition s f f.live cond)
      (.choose (balanced_scopedSteps (balanced_lowerStatement yes f))
        (balanced_scopedSteps (balanced_lowerStatement no f)) .nil))
  | .loop cond body, f => by
    rw [lowerStatement_loop]
    exact balanced_settled (.loop (stretch_lowerCondition s f f.live cond)
      (balanced_scopedSteps (balanced_lowerStatement body f)) .nil)

/-- So do statements in order. -/
theorem balanced_lowerStatements : (sts : List Statement) → (f : Frame) →
    Balanced s f.live (lowerStatements s f sts).1 (lowerStatements s f sts).2.live
  | [], _ => .nil
  | st :: sts, f => (balanced_lowerStatement st f).append (balanced_lowerStatements sts _)

end

end Statements

end NativeBackend
